import Mathlib.Data.Finset.Dedup
import NyksNode.MutatorSet.Data

/-!
# Functions of the mutator set accumulator

`add`, `remove`, `can_remove`, `prove`, `verify`, `drop`, `batch_remove` and the
validation of removal records, as the source computes them.

A `HashMap` is the list of its entries (`groupByKey`): the source's loops over one
do not depend on the order of the entries, except for which of several offending
chunks an error names.  A loop with a `break` is `List.anyM`.
-/

namespace NyksNode

variable {D : Type}

namespace MutatorSetAccumulator

def getBatchIndex (A : MutatorSetAccumulator D) : ℕ := aoclToSwbfiLeafCounts A.aocl.numLeafs

/-- The lowest and the highest chunk index of the active window. -/
def activeWindowChunkInterval (A : MutatorSetAccumulator D) : ℕ × ℕ :=
  (A.getBatchIndex, A.getBatchIndex + windowSize / chunkSize - 1)

/-- The absolute index at which the active window starts. -/
def activeWindowStart (A : MutatorSetAccumulator D) : ℕ := A.getBatchIndex * chunkSize

end MutatorSetAccumulator

/-- Split the chunks of an index set at the start of the active window; a chunk behind the window
is an error. -/
def splitAtWindow (awChunkIndexMin awChunkIndexMax : ℕ) (groups : List (ℕ × List ℕ)) :
    Except MutatorSetError (List (ℕ × List ℕ) × List ℕ) :=
  let inactive := groups.filter fun g => decide (g.1 < awChunkIndexMin)
  let active := groups.filter fun g => decide (¬ g.1 < awChunkIndexMin)
  match active.find? fun g => decide (awChunkIndexMax < g.1) with
  | some g => .error (.absoluteRemovalIndexIsFutureIndex awChunkIndexMax g.1)
  | none => .ok (inactive, active.flatMap (·.2))

/-- `split_by_activity`: the inactive indices by chunk, and the active indices. -/
def AbsoluteIndexSet.splitByActivity (s : AbsoluteIndexSet) (A : MutatorSetAccumulator D) :
    Except MutatorSetError (List (ℕ × List ℕ) × List ℕ) :=
  splitAtWindow A.activeWindowChunkInterval.1 A.activeWindowChunkInterval.2
    (indicesToHashMap s.toArray)

/-! ## Validation of removal records -/

inductive RemovalRecordValidityError where
  | absentAuthenticatedChunk
  | invalidSwbfiMmrMp (chunkIndex : ℕ)
  deriving DecidableEq, Repr

namespace RemovalRecord

/-- The required and the proven chunk indices, compared as sets. -/
def hasRequiredAuthenticatedChunks (rr : RemovalRecord D) (A : MutatorSetAccumulator D) : Bool :=
  match rr.absoluteIndices.splitByActivity A with
  | .error _ => false
  | .ok (inactive, _) =>
    decide ((inactive.map (·.1)).toFinset = rr.targetChunks.allChunkIndices.toFinset)

variable [Tip5 D] [MmrOps D]

def validateInner (rr : RemovalRecord D) (A : MutatorSetAccumulator D) :
    Except RemovalRecordValidityError Unit :=
  if !rr.hasRequiredAuthenticatedChunks A then .error .absentAuthenticatedChunk
  else
    match rr.targetChunks.dictionary.find? fun e =>
        !MmrOps.verify e.2.1 e.1 e.2.2.hash A.swbfInactive.peaks A.swbfInactive.numLeafs with
    | some e => .error (.invalidSwbfiMmrMp e.1)
    | none => .ok ()

def validate (rr : RemovalRecord D) (A : MutatorSetAccumulator D) : Bool :=
  (rr.validateInner A).isOk

end RemovalRecord

namespace MutatorSetAccumulator
variable [Tip5 D] [MmrOps D]

/-! ## Adding and removing -/

/-- `add_helper`: the new accumulator, and the chunk that became inactive if the window slid. -/
def addHelper (A : MutatorSetAccumulator D) (r : AdditionRecord D) :
    Option (MutatorSetAccumulator D × Option (ℕ × Chunk)) := do
  let itemIndex := A.aocl.numLeafs
  let (aocl, _) ← MmrOps.append A.aocl r.canonicalCommitment
  if !windowSlides itemIndex then
    some ({ A with aocl := aocl }, none)
  else
    let newChunk := A.swbfActive.slidChunk
    let newChunkIndex := A.swbfInactive.numLeafs
    let (swbfInactive, _) ← MmrOps.append A.swbfInactive newChunk.hash
    some (⟨aocl, swbfInactive, A.swbfActive.slideWindow⟩, some (newChunkIndex, newChunk))

def add (A : MutatorSetAccumulator D) (r : AdditionRecord D) : Option (MutatorSetAccumulator D) :=
  (A.addHelper r).map (·.1)

/-- Insert absolute indices into the active window.  The subtraction is on `u128`, and the
difference must fit a `u32`. -/
def insertActive (start : ℕ) (w : ActiveWindow) (indices : List ℕ) : Option ActiveWindow :=
  indices.foldlM
    (fun w i => if start ≤ i ∧ i - start < u32Bound then w.insert (i - start) else none) w

/-- One round of the loop of `remove_helper` over the chunks a record touches. -/
def removeChunk (batchIndex : ℕ) (s : ActiveWindow × ChunkDictionary D) (g : ℕ × List ℕ) :
    Option (ActiveWindow × ChunkDictionary D) :=
  if batchIndex ≤ g.1 then
    (insertActive (batchIndex * chunkSize) s.1 g.2).map fun w => (w, s.2)
  else do
    -- a record without the chunk makes the source panic
    let (_, chunk) ← s.2.get g.1
    let chunk ← chunk.insertAll (g.2.map (· % chunkSize))
    some (s.1, s.2.modify g.1 fun v => (v.1, chunk))

/-- `remove_helper`: the new accumulator and the updated chunks. -/
def removeHelper (A : MutatorSetAccumulator D) (rr : RemovalRecord D) :
    Option (MutatorSetAccumulator D × List (ℕ × Chunk)) := do
  let batchIndex := A.getBatchIndex
  let (swbfActive, newTargetChunks) ←
    rr.getChunkidxToIndicesDict.foldlM (removeChunk batchIndex) (A.swbfActive, rr.targetChunks)
  let (swbfInactive, _) ←
    MmrOps.batchMutateLeafAndUpdateMps A.swbfInactive [] [] newTargetChunks.leafMutations
  some ({ A with swbfInactive := swbfInactive, swbfActive := swbfActive },
    newTargetChunks.dictionary.map fun e => (e.1, e.2.2))

def remove (A : MutatorSetAccumulator D) (rr : RemovalRecord D) :
    Option (MutatorSetAccumulator D) :=
  (A.removeHelper rr).map (·.1)

/-- Whether an index of a validated record is unset.  The subtraction is narrowed to `u32`. -/
def isAbsent (A : MutatorSetAccumulator D) (rr : RemovalRecord D) (index : ℕ) : Option Bool := do
  let present ← if index < A.activeWindowStart then do
      let (_, chunk) ← rr.targetChunks.get (chunkIndexOf index)
      chunk.contains (index % chunkSize)
    else A.swbfActive.contains ((index - A.activeWindowStart) % u32Bound)
  some !present

def canRemove (A : MutatorSetAccumulator D) (rr : RemovalRecord D) : Option Bool :=
  if !rr.validate A then some false
  else rr.absoluteIndices.toArray.anyM (A.isAbsent rr)

/-! ## Membership proofs -/

/-- `prove`.  The appended leaf is not the canonical commitment, but a path does not depend on
its own leaf. -/
def prove (A : MutatorSetAccumulator D) (item senderRandomness receiverPreimage : D) :
    Option (MsMembershipProof D) := do
  let (_, authPathAocl) ← MmrOps.append A.aocl (Tip5.hashPair item senderRandomness)
  some ⟨senderRandomness, receiverPreimage, authPathAocl, A.aocl.numLeafs, .empty⟩

/-- The loop of `verify` over the inactive chunks: whether an index was absent, whether every
chunk had an entry, and whether every path was valid. -/
def verifyInactive (A : MutatorSetAccumulator D) (mp : MsMembershipProof D) :
    List (ℕ × List ℕ) → Bool → Bool → Option (Bool × Bool × Bool)
  | [], hasAbsentIndex, pathsAreValid => some (hasAbsentIndex, true, pathsAreValid)
  | g :: gs, hasAbsentIndex, pathsAreValid =>
    match mp.targetChunks.get g.1 with
    | none => some (hasAbsentIndex, false, pathsAreValid)
    | some (path, chunk) => do
      let validAuthPath :=
        MmrOps.verify path g.1 chunk.hash A.swbfInactive.peaks A.swbfInactive.numLeafs
      let absent ← g.2.anyM fun i => (chunk.contains (i % chunkSize)).map not
      verifyInactive A mp gs (hasAbsentIndex || absent) (pathsAreValid && validAuthPath)

def verify (A : MutatorSetAccumulator D) (item : D) (mp : MsMembershipProof D) : Option Bool :=
  let aoclLeafCount := A.aocl.numLeafs
  if aoclLeafCount ≤ mp.aoclLeafIndex then some false
  else
    let leaf := Tip5.hashPair (Tip5.hashPair item mp.senderRandomness)
      (Tip5.hashPair mp.receiverPreimage Tip5.zeroDigest)
    let isAoclMember :=
      MmrOps.verify mp.authPathAocl mp.aoclLeafIndex leaf A.aocl.peaks aoclLeafCount
    if !isAoclMember then some false
    else
      match (mp.computeIndices item).splitByActivity A with
      | .error _ => some false
      | .ok (inactive, active) => do
        let (absentInactive, entriesInDictionary, pathsAreValid) ←
          A.verifyInactive mp inactive false true
        let absentActive ← active.anyM fun i =>
          (A.swbfActive.contains ((i - A.activeWindowStart) % u32Bound)).map not
        some (isAoclMember && entriesInDictionary && pathsAreValid
          && (absentInactive || absentActive))

def drop (_A : MutatorSetAccumulator D) (item : D) (mp : MsMembershipProof D) : RemovalRecord D :=
  ⟨mp.computeIndices item, mp.targetChunks⟩

def hash (A : MutatorSetAccumulator D) : D :=
  Tip5.hashPair (Tip5.hashPair (MmrOps.bagPeaks A.aocl) (MmrOps.bagPeaks A.swbfInactive))
    (Tip5.hashPair A.swbfActive.hash Tip5.zeroDigest)

/-! ## Removing a batch -/

/-- The changes to one chunk map: `entry(..).or_insert_with(Chunk::empty_chunk).insert(..)`. -/
def insertDifference (m : List (ℕ × Chunk)) (chunkIndex index : ℕ) : Option (List (ℕ × Chunk)) := do
  let chunk ← ((m.lookup chunkIndex).getD .emptyChunk).insert index
  some ((chunkIndex, chunk) :: m.eraseP fun e => e.1 == chunkIndex)

/-- First loop of `batch_remove`: active indices go into the window, the others into a map of
chunk differences. -/
def collectDifferences (start : ℕ) (s : ActiveWindow × List (ℕ × Chunk)) (index : ℕ) :
    Option (ActiveWindow × List (ℕ × Chunk)) :=
  if start ≤ index then
    (s.1.insert ((index - start) % u32Bound)).map fun w => (w, s.2)
  else
    (insertDifference s.2 (chunkIndexOf index) (index % chunkSize)).map fun m => (s.1, m)

/-- Second loop of `batch_remove`: the chunks of all records, which must agree. -/
def collectPreimage [DecidableEq D] (m : List (ChunkEntry D)) (e : ChunkEntry D) :
    Option (List (ChunkEntry D)) :=
  match m.lookup e.1 with
  | none => some (e :: m)
  | some v =>
    if v.1 = e.2.1 ∧ (v.2.hash : D) = e.2.2.hash then
      some (e :: m.eraseP fun x => x.1 == e.1)
    else none

/-- Third loop of `batch_remove`: combine every chunk with its difference, which must exist. -/
def applyDifference (differences : List (ℕ × Chunk)) (e : ChunkEntry D) : Option (ChunkEntry D) :=
  (differences.lookup e.1).map fun d => (e.1, e.2.1, e.2.2.combine d)

/-- Fourth loop of `batch_remove`: copy changed chunks into a preserved proof. -/
def preserveChunks (changed : List (ChunkEntry D)) (d : ChunkDictionary D) : ChunkDictionary D :=
  ⟨d.dictionary.map fun e =>
    match changed.lookup e.1 with
    | some v => (e.1, e.2.1, v.2)
    | none => e⟩

/-- `batch_remove`: the new accumulator, the preserved proofs, and the chunk differences. -/
def batchRemove [DecidableEq D] (A : MutatorSetAccumulator D)
    (removalRecords : List (RemovalRecord D)) (preserved : List (MsMembershipProof D)) :
    Option (MutatorSetAccumulator D × List (MsMembershipProof D) × List (ℕ × Chunk)) := do
  let (swbfActive, differences) ←
    (removalRecords.flatMap fun rr => rr.absoluteIndices.toArray).foldlM
      (collectDifferences A.activeWindowStart) (A.swbfActive, [])
  let preimage ←
    (removalRecords.flatMap fun rr => rr.targetChunks.dictionary).foldlM collectPreimage []
  let changed ← preimage.mapM (applyDifference differences)
  let dictionaries := preserved.map fun mp => preserveChunks changed mp.targetChunks
  let (swbfInactive, paths, _) ← MmrOps.batchMutateLeafAndUpdateMps A.swbfInactive
      (dictionaries.flatMap (·.authenticationPaths)) (dictionaries.flatMap (·.allChunkIndices))
      (changed.map fun e => ⟨e.1, e.2.2.hash, e.2.1⟩)
  let dictionaries :=
    ChunkDictionary.writeAllPaths (dictionaries.map fun d => (fun _ => true, d)) paths
  some ({ A with swbfInactive := swbfInactive, swbfActive := swbfActive },
    preserved.zipWith (fun mp d => { mp with targetChunks := d }) dictionaries, differences)

end MutatorSetAccumulator

end NyksNode
