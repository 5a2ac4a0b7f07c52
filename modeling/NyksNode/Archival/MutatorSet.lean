import NyksNode.Archival.Mmr
import NyksNode.MutatorSet.Accumulator

/-!
# The archival mutator set

The archival mutator set keeps both mountain ranges with all their nodes, and the inactive
chunks themselves.  It can therefore undo additions and removals, and restore membership
proofs.
-/

namespace NyksNode

@[ext]
structure ArchivalMutatorSet (D : Type) where
  aocl : ArchivalMmr D
  swbfInactive : ArchivalMmr D
  swbfActive : ActiveWindow
  chunks : List Chunk
  deriving DecidableEq, Repr

namespace ArchivalMutatorSet
variable {D : Type} [Tip5 D] [MmrNodeIndexing]

def newEmpty : ArchivalMutatorSet D := ⟨.new, .new, .new, []⟩

def getBatchIndexAsync (a : ArchivalMutatorSet D) : Option ℕ :=
  a.aocl.numLeafs.map aoclToSwbfiLeafCounts

def accumulator (a : ArchivalMutatorSet D) : Option (MutatorSetAccumulator D) := do
  let aocl ← a.aocl.toAccumulatorAsync
  let swbfInactive ← a.swbfInactive.toAccumulatorAsync
  some ⟨aocl, swbfInactive, a.swbfActive⟩

def hash [MmrOps D] (a : ArchivalMutatorSet D) : Option D := a.accumulator.map (·.hash)

def clear (a : ArchivalMutatorSet D) : Option (ArchivalMutatorSet D) := do
  let aocl ← a.aocl.pruneToNumLeafs 0
  let swbfInactive ← a.swbfInactive.pruneToNumLeafs 0
  some ⟨aocl, swbfInactive, ⟨[]⟩, []⟩

/-! ## Adding -/

/-- `add_helper`: the new set, and the chunk that became inactive if the window slid. -/
def addHelper (a : ArchivalMutatorSet D) (r : AdditionRecord D) :
    Option (ArchivalMutatorSet D × Option (ℕ × Chunk)) := do
  let itemIndex ← a.aocl.numLeafs
  let (aocl, _) ← a.aocl.append r.canonicalCommitment
  if !windowSlides itemIndex then
    some ({ a with aocl := aocl }, none)
  else do
    let newChunk := a.swbfActive.slidChunk
    let newChunkIndex ← a.swbfInactive.numLeafs
    let (swbfInactive, _) ← a.swbfInactive.append newChunk.hash
    some (⟨aocl, swbfInactive, a.swbfActive.slideWindow, a.chunks⟩, some (newChunkIndex, newChunk))

/-- Store the chunk that became inactive; its index must be the next one. -/
def pushChunk (a : ArchivalMutatorSet D) : Option (ℕ × Chunk) → Option (ArchivalMutatorSet D)
  | none => some a
  | some (chunkIndex, chunk) =>
    if chunkIndex = a.chunks.length then some { a with chunks := a.chunks ++ [chunk] } else none

def add (a : ArchivalMutatorSet D) (r : AdditionRecord D) : Option (ArchivalMutatorSet D) := do
  let (a, newChunk) ← a.addHelper r
  a.pushChunk newChunk

/-! ## Removing -/

/-- Insert absolute indices into the active window.  The difference is narrowed to `u32`. -/
def insertActive (start : ℕ) (w : ActiveWindow) (indices : List ℕ) : Option ActiveWindow :=
  indices.foldlM
    (fun w i => if start ≤ i then w.insert ((i - start) % u32Bound) else none) w

/-- One round of the loop of `remove_helper` over the chunks a record touches. -/
def removeChunk (batchIndex : ℕ) (s : ActiveWindow × ChunkDictionary D) (g : ℕ × List ℕ) :
    Option (ActiveWindow × ChunkDictionary D) :=
  if batchIndex ≤ g.1 then
    (insertActive (batchIndex * chunkSize) s.1 g.2).map fun w => (w, s.2)
  else do
    let (_, chunk) ← s.2.get g.1
    let chunk ← chunk.insertAll (g.2.map (· % chunkSize))
    some (s.1, s.2.modify g.1 fun v => (v.1, chunk))

def setMany (chunks : List Chunk) (keyVals : List (ℕ × Chunk)) : Option (List Chunk) :=
  keyVals.foldlM (fun chunks kv => storageSet chunks kv.1 kv.2) chunks

section
variable [DecidableEq D]

/-- `remove_helper`: the new set and the updated chunks. -/
def removeHelper (a : ArchivalMutatorSet D) (rr : RemovalRecord D) :
    Option (ArchivalMutatorSet D × List (ℕ × Chunk)) := do
  let batchIndex ← a.getBatchIndexAsync
  let (swbfActive, newTargetChunks) ←
    rr.getChunkidxToIndicesDict.foldlM (removeChunk batchIndex) (a.swbfActive, rr.targetChunks)
  let (swbfInactive, _) ←
    a.swbfInactive.batchMutateLeafAndUpdateMps [] newTargetChunks.indicesAndLeafs
  some ({ a with swbfInactive := swbfInactive, swbfActive := swbfActive },
    newTargetChunks.dictionary.map fun e => (e.1, e.2.2))

def remove (a : ArchivalMutatorSet D) (rr : RemovalRecord D) : Option (ArchivalMutatorSet D) := do
  let (a, newChunks) ← a.removeHelper rr
  let chunks ← setMany a.chunks newChunks
  some { a with chunks := chunks }

/-- Second loop of `batch_remove`: the chunks of all records.  A debug assertion compares the
digests of the chunks with one index. -/
def collectChunk (newChunks : List (ℕ × Chunk)) (e : ChunkEntry D) : Option (List (ℕ × Chunk)) :=
  match newChunks.lookup e.1 with
  | none => some ((e.1, e.2.2) :: newChunks)
  | some chunk =>
    if (chunk.hash : D) = e.2.2.hash then
      some ((e.1, e.2.2) :: newChunks.eraseP fun x => x.1 == e.1)
    else none

/-- Third loop of `batch_remove`: combine every chunk with its difference, which must exist. -/
def combineDifference (differences : List (ℕ × Chunk)) (e : ℕ × Chunk) : Option (ℕ × Chunk) :=
  (differences.lookup e.1).map fun d => (e.1, e.2.combine d)

def batchRemove (a : ArchivalMutatorSet D) (removalRecords : List (RemovalRecord D)) :
    Option (ArchivalMutatorSet D) := do
  let batchIndex ← a.getBatchIndexAsync
  let (swbfActive, differences) ←
    (removalRecords.flatMap fun rr => rr.absoluteIndices.toArray).foldlM
      (MutatorSetAccumulator.collectDifferences (batchIndex * chunkSize)) (a.swbfActive, [])
  let newChunks ←
    (removalRecords.flatMap fun rr => rr.targetChunks.dictionary).foldlM collectChunk []
  let newChunks ← newChunks.mapM (combineDifference differences)
  let chunks ← setMany a.chunks newChunks
  let (swbfInactive, _) ← a.swbfInactive.batchMutateLeafAndUpdateMps []
    (newChunks.map fun e => (e.1, e.2.hash))
  some { a with swbfInactive := swbfInactive, swbfActive := swbfActive, chunks := chunks }

end

/-! ## Reverting -/

/-- First loop of `revert_remove`: active indices leave the window, the others go into a map of
chunk differences. -/
def collectReversals (start : ℕ) (s : ActiveWindow × List (ℕ × Chunk)) (index : ℕ) :
    Option (ActiveWindow × List (ℕ × Chunk)) :=
  if start ≤ index then
    (s.1.remove ((index - start) % u32Bound)).map fun w => (w, s.2)
  else
    (MutatorSetAccumulator.insertDifference s.2 (chunkIndexOf index) (index % chunkSize)).map
      fun m => (s.1, m)

/-- Second loop of `revert_remove`: subtract a difference from its chunk. -/
def subtractChunk (x : ArchivalMmr D × List Chunk) (e : ℕ × Chunk) :
    Option (ArchivalMmr D × List Chunk) := do
  let previousChunk ← x.2[e.1]?
  let newChunk ← previousChunk.subtract e.2
  let swbfInactive ← x.1.mutateLeaf e.1 newChunk.hash
  let chunks ← storageSet x.2 e.1 newChunk
  some (swbfInactive, chunks)

def revertRemove (a : ArchivalMutatorSet D) (rr : RemovalRecord D) :
    Option (ArchivalMutatorSet D) := do
  let batchIndex ← a.getBatchIndexAsync
  let (swbfActive, differences) ←
    rr.absoluteIndices.toArray.foldlM (collectReversals (batchIndex * chunkSize))
      (a.swbfActive, [])
  let (swbfInactive, chunks) ← differences.foldlM subtractChunk (a.swbfInactive, a.chunks)
  some { a with swbfInactive := swbfInactive, swbfActive := swbfActive, chunks := chunks }

def addIsReversible [DecidableEq D] (a : ArchivalMutatorSet D) (r : AdditionRecord D) :
    Option Bool := do
  let numLeafs ← a.aocl.numLeafs
  -- the subtraction is on `u64`
  if numLeafs = 0 then none
  else do
    let digest ← a.aocl.getLeafAsync (numLeafs - 1)
    some (decide (r.canonicalCommitment = digest))

/-- Move the window back: the last inactive chunk becomes active again. -/
def unslide (a : ArchivalMutatorSet D) (aocl : ArchivalMmr D) : Option (ArchivalMutatorSet D) := do
  let (_, swbfInactive) ← a.swbfInactive.removeLastLeafAsync
  let (lastInactiveChunk, chunks) ← storagePop a.chunks
  let swbfActive ← a.swbfActive.slideWindowBack lastInactiveChunk
  some ⟨aocl, swbfInactive, swbfActive, chunks⟩

def revertAdd [DecidableEq D] (a : ArchivalMutatorSet D) (r : AdditionRecord D) :
    Option (ArchivalMutatorSet D) := do
  let numLeafs ← a.aocl.numLeafs
  if numLeafs = 0 then none
  else do
    let removedAddIndex := numLeafs - 1
    let (digest, aocl) ← a.aocl.removeLastLeafAsync
    if digest ≠ some r.canonicalCommitment then none
    else if !windowSlides removedAddIndex then some { a with aocl := aocl }
    else a.unslide aocl

/-! ## Restoring membership proofs -/

def getAoclAuthenticationPath (a : ArchivalMutatorSet D) (index : ℕ) :
    Option (Except MutatorSetError (MmrMembershipProof D)) := do
  let numLeafs ← a.aocl.numLeafs
  if numLeafs ≤ index then some (.error (.requestedAoclAuthPathOutOfBounds index numLeafs))
  else (a.aocl.proveMembershipAsync index).map .ok

/-- One round of the loop of `restore_membership_proof`. -/
def restoreChunk (a : ArchivalMutatorSet D) (targetChunks : ChunkDictionary D)
    (x : ℕ × Chunk) : Option (ChunkDictionary D) :=
  if x.1 < a.chunks.length then do
    let chunkMembershipProof ← a.swbfInactive.proveMembershipAsync x.1
    some (targetChunks.insert x.1 (chunkMembershipProof, x.2))
  else none

def restoreTargetChunks (a : ArchivalMutatorSet D) (swbfIndices : AbsoluteIndexSet) :
    Option (ChunkDictionary D) := do
  let batchIndex ← a.getBatchIndexAsync
  let windowStart := batchIndex * chunkSize
  let chunkIndices :=
    (swbfIndices.toArray.filter fun i => decide (i < windowStart)).map chunkIndexOf
  let chunks ← chunkIndices.mapM (a.chunks[·]?)
  (chunkIndices.zip chunks).foldlM a.restoreChunk .empty

def restoreMembershipProof (a : ArchivalMutatorSet D)
    (item senderRandomness receiverPreimage : D) (aoclLeafIndex : ℕ) :
    Option (Except MutatorSetError (MsMembershipProof D)) :=
  if a.aocl.isEmpty then some (.error .mutatorSetIsEmpty)
  else do
    match ← a.getAoclAuthenticationPath aoclLeafIndex with
    | .error e => some (.error e)
    | .ok authPathAocl =>
      (a.restoreTargetChunks
        (.compute item senderRandomness receiverPreimage aoclLeafIndex)).map fun targetChunks =>
          .ok ⟨senderRandomness, receiverPreimage, authPathAocl, aoclLeafIndex, targetChunks⟩

/-! ## Looking up indices -/

omit [Tip5 D] [MmrNodeIndexing] in
def bloomFilterContainsInner (a : ArchivalMutatorSet D) (index activeWindowStart : ℕ) :
    Option Bool :=
  if activeWindowStart ≤ index then
    let relativeIndex := (index - activeWindowStart) % u32Bound
    if windowSize ≤ relativeIndex then some false else a.swbfActive.contains relativeIndex
  else do
    let relevantChunk ← a.chunks[chunkIndexOf index]?
    relevantChunk.contains (index % chunkSize)

/-- `absolute_index_set_was_applied`, which stops at the first index that is not set. -/
def absoluteIndexSetWasApplied (a : ArchivalMutatorSet D) (absoluteIndices : AbsoluteIndexSet) :
    Option Bool := do
  let batchIndex ← a.getBatchIndexAsync
  let missing ← absoluteIndices.toArray.anyM fun index =>
    (a.bloomFilterContainsInner index (batchIndex * chunkSize)).map not
  some !missing

end ArchivalMutatorSet

end NyksNode
