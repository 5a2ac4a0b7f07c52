import NyksNode.MutatorSet.Accumulator

/-!
# Keeping records and proofs current

A removal record and a membership proof hold chunks and paths of one state of the
accumulator.  Before the accumulator changes, their holder passes them through the
functions of this module.

The mutable references that the source collects from several dictionaries are
read with `flatMap` and written back with `ChunkDictionary.writeAllPaths`.
-/

namespace NyksNode

variable {D : Type} [Tip5 D] [MmrOps D]

/-! ## Removals -/

/-- The state of the loops of `get_batch_mutation_argument_for_removal_record`: the positions of
the changed dictionaries, and the changed leafs with their old paths. -/
structure MutationArgument (D : Type) where
  mutatedChunkDictionaries : List ℕ
  leafMutations : List (LeafMutation D)

namespace MutationArgument

def containsKey (s : MutationArgument D) (chunkIndex : ℕ) : Bool :=
  s.leafMutations.any fun m => m.leafIndex == chunkIndex

/-- Collect a changed chunk, unless its leaf has been collected before. -/
def collect (s : MutationArgument D) (chunkIndex : ℕ) (path : MmrMembershipProof D)
    (chunk : Chunk) : MutationArgument D :=
  if s.containsKey chunkIndex then s
  else { s with leafMutations := s.leafMutations ++ [⟨chunkIndex, chunk.hash, path⟩] }

def markMutated (s : MutationArgument D) (i : ℕ) : MutationArgument D :=
  { s with mutatedChunkDictionaries := s.mutatedChunkDictionaries.insert i }

end MutationArgument

/-- Apply the indices `g` of one chunk to the dictionary at position `i`. -/
def applyToDictionary (rr : RemovalRecord D) (g : ℕ × List ℕ) (i : ℕ)
    (d : ChunkDictionary D) (s : MutationArgument D) :
    Option (ChunkDictionary D × MutationArgument D) :=
  match d.get g.1 with
  | some (path, chunk) => do
    let chunk ← chunk.insertAll (g.2.map (· % chunkSize))
    some (d.modify g.1 fun v => (v.1, chunk), (s.markMutated i).collect g.1 path chunk)
  | none =>
    match rr.targetChunks.get g.1 with
    -- the index is then in the active part of the filter
    | none => some (d, s)
    | some (path, chunk) =>
      if s.containsKey g.1 then some (d, s)
      else do
        let chunk ← chunk.insertAll (g.2.map (· % chunkSize))
        some (d, s.collect g.1 path chunk)

/-- The inner loop, over the dictionaries from position `i` on. -/
def applyToDictionaries (rr : RemovalRecord D) (g : ℕ × List ℕ) :
    ℕ → List (ChunkDictionary D) → MutationArgument D →
      Option (List (ChunkDictionary D) × MutationArgument D)
  | _, [], s => some ([], s)
  | i, d :: ds, s => do
    let (d, s) ← applyToDictionary rr g i d s
    let (ds, s) ← applyToDictionaries rr g (i + 1) ds s
    some (d :: ds, s)

def getBatchMutationArgumentForRemovalRecord (rr : RemovalRecord D)
    (chunkDictionaries : List (ChunkDictionary D)) :
    Option (List (ChunkDictionary D) × MutationArgument D) :=
  rr.getChunkidxToIndicesDict.foldlM
    (fun s g => applyToDictionaries rr g 0 s.1 s.2) (chunkDictionaries, ⟨[], []⟩)

/-- The part that all updates from a removal share: set the chunks to their new values, then
refresh every path.  Returns the dictionaries, the mutation argument, and the positions of the
changed paths among all paths. -/
def updateDictionariesFromRemove (rr : RemovalRecord D)
    (chunkDictionaries : List (ChunkDictionary D)) :
    Option (List (ChunkDictionary D) × MutationArgument D × List ℕ) := do
  let (dictionaries, s) ← getBatchMutationArgumentForRemovalRecord rr chunkDictionaries
  let (paths, changed) ←
    MmrOps.batchUpdateFromBatchLeafMutation (dictionaries.flatMap (·.authenticationPaths))
      (dictionaries.flatMap (·.allChunkIndices)) s.leafMutations
  some (ChunkDictionary.writeAllPaths (dictionaries.map fun d => (fun _ => true, d)) paths,
    s, changed)

def RemovalRecord.batchUpdateFromRemove (removalRecords : List (RemovalRecord D))
    (applied : RemovalRecord D) : Option (List (RemovalRecord D)) := do
  let (dictionaries, _, _) ←
    updateDictionariesFromRemove applied (removalRecords.map (·.targetChunks))
  some (removalRecords.zipWith (fun rr d => { rr with targetChunks := d }) dictionaries)

/-- `MsMembershipProof::update_from_remove`: the new proof, and whether it changed. -/
def MsMembershipProof.updateFromRemove (mp : MsMembershipProof D) (rr : RemovalRecord D) :
    Option (MsMembershipProof D × Bool) := do
  let (dictionaries, s, changed) ← updateDictionariesFromRemove rr [mp.targetChunks]
  some ({ mp with targetChunks := dictionaries.headD .empty },
    !changed.isEmpty || !s.mutatedChunkDictionaries.isEmpty)

/-- `MsMembershipProof::batch_update_from_remove`: the new proofs, and the positions of those
that changed. -/
def MsMembershipProof.batchUpdateFromRemove (mps : List (MsMembershipProof D))
    (rr : RemovalRecord D) : Option (List (MsMembershipProof D) × List ℕ) := do
  let (dictionaries, s, changed) ← updateDictionariesFromRemove rr (mps.map (·.targetChunks))
  -- the position of the proof that the path at each position came from
  let mmrMpIndexToInputIndex :=
    dictionaries.zipIdx.flatMap fun d => List.replicate d.1.dictionary.length d.2
  let mutated ← changed.mapM fun j => mmrMpIndexToInputIndex[j]?
  some (mps.zipWith (fun mp d => { mp with targetChunks := d }) dictionaries,
    ((s.mutatedChunkDictionaries ++ mutated).insertionSort (· ≤ ·)).dedup)

/-! ## Additions -/

/-- The chunk that an addition makes inactive and its path, if the window slides.  Asserts that
the inactive part has the leaf count that goes with the number of commitments. -/
def slidingChunk (A : MutatorSetAccumulator D) : Option (MmrMembershipProof D × Chunk) := do
  let newChunk := A.swbfActive.slidChunk
  if A.aocl.numLeafs / batchSize - 1 = A.swbfInactive.numLeafs then
    let (_, newSwbfAuthPath) ← MmrOps.append A.swbfInactive newChunk.hash
    some (newSwbfAuthPath, newChunk)
  else none

namespace RemovalRecord

/-- Insert an entry for the chunk that becomes inactive into a record that touches it. -/
def insertSlidChunk (rr : RemovalRecord D) (chunkIndex : ℕ)
    (value : MmrMembershipProof D × Chunk) : RemovalRecord D :=
  if rr.absoluteIndices.chunkIndices.contains chunkIndex then
    { rr with targetChunks := rr.targetChunks.insert chunkIndex value }
  else rr

/-- Which paths of a record an appended chunk may change: none if the record touches no inactive
chunk, otherwise all but that of the appended chunk itself. -/
def selectedForAppend (chunkIndex : ℕ) (rr : RemovalRecord D) (key : ℕ) : Bool :=
  rr.absoluteIndices.chunkIndices.any (fun c => decide (c < chunkIndex)) && key != chunkIndex

/-- Update the paths that an appended chunk may change, in all records. -/
def updatePathsFromAppend (removalRecords : List (RemovalRecord D)) (A : MutatorSetAccumulator D)
    (chunkIndex : ℕ) (newChunkDigest : D) : List (RemovalRecord D) :=
  let selected := removalRecords.flatMap fun rr =>
    rr.targetChunks.dictionary.filter fun e => selectedForAppend chunkIndex rr e.1
  let paths := (MmrOps.batchUpdateFromAppend (selected.map (·.2.1)) (selected.map (·.1))
    A.swbfInactive.numLeafs newChunkDigest A.swbfInactive.peaks).1
  let dictionaries := ChunkDictionary.writeAllPaths
    (removalRecords.map fun rr => (selectedForAppend chunkIndex rr, rr.targetChunks)) paths
  removalRecords.zipWith (fun rr d => { rr with targetChunks := d }) dictionaries

def batchUpdateFromAddition (removalRecords : List (RemovalRecord D))
    (A : MutatorSetAccumulator D) : Option (List (RemovalRecord D)) :=
  let newItemIndex := A.aocl.numLeafs
  if !windowSlides newItemIndex then some removalRecords
  else do
    let newChunk ← slidingChunk A
    let oldWindowStartBatchIndex := newItemIndex / batchSize - 1
    some (updatePathsFromAppend
      (removalRecords.map fun rr => rr.insertSlidChunk oldWindowStartBatchIndex newChunk)
      A oldWindowStartBatchIndex newChunk.2.hash)

end RemovalRecord

inductive MembershipProofError where
  | alreadyExistingChunk (chunkIndex : ℕ)
  | missingChunkOnUpdateFromAdd (chunkIndex : ℕ)
  deriving DecidableEq, Repr

namespace MsMembershipProof

/-- One round of the loop of `update_from_addition` over the chunks of the item: an inactive chunk
has its path updated, the chunk that becomes inactive gets an entry, any other chunk is
still active. -/
def updateChunkFromAddition (A : MutatorSetAccumulator D) (newChunk : MmrMembershipProof D × Chunk)
    (s : ChunkDictionary D × Bool) (chunkIndex : ℕ) :
    Except MembershipProofError (ChunkDictionary D × Bool) :=
  let newLeafIndex := A.swbfInactive.numLeafs
  if chunkIndex < newLeafIndex then
    match s.1.get chunkIndex with
    | none => .error (.missingChunkOnUpdateFromAdd chunkIndex)
    | some (path, _) =>
      let (path, updated) := MmrOps.updateFromAppend path chunkIndex newLeafIndex
        newChunk.2.hash A.swbfInactive.peaks
      .ok (s.1.modify chunkIndex fun v => (path, v.2), s.2 || updated)
  else if chunkIndex = newLeafIndex then
    if s.1.containsKey chunkIndex then .error (.alreadyExistingChunk chunkIndex)
    else .ok (s.1.insert chunkIndex newChunk, true)
  else .ok s

/-- `MsMembershipProof::update_from_addition`: the new proof, and whether it changed. -/
def updateFromAddition (mp : MsMembershipProof D) (ownItem : D) (A : MutatorSetAccumulator D)
    (r : AdditionRecord D) : Option (Except MembershipProofError (MsMembershipProof D × Bool)) :=
  if A.aocl.numLeafs ≤ mp.aoclLeafIndex then none
  else
    let (authPathAocl, aoclMpUpdated) := MmrOps.updateFromAppend mp.authPathAocl mp.aoclLeafIndex
      A.aocl.numLeafs r.canonicalCommitment A.aocl.peaks
    let mp := { mp with authPathAocl := authPathAocl }
    if !windowSlides A.aocl.numLeafs then some (.ok (mp, aoclMpUpdated))
    else do
      let newChunk ← slidingChunk A
      let result := (mp.computeIndices ownItem).chunkIndices.foldlM
        (updateChunkFromAddition A newChunk) (mp.targetChunks, false)
      some (result.map fun s => ({ mp with targetChunks := s.1 }, s.2 || aoclMpUpdated))

/-- Second half of `batch_update_from_addition`, for a window that slides: the dictionaries get
the new chunk and new paths, as those of removal records with the same indices would.  Returns
the dictionaries, and the positions of the proofs with a changed path or a new entry. -/
def slideDictionaries (records : List (RemovalRecord D)) (A : MutatorSetAccumulator D)
    (newChunk : MmrMembershipProof D × Chunk) : Option (List (ChunkDictionary D) × List ℕ) := do
  let currentBatchIndex := A.aocl.numLeafs / batchSize - 1
  let withNewEntry := (records.zipIdx.filter fun x =>
    x.1.absoluteIndices.chunkIndices.contains currentBatchIndex).map (·.2)
  let records := records.map fun rr => rr.insertSlidChunk currentBatchIndex newChunk
  let selected := records.zipIdx.flatMap fun x =>
    (x.1.targetChunks.dictionary.filter fun e =>
      x.1.selectedForAppend currentBatchIndex e.1).map fun e => (e, x.2)
  let changed := (MmrOps.batchUpdateFromAppend (selected.map (·.1.2.1)) (selected.map (·.1.1))
    A.swbfInactive.numLeafs newChunk.2.hash A.swbfInactive.peaks).2
  let withChangedPath ← changed.mapM fun j => selected[j]?.map (·.2)
  some ((RemovalRecord.updatePathsFromAppend records A currentBatchIndex newChunk.2.hash).map
    (·.targetChunks), withChangedPath ++ withNewEntry)

/-- `MsMembershipProof::batch_update_from_addition`: the new proofs, and the positions of those
that changed. -/
def batchUpdateFromAddition (mps : List (MsMembershipProof D)) (ownItems : List D)
    (A : MutatorSetAccumulator D) (r : AdditionRecord D) :
    Option (List (MsMembershipProof D) × List ℕ) :=
  if ¬ ∀ mp ∈ mps, mp.aoclLeafIndex < A.aocl.numLeafs then none
  else if mps.length ≠ ownItems.length then none
  else
    let (paths, changed) := MmrOps.batchUpdateFromAppend (mps.map (·.authPathAocl))
      (mps.map (·.aoclLeafIndex)) A.aocl.numLeafs r.canonicalCommitment A.aocl.peaks
    let mps := mps.zipWith (fun mp path => { mp with authPathAocl := path }) paths
    if !windowSlides A.aocl.numLeafs then some (mps, changed)
    else do
      let newChunk ← slidingChunk A
      let (dictionaries, slid) ← slideDictionaries
        (mps.zipWith (fun mp item => ⟨mp.computeIndices item, mp.targetChunks⟩) ownItems)
        A newChunk
      some (mps.zipWith (fun mp d => { mp with targetChunks := d }) dictionaries,
        ascending (changed ++ slid))

end MsMembershipProof

/-! ## Authenticated items -/

structure AuthenticatedItem (D : Type) where
  item : D
  msMembershipProof : MsMembershipProof D
  deriving DecidableEq, Repr

namespace AuthenticatedItem

def batchUpdateFromAddition (items : List (AuthenticatedItem D)) (A : MutatorSetAccumulator D)
    (r : AdditionRecord D) : Option (List (AuthenticatedItem D)) := do
  let (mps, _) ← MsMembershipProof.batchUpdateFromAddition (items.map (·.msMembershipProof))
    (items.map (·.item)) A r
  some (items.zipWith (fun i mp => { i with msMembershipProof := mp }) mps)

def batchUpdateFromRemove (items : List (AuthenticatedItem D)) (rr : RemovalRecord D) :
    Option (List (AuthenticatedItem D)) := do
  let (mps, _) ← MsMembershipProof.batchUpdateFromRemove (items.map (·.msMembershipProof)) rr
  some (items.zipWith (fun i mp => { i with msMembershipProof := mp }) mps)

end AuthenticatedItem

end NyksNode
