import NyksNode.Crypto.NodeIndexing

/-!
# Archival mountain ranges

An archival mountain range keeps every node, in the order in which nodes come into being, in
a vector whose first element is a dummy.  Vectors are lists; reading or setting an element
that is not there is a panic, `none`.
-/

namespace NyksNode

def storageSet {α : Type} (xs : List α) (index : ℕ) (x : α) : Option (List α) :=
  if index < xs.length then some (xs.set index x) else none

theorem storageSet_of_lt {α : Type} {xs : List α} {index : ℕ} (x : α) (h : index < xs.length) :
    storageSet xs index x = some (xs.set index x) := if_pos h

/-- `pop` of a vector, and `unwrap`. -/
def storagePop {α : Type} (xs : List α) : Option (α × List α) :=
  xs.getLast?.map fun x => (x, xs.dropLast)

@[ext]
structure ArchivalMmr (D : Type) where
  digests : List D
  deriving DecidableEq, Repr

namespace ArchivalMmr
variable {D : Type} [Tip5 D] [MmrNodeIndexing]

/-- `ArchivalMmr::new` over an empty vector, with `fix_dummy_async`. -/
def new : ArchivalMmr D := ⟨[Tip5.zeroDigest]⟩

omit [Tip5 D] [MmrNodeIndexing] in
/-- `is_empty`: only the dummy is there. -/
def isEmpty (m : ArchivalMmr D) : Bool := m.digests.length == 1

omit [Tip5 D] in
def numLeafs (m : ArchivalMmr D) : Option ℕ :=
  MmrNodeIndexing.nodeIndexToLeafIndex m.digests.length

omit [Tip5 D] [MmrNodeIndexing] in
def getMany (m : ArchivalMmr D) (indices : List ℕ) : Option (List D) :=
  indices.mapM (m.digests[·]?)

omit [Tip5 D] in
def peaks (m : ArchivalMmr D) : Option (List D) := do
  let leafCount ← m.numLeafs
  m.getMany (MmrNodeIndexing.getPeakHeightsAndPeakNodeIndices leafCount).2

omit [Tip5 D] in
def toAccumulatorAsync (m : ArchivalMmr D) : Option (MmrAccumulator D) := do
  let peaks ← m.peaks
  let numLeafs ← m.numLeafs
  some ⟨peaks, numLeafs⟩

/-- One round of the loop of `append`. -/
def appendParent (x : List D × ℕ × D × MmrMembershipProof D) (height : ℕ) :
    Option (List D × ℕ × D × MmrMembershipProof D) := do
  let (digests, nodeIndex, accHash, returnedAuthPath) := x
  let leftSiblingHash ← digests[MmrNodeIndexing.leftSibling nodeIndex height]?
  let accHash := Tip5.hashPair leftSiblingHash accHash
  some (digests ++ [accHash], nodeIndex + 1, accHash, returnedAuthPath ++ [leftSiblingHash])

def append (m : ArchivalMmr D) (newLeaf : D) : Option (ArchivalMmr D × MmrMembershipProof D) := do
  let nodeIndex := m.digests.length
  let leafIndex ← MmrNodeIndexing.nodeIndexToLeafIndex nodeIndex
  let rightLineageLength := MmrNodeIndexing.rightLineageLengthFromLeafIndex leafIndex
  let (digests, _, _, returnedAuthPath) ← (List.range rightLineageLength).foldlM appendParent
    (m.digests ++ [newLeaf], nodeIndex, newLeaf, [])
  some (⟨digests⟩, returnedAuthPath)

def hashWithSibling (digests : List D) (nodeIndex : ℕ) (accHash : D) : Option D :=
  let (rightLineageCount, height) := MmrNodeIndexing.rightLineageLengthAndOwnHeight nodeIndex
  if rightLineageCount ≠ 0 then
    digests[MmrNodeIndexing.leftSibling nodeIndex height]?.map fun left =>
      Tip5.hashPair left accHash
  else
    digests[MmrNodeIndexing.rightSibling nodeIndex height]?.map fun right =>
      Tip5.hashPair accHash right

/-- The loop of `mutate_leaf`.  The first argument bounds the number of rounds. -/
def mutateLoop : ℕ → List D → ℕ → ℕ → D → Option (List D)
  | 0, _, _, _, _ => none
  | fuel + 1, digests, nodeIndex, parentIndex, accHash =>
    if parentIndex < digests.length then do
      let accHash ← hashWithSibling digests nodeIndex accHash
      let digests ← storageSet digests parentIndex accHash
      mutateLoop fuel digests parentIndex (MmrNodeIndexing.parent parentIndex) accHash
    else some digests

def mutateLeaf (m : ArchivalMmr D) (leafIndex : ℕ) (newLeaf : D) : Option (ArchivalMmr D) := do
  let nodeIndex := MmrNodeIndexing.leafIndexToNodeIndex leafIndex
  let digests ← storageSet m.digests nodeIndex newLeaf
  let digests ← mutateLoop (digests.length + 1) digests nodeIndex
    (MmrNodeIndexing.parent nodeIndex) newLeaf
  some ⟨digests⟩

omit [Tip5 D] in
def proveMembershipAsync (m : ArchivalMmr D) (leafIndex : ℕ) : Option (MmrMembershipProof D) := do
  let numLeafs ← m.numLeafs
  if numLeafs ≤ leafIndex then none
  else do
    let nodeIndex := MmrNodeIndexing.leafIndexToNodeIndex leafIndex
    let (_, ownIndexIntoPeaksList) ← MmrIndexing.leafIndexToMtIndexAndPeakIndex leafIndex numLeafs
    let peakIndices := (MmrNodeIndexing.getPeakHeightsAndPeakNodeIndices numLeafs).2
    let peakIndex ← peakIndices[ownIndexIntoPeaksList]?
    let siblingIndices ←
      MmrNodeIndexing.getAuthenticationPathNodeIndices nodeIndex peakIndex m.digests.length
    m.getMany siblingIndices

/-- `batch_mutate_leaf_and_update_mps`: the range, the refreshed proofs and the positions of those
that changed. -/
def batchMutateLeafAndUpdateMps [DecidableEq D] (m : ArchivalMmr D)
    (membershipProofs : List (MmrMembershipProof D)) (mutationData : List (ℕ × D)) :
    Option (ArchivalMmr D × List (MmrMembershipProof D) × List ℕ) :=
  -- `all_unique`
  if (mutationData.map (·.1)).Nodup then do
    let m ← mutationData.foldlM (fun m md => m.mutateLeaf md.1 md.2) m
    let newMps ← (membershipProofs.zip mutationData).mapM fun x => m.proveMembershipAsync x.2.1
    let modifiedMps :=
      ((membershipProofs.zip newMps).zipIdx.filter fun x => x.1.1 ≠ x.1.2).map (·.2)
    some (m, newMps ++ membershipProofs.drop newMps.length, modifiedMps)
  else none

omit [Tip5 D] in
def getLeafAsync (m : ArchivalMmr D) (leafIndex : ℕ) : Option D :=
  m.digests[MmrNodeIndexing.leafIndexToNodeIndex leafIndex]?

omit [Tip5 D] in
def tryGetLeaf (m : ArchivalMmr D) (leafIndex : ℕ) : Option (Option D) := do
  let numLeafs ← m.numLeafs
  if numLeafs ≤ leafIndex then some none else (m.getLeafAsync leafIndex).map some

omit [Tip5 D] in
def getLatestLeaf (m : ArchivalMmr D) : Option (Option D) :=
  if m.isEmpty then some none
  else
    let nodeIndex := m.digests.length - 1
    let (_, height) := MmrNodeIndexing.rightLineageLengthAndOwnHeight nodeIndex
    m.digests[nodeIndex - height]?.map some

omit [Tip5 D] in
def removeLastLeafAsync (m : ArchivalMmr D) : Option (Option D × ArchivalMmr D) :=
  if m.isEmpty then some (none, m)
  else do
    let nodeIndex := m.digests.length - 1
    let popped ← storagePop m.digests
    let (_, height) := MmrNodeIndexing.rightLineageLengthAndOwnHeight nodeIndex
    let (ret, digests) ← (List.range height).foldlM (fun x _ => storagePop x.2) popped
    some (some ret, ⟨digests⟩)

/-- The loop of `prune_to_num_leafs`.  The first argument bounds the number of rounds. -/
def pruneLoop : ℕ → List D → ℕ → Option (List D)
  | 0, _, _ => none
  | fuel + 1, digests, indexOfLastRemoval =>
    if indexOfLastRemoval < digests.length then do
      let (_, digests) ← storagePop digests
      pruneLoop fuel digests indexOfLastRemoval
    else some digests

omit [Tip5 D] in
def pruneToNumLeafs (m : ArchivalMmr D) (numLeafs : ℕ) : Option (ArchivalMmr D) := do
  let digests ← pruneLoop (m.digests.length + 1) m.digests
    (MmrNodeIndexing.leafIndexToNodeIndex numLeafs)
  some ⟨digests⟩

end ArchivalMmr

end NyksNode
