import NyksNode.Crypto.Indexing
import NyksNode.Lib.AssocMap
import NyksNode.Packing.ChunkCodec

/-!
# Packed lists of removal records

Inside a block, removal records travel packed: the chunks and the authentication data
of all records are gathered, without repetition, in the dictionary of the first
record.  `RemovalRecordList` is the form in between; packing and unpacking go
through it.

Everything is embedded as the source computes it.  A failed assertion, an arithmetic
overflow, and a loop that would not end are `none`; the errors that `try_unpack`
reports are values of `Except`.
-/

namespace NyksNode

structure RemovalRecordList (D : Type) where
  indexSets : List AbsoluteIndexSet
  /-- One structure for each tree of the mountain range, smallest tree first. -/
  authenticationStructures : List (List D)
  /-- In the order of their chunk indices. -/
  chunks : List Chunk
  numLeafsAocl : ℕ
  numLeafsAocl_lt : numLeafsAocl < u64Bound
  deriving DecidableEq, Repr

inductive RemovalRecordListInconsistency where
  | chunks (numChunkIndices numChunks : ℕ)
  | authenticationStructureCount (numAuthenticationStructures totalNumTrees : ℕ)
  | authenticationStructureLength (expected observed : List ℕ)
  deriving DecidableEq, Repr

inductive RemovalRecordListUnpackError where
  | innerDecodingFailure (e : ChunkUnpackError)
  | absoluteIndexTooBig
  | illegalTreeHeight (treeHeight : ℕ)
  | duplicateTreeHeights
  | incorrectlySortedTreeHeights
  | inconsistency (e : RemovalRecordListInconsistency)
  deriving DecidableEq, Repr

/-- `u64::try_from(n).unwrap()`. -/
def toU64 (n : ℕ) : Option ℕ := if n < u64Bound then some n else none

namespace RemovalRecordList

def encodingDelimiterIgnoreTreeHeight : ℕ := u64Bound - 1

def encodingTreeHeightOffset : ℕ := 64

/-- The chunks of the indices below `start`, each once, in ascending order. -/
def chunkIndicesBelow (start : ℕ) (indices : List ℕ) : Option (List ℕ) :=
  ((indices.filter (· < start)).mapM fun i => toU64 (i / chunkSize)).map ascending

/-! ## Estimating the number of leafs -/

/-- Make room for a tree: set its bit, and clear the lower ones, unless it is set already. -/
def setTree (estimate treeHeight : ℕ) : Option ℕ :=
  if treeHeight < 64 then
    let treeWidth := 1 <<< treeHeight
    if estimate &&& treeWidth = 0 then
      some ((estimate ||| treeWidth) &&& (u64Bound - 1 - (treeWidth - 1)))
    else some estimate
  else none

/-- `estimate_num_leafs_aocl`, which asserts that the path lengths descend strictly. -/
def estimateNumLeafsAocl (observedChunkIndices pathLengths : List ℕ) :
    Option { n : ℕ // n < u64Bound } :=
  if ¬ pathLengths.reverse.Pairwise (· ≤ ·) then none
  else if (pathLengths.destutter (· ≠ ·)).length ≠ pathLengths.length then none
  else do
    let swbfiLeafCountEstimate ← pathLengths.foldlM setTree (observedChunkIndices.max?.getD 0)
    if h : swbfiLeafCountEstimate * batchSize + 1 < u64Bound then
      some ⟨swbfiLeafCountEstimate * batchSize + 1, h⟩
    else none

variable {D : Type}

def observedChunkIndices (l : RemovalRecordList D) : Option (List ℕ) :=
  chunkIndicesBelow (aoclToSwbfiLeafCounts l.numLeafsAocl * chunkSize)
    (l.indexSets.flatMap (·.toArray))

/-! ## Gathering records -/

section
variable [Tip5 D] [DecidableEq D] [MmrIndexing]

/-- First loop of `from_removal_records`: remember which leafs of which trees occur, and their
chunks.  Asserts that records agree on chunks, and paths with tree heights. -/
def collectChunk (numLeafsSwbfi : ℕ) (s : List (ℕ × ℕ) × AssocMap ℕ Chunk) (e : ChunkEntry D) :
    Option (List (ℕ × ℕ) × AssocMap ℕ Chunk) :=
  if (s.2.get? e.1).any (· ≠ e.2.2) then none
  else do
    let (_, peakIndex) ← MmrIndexing.leafIndexToMtIndexAndPeakIndex e.1 numLeafsSwbfi
    let treeHeight ← (MmrIndexing.getPeakHeights numLeafsSwbfi)[peakIndex]?
    if treeHeight ≠ e.2.1.length then none
    else some (s.1.insert (treeHeight, e.1), s.2.insert e.1 e.2.2)

/-- Insert a node; asserts that the node does not have another digest. -/
def insertNode (s : AssocMap (ℕ × ℕ) D) (node : ℕ × ℕ) (digest : D) : Option (AssocMap (ℕ × ℕ) D) :=
  if (s.get? node).any (· ≠ digest) then none else some (s.insert node digest)

/-- Insert the nodes that an authentication path leads through, and their siblings. -/
def insertPath (treeHeight : ℕ) : AssocMap (ℕ × ℕ) D → ℕ → D → List D → Option (AssocMap (ℕ × ℕ) D)
  | s, node, running, [] => insertNode s (treeHeight, node) running
  | s, node, running, sibling :: path => do
    let s ← insertNode s (treeHeight, node) running
    let s ← insertNode s (treeHeight, node ^^^ 1) sibling
    let running :=
      if node &&& 1 = 0 then Tip5.hashPair running sibling else Tip5.hashPair sibling running
    insertPath treeHeight s (node >>> 1) running path

/-- Second loop of `from_removal_records`: the nodes of one entry. -/
def insertOpening (numLeafsSwbfi : ℕ) (s : AssocMap (ℕ × ℕ) D) (e : ChunkEntry D) :
    Option (AssocMap (ℕ × ℕ) D) := do
  let (node, _) ← MmrIndexing.leafIndexToMtIndexAndPeakIndex e.1 numLeafsSwbfi
  insertPath e.2.1.length s node e.2.2.hash e.2.1

def extractStructure (leafs : List (ℕ × ℕ)) (sparseMmr : AssocMap (ℕ × ℕ) D) (treeHeight : ℕ) :
    Option (List D) := do
  let leafIndices :=
    (leafs.filter fun x => x.1 = treeHeight).map fun x => x.2 &&& (1 <<< treeHeight - 1)
  let nodes ← MmrIndexing.authenticationStructureNodeIndices (1 <<< treeHeight) leafIndices
  nodes.mapM fun node => sparseMmr.get? (treeHeight, node)

def fromRemovalRecords (removalRecords : List (RemovalRecord D))
    (numLeafsAocl : { n : ℕ // n < u64Bound }) : Option (RemovalRecordList D) := do
  let numLeafsSwbfi := aoclToSwbfiLeafCounts numLeafsAocl
  let entries := removalRecords.flatMap fun rr => rr.targetChunks.dictionary
  let (leafs, chunks) ← entries.foldlM (collectChunk numLeafsSwbfi) ([], .empty)
  let sparseMmr ← entries.foldlM (insertOpening numLeafsSwbfi) .empty
  let authenticationStructures ←
    ((MmrIndexing.getPeakHeights numLeafsSwbfi).insertionSort (· ≤ ·)).mapM
      (extractStructure leafs sparseMmr)
  some
    { indexSets := removalRecords.map (·.absoluteIndices)
      authenticationStructures := authenticationStructures
      chunks := (chunks.entries.insertionSort fun a b => a.1 ≤ b.1).map (·.2)
      numLeafsAocl := numLeafsAocl
      numLeafsAocl_lt := numLeafsAocl.2 }

def convertFromVec (removalRecords : List (RemovalRecord D)) : Option (RemovalRecordList D) := do
  let observedChunkIndices :=
    ascending (removalRecords.flatMap fun rr => rr.targetChunks.allChunkIndices)
  let authenticationPathLengths :=
    (ascending (removalRecords.flatMap fun rr =>
      rr.targetChunks.authenticationPaths.map List.length)).reverse
  let numLeafsAocl ← estimateNumLeafsAocl observedChunkIndices authenticationPathLengths
  fromRemovalRecords removalRecords numLeafsAocl

end

/-! ## Encoding -/

section
variable [MmrIndexing]

/-- Pair trees with packed chunks.  A tree without a chunk has its height moved up by the offset; a
chunk without a tree has the delimiter in its place. -/
def zipTreesWithChunks : List (ℕ × List D) → List Chunk → List (ChunkEntry D)
  | (treeHeight, structure_) :: trees, chunk :: chunks =>
    (treeHeight, structure_, chunk) :: zipTreesWithChunks trees chunks
  | (treeHeight, structure_) :: trees, [] =>
    (treeHeight + encodingTreeHeightOffset, structure_, .emptyChunk) ::
      zipTreesWithChunks trees []
  | [], chunks => chunks.map fun chunk => (encodingDelimiterIgnoreTreeHeight, [], chunk)

def compressedChunkDictionary (l : RemovalRecordList D) : Option (ChunkDictionary D) := do
  let treeHeights :=
    (MmrIndexing.getPeakHeights (aoclToSwbfiLeafCounts l.numLeafsAocl)).reverse
  let chunkIndices ← l.observedChunkIndices
  if chunkIndices.length ≠ l.chunks.length then none
  else if treeHeights.length ≠ l.authenticationStructures.length then none
  else do
    let packedChunks ← l.chunks.mapM Chunk.pack
    some ⟨zipTreesWithChunks (treeHeights.zip l.authenticationStructures) packedChunks⟩

/-- `encode_as_vec`: the first record gets the dictionary. -/
def encodeAsVec (l : RemovalRecordList D) : Option (List (RemovalRecord D)) := do
  let dictionary ← l.compressedChunkDictionary
  some (l.indexSets.zipWith RemovalRecord.mk
    (dictionary :: List.replicate l.indexSets.length .empty))

def pack [Tip5 D] [DecidableEq D] (removalRecords : List (RemovalRecord D)) :
    Option (List (RemovalRecord D)) := do
  let l ← convertFromVec removalRecords
  l.encodeAsVec

end

/-! ## Consistency -/

section
variable [MmrIndexing]

/-- The tree of a chunk, counted from the highest, and the index of its leaf in that tree. -/
def mmrLeaf (numLeafsSwbfi chunkIndex : ℕ) : Option (ℕ × ℕ) := do
  let (merkleLeafIndex, peakIndex) ←
    MmrIndexing.leafIndexToMtIndexAndPeakIndex chunkIndex numLeafsSwbfi
  let height ← (MmrIndexing.getPeakHeights numLeafsSwbfi)[peakIndex]?
  some (peakIndex, merkleLeafIndex &&& ((u64Bound - 1) ^^^ (1 <<< height)))

/-- The leafs of the view that lie in one tree; asserts that the tree is wide enough. -/
def leafsOfTree (mmrView : List (ℕ × ℕ)) (peak : ℕ × ℕ) : Option (List ℕ) :=
  let leafs := (mmrView.filter fun x => x.1 = peak.2).map (·.2)
  if ∀ li ∈ leafs, li < 1 <<< peak.1 then some leafs else none

/-- The length of the authentication structure of one tree. -/
def structureLength (treeHeight : ℕ) (leafs : List ℕ) : Option ℕ :=
  (MmrIndexing.authenticationStructureNodeIndices (1 <<< treeHeight) leafs).map List.length

/-- `validate_consistency`.  The lengths of the structures are compared as sorted lists. -/
def validateConsistency (l : RemovalRecordList D) :
    Option (Except RemovalRecordListInconsistency Unit) := do
  let observedChunkIndices ← l.observedChunkIndices
  if observedChunkIndices.length ≠ l.chunks.length then
    some (.error (.chunks observedChunkIndices.length l.chunks.length))
  else do
    let swbfiNumLeafs := aoclToSwbfiLeafCounts l.numLeafsAocl
    let allPeakHeights := MmrIndexing.getPeakHeights swbfiNumLeafs
    let mmrView ← observedChunkIndices.mapM (mmrLeaf swbfiNumLeafs)
    let merkleLeafIndicesByTree ← allPeakHeights.zipIdx.mapM (leafsOfTree mmrView.dedup)
    let totalNumTrees := allPeakHeights.length
    if totalNumTrees < (mmrView.map (·.1)).dedup.length then none
    else if l.authenticationStructures.length ≠ totalNumTrees then
      some (.error (.authenticationStructureCount l.authenticationStructures.length totalNumTrees))
    else do
      let lengths ← (allPeakHeights.zip merkleLeafIndicesByTree).mapM fun x =>
        structureLength x.1 x.2
      let expected := lengths.insertionSort (· ≤ ·)
      let observed := (l.authenticationStructures.map List.length).insertionSort (· ≤ ·)
      if expected ≠ observed then
        some (.error (.authenticationStructureLength expected observed))
      else some (.ok ())

end

/-! ## Decoding -/

structure Decoding (D : Type) where
  treeHeights : List ℕ
  authenticationStructures : List (List D)
  chunks : List Chunk

def decodeChunk (s : Decoding D) (chunk : Chunk) :
    Option (Except RemovalRecordListUnpackError (Decoding D)) :=
  chunk.tryUnpack.map fun
    | .error e => .error (.innerDecodingFailure e)
    | .ok chunk => .ok { s with chunks := s.chunks ++ [chunk] }

/-- Refuse a tree height that occurs twice. -/
def checkTreeHeights (s : Decoding D) : Except RemovalRecordListUnpackError (Decoding D) :=
  if s.treeHeights.length ≠ s.treeHeights.dedup.length then .error .duplicateTreeHeights
  else .ok s

/-- One entry of the loop of `decode_from_vec`.  Only the first branch compares a height with the
one before. -/
def decodeEntry (s : Decoding D) (e : ChunkEntry D) :
    Option (Except RemovalRecordListUnpackError (Decoding D)) :=
  if e.1 < encodingTreeHeightOffset then
    if s.treeHeights.getLast?.any (e.1 < ·) then some (.error .incorrectlySortedTreeHeights)
    else
      (decodeChunk
        { s with
          treeHeights := s.treeHeights ++ [e.1]
          authenticationStructures := s.authenticationStructures ++ [e.2.1] } e.2.2).map
        (· >>= checkTreeHeights)
  else if e.1 < 2 * encodingTreeHeightOffset then
    some (checkTreeHeights
      { s with
        treeHeights := s.treeHeights ++ [e.1 - encodingTreeHeightOffset]
        authenticationStructures := s.authenticationStructures ++ [e.2.1] })
  else if e.1 = encodingDelimiterIgnoreTreeHeight then
    (decodeChunk s e.2.2).map (· >>= checkTreeHeights)
  else some (.error (.illegalTreeHeight e.1))

/-- The loop of `decode_from_vec` over all entries of all records. -/
def decodeEntries (s : Decoding D) :
    List (ChunkEntry D) → Option (Except RemovalRecordListUnpackError (Decoding D))
  | [] => some (.ok s)
  | e :: es => do
    match ← decodeEntry s e with
    | .error err => some (.error err)
    | .ok s => decodeEntries s es

def observedChunkIndicesFromIndexSets (indexSets : List AbsoluteIndexSet) (number : ℕ) :
    Except RemovalRecordListUnpackError (List ℕ) :=
  let chunkIndices := (indexSets.flatMap (·.toArray)).map (· / chunkSize)
  if ∀ c ∈ chunkIndices, c < u64Bound then .ok ((ascending chunkIndices).take number)
  else .error .absoluteIndexTooBig

def decodeFromVec [MmrIndexing] (removalRecords : List (RemovalRecord D)) :
    Option (Except RemovalRecordListUnpackError (RemovalRecordList D)) := do
  match ← decodeEntries ⟨[], [], []⟩
      (removalRecords.flatMap fun rr => rr.targetChunks.dictionary) with
  | .error e => some (.error e)
  | .ok s =>
    let indexSets := removalRecords.map (·.absoluteIndices)
    match observedChunkIndicesFromIndexSets indexSets s.chunks.length with
    | .error e => some (.error e)
    | .ok observedChunkIndices => do
      let numLeafsAocl ← estimateNumLeafsAocl observedChunkIndices s.treeHeights.reverse
      let l : RemovalRecordList D :=
        ⟨indexSets, s.authenticationStructures, s.chunks, numLeafsAocl, numLeafsAocl.2⟩
      match ← l.validateConsistency with
      | .error e => some (.error (.inconsistency e))
      | .ok () => some (.ok l)

/-! ## Restoring records -/

section
variable [Tip5 D]

def insertChunkHash [MmrIndexing] (numLeafsSwbfi : ℕ) (s : AssocMap (ℕ × ℕ) D) (c : ℕ × Chunk) :
    Option (AssocMap (ℕ × ℕ) D) := do
  let (node, peakIndex) ← MmrIndexing.leafIndexToMtIndexAndPeakIndex c.1 numLeafsSwbfi
  let height ← (MmrIndexing.getPeakHeights numLeafsSwbfi)[peakIndex]?
  some (s.insert (height, node) c.2.hash)

def nodesOfTree (s : AssocMap (ℕ × ℕ) D) (treeHeight : ℕ) : List ℕ :=
  (s.keys.filter fun k => k.1 = treeHeight).map (·.2)

/-- Insert the authentication structure of one tree; asserts that it has the length that the leafs
of the tree call for. -/
def insertStructure [MmrIndexing] (s : AssocMap (ℕ × ℕ) D) (tree : ℕ × List D) :
    Option (AssocMap (ℕ × ℕ) D) := do
  let leafs := (nodesOfTree s tree.1).map fun node => node ^^^ (1 <<< tree.1)
  let nodes ← MmrIndexing.authenticationStructureNodeIndices (1 <<< tree.1) leafs
  if tree.2.length ≠ nodes.length then none
  else some ((nodes.zip tree.2).foldl (fun s x => s.insert (tree.1, x.1) x.2) s)

/-- The digests that `convert_to_vec` asserts not to meet. -/
def isMarked (digest : D) : Bool := (Tip5.toHex digest).toList.take 8 = "be450642".toList

def absentParentNodes (s : AssocMap (ℕ × ℕ) D) (treeHeight : ℕ) : List ℕ :=
  let current := (nodesOfTree s treeHeight).insertionSort (· ≤ ·)
  (((current.zip current.tail).filter fun x => x.1 = x.2 ^^^ 1).map fun x => x.1 >>> 1).filter
    fun parent => parent ∉ current

def insertParent (treeHeight : ℕ) (s : AssocMap (ℕ × ℕ) D) (parent : ℕ) :
    Option (AssocMap (ℕ × ℕ) D) := do
  let leftChild := parent <<< 1
  let rightChild := leftChild ^^^ 1
  let leftDigest ← s.get? (treeHeight, leftChild)
  let rightDigest ← s.get? (treeHeight, rightChild)
  some (s.insert (treeHeight, parent) (Tip5.hashPair leftDigest rightDigest))

/-- Complete families until no parent is absent.  The first argument bounds the number of rounds. -/
def completeFamilies : ℕ → AssocMap (ℕ × ℕ) D → ℕ → Option (AssocMap (ℕ × ℕ) D)
  | 0, _, _ => none
  | fuel + 1, s, treeHeight =>
    let absent := absentParentNodes s treeHeight
    if absent = [] then some s
    else do
      let s ← absent.foldlM (insertParent treeHeight) s
      completeFamilies fuel s treeHeight

/-- Read an authentication path.  The first argument bounds the number of rounds. -/
def readPath : ℕ → AssocMap (ℕ × ℕ) D → ℕ → ℕ → Option (List D)
  | 0, _, _, _ => none
  | fuel + 1, s, treeHeight, node =>
    if node = 1 then some []
    else do
      let digest ← s.get? (treeHeight, node ^^^ 1)
      let path ← readPath fuel s treeHeight (node >>> 1)
      some (digest :: path)

/-- Node indices are 64-bit words, so a walk from child to parent takes at most 64 rounds. -/
def maxRounds : ℕ := 65

def restoreEntry [MmrIndexing] (numLeafsSwbfi : ℕ) (chunks : AssocMap ℕ Chunk)
    (s : AssocMap (ℕ × ℕ) D) (chunkIndex : ℕ) : Option (ChunkEntry D) := do
  let chunk ← chunks.get? chunkIndex
  let (node, peakIndex) ← MmrIndexing.leafIndexToMtIndexAndPeakIndex chunkIndex numLeafsSwbfi
  let treeHeight ← (MmrIndexing.getPeakHeights numLeafsSwbfi)[peakIndex]?
  let path ← readPath maxRounds s treeHeight node
  some (chunkIndex, path, chunk)

def restoreRecord [MmrIndexing] (numLeafsSwbfi activeWindowStart : ℕ) (chunks : AssocMap ℕ Chunk)
    (s : AssocMap (ℕ × ℕ) D) (indexSet : AbsoluteIndexSet) : Option (RemovalRecord D) := do
  let chunkIndices ← chunkIndicesBelow activeWindowStart indexSet.toArray
  let targetChunks ← chunkIndices.mapM (restoreEntry numLeafsSwbfi chunks s)
  some ⟨indexSet, ChunkDictionary.new targetChunks⟩

/-- The absolute index at which `convert_to_vec` lets the active window start. -/
def activeWindowStart (l : RemovalRecordList D) : ℕ := l.numLeafsAocl / batchSize * chunkSize

def convertToVec [MmrIndexing] (l : RemovalRecordList D) : Option (List (RemovalRecord D)) := do
  let numLeafsSwbfi := aoclToSwbfiLeafCounts l.numLeafsAocl
  let allTreeHeights := MmrIndexing.getPeakHeights numLeafsSwbfi
  if allTreeHeights.length ≠ l.authenticationStructures.length then none
  else do
    let allChunkIndices ← chunkIndicesBelow l.activeWindowStart (l.indexSets.flatMap (·.toArray))
    let indexedChunks := (allChunkIndices.take l.chunks.length).zip l.chunks
    let s ← indexedChunks.foldlM (insertChunkHash numLeafsSwbfi) .empty
    let s ← ((allTreeHeights.insertionSort (· ≤ ·)).zip l.authenticationStructures).foldlM
      insertStructure s
    if s.values.any isMarked then none
    else do
      let s ← allTreeHeights.foldlM (completeFamilies maxRounds) s
      l.indexSets.mapM
        (restoreRecord numLeafsSwbfi l.activeWindowStart (.ofList indexedChunks) s)

def tryUnpack [MmrIndexing] (removalRecords : List (RemovalRecord D)) :
    Option (Except RemovalRecordListUnpackError (List (RemovalRecord D))) := do
  match ← decodeFromVec removalRecords with
  | .error e => some (.error e)
  | .ok l => l.convertToVec.map .ok

end

end RemovalRecordList

end NyksNode
