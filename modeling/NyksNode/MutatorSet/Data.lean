import NyksNode.Crypto.Mmr
import NyksNode.Lib.Sorted

/-!
# Data types of the mutator set

A mutator set is a list of commitments (the AOCL) together with a sliding-window
Bloom filter (the SWBF) that records which of them have been removed.  The filter is
a multiset of indices: the part below the window is cut into chunks whose digests are
the leafs of a mountain range, the rest is the active window.

The words of the source are natural numbers here; a function that narrows,
saturates or asserts says so.  A panic is `none`.  A `Vec` that the source
keeps sorted by pushing and calling `sort` is a list that is sorted with
`List.insertionSort`.
-/

namespace NyksNode

/-! ## Parameters -/

def windowSize : ℕ := 2 ^ 20

def chunkSize : ℕ := 2 ^ 12

def batchSize : ℕ := 2 ^ 3

def numTrials : ℕ := 45

theorem length_zeros : (List.replicate numTrials 0).length = numTrials := List.length_replicate

def u128Max : ℕ := 2 ^ 128 - 1

def u32Bound : ℕ := 2 ^ 32

theorem chunkSize_pos : 0 < chunkSize := by decide

/-- `aocl_to_swbfi_leaf_counts`: the number of inactive chunks next to a number of commitments. -/
def aoclToSwbfiLeafCounts (aoclLeafCount : ℕ) : ℕ := (aoclLeafCount - 1) / batchSize

def windowSlides (addedIndex : ℕ) : Bool := addedIndex != 0 && addedIndex % batchSize == 0

inductive MutatorSetError where
  | requestedAoclAuthPathOutOfBounds (requested numLeafs : ℕ)
  | requestedSwbfAuthPathOutOfBounds (requested numLeafs : ℕ)
  | mutatorSetIsEmpty
  | absoluteRemovalIndexIsFutureIndex (currentMaxChunkIndex sawChunkIndex : ℕ)
  | absoluteIndexExceedsTheoreticalBound
  | requestedAoclAuthPathNotContainedInResponse (requestAoclLeafIndex : ℕ)
  deriving DecidableEq, Repr

/-! ## Chunks -/

/-- Relative indices, kept in ascending order and with repetitions. -/
@[ext]
structure Chunk where
  relativeIndices : List ℕ
  deriving DecidableEq, Repr

namespace Chunk

def emptyChunk : Chunk := ⟨[]⟩

instance : Inhabited Chunk := ⟨emptyChunk⟩

def fromIndices (relativeIndices : List ℕ) : Chunk := ⟨relativeIndices⟩

/-- Push and sort; asserts that the index lies in the chunk. -/
def insert (c : Chunk) (index : ℕ) : Option Chunk :=
  if index < chunkSize then some ⟨(c.relativeIndices ++ [index]).insertionSort (· ≤ ·)⟩ else none

/-- Drop the last occurrence, if there is one; asserts that the index lies in the chunk. -/
def removeOnce (c : Chunk) (index : ℕ) : Option Chunk :=
  if index < chunkSize then some ⟨(c.relativeIndices.reverse.erase index).reverse⟩ else none

/-- Asserts that the index lies in the chunk. -/
def contains (c : Chunk) (index : ℕ) : Option Bool :=
  if index < chunkSize then some (c.relativeIndices.contains index) else none

def combine (c other : Chunk) : Chunk :=
  ⟨(c.relativeIndices ++ other.relativeIndices).insertionSort (· ≤ ·)⟩

/-- Drop the first occurrence of every index of `other`; panics on an absent one. -/
def subtract (c other : Chunk) : Option Chunk :=
  other.relativeIndices.foldlM
    (fun c i => if i ∈ c.relativeIndices then some ⟨c.relativeIndices.erase i⟩ else none) c

/-- The loop `for index in indices { chunk.insert(index) }`. -/
def insertAll (c : Chunk) (indices : List ℕ) : Option Chunk := indices.foldlM insert c

def hash {D : Type} [Tip5 D] (c : Chunk) : D := Tip5.hashChunk c.relativeIndices

end Chunk

/-! ## The active window -/

/-- Locations relative to the start of the window, in ascending order and with repetitions. -/
@[ext]
structure ActiveWindow where
  sbf : List ℕ
  deriving DecidableEq, Repr

namespace ActiveWindow

def new : ActiveWindow := ⟨[]⟩

/-- The locations in `lower .. upper`, relative to `lower`. -/
def slice (w : ActiveWindow) (lower upper : ℕ) : List ℕ :=
  (w.sbf.filter fun l => decide (lower ≤ l ∧ l < upper)).map (· - lower)

def slidChunk (w : ActiveWindow) : Chunk := .fromIndices (w.slice 0 chunkSize)

def zerofy (w : ActiveWindow) (lower upper : ℕ) : ActiveWindow :=
  ⟨w.sbf.filter fun l => decide (¬ (lower ≤ l ∧ l < upper))⟩

/-- Drop the first chunk and move every other location down by a chunk. -/
def slideWindow (w : ActiveWindow) : ActiveWindow :=
  ⟨(w.zerofy 0 chunkSize).sbf.map (· - chunkSize)⟩

def hasset (w : ActiveWindow) (lower upper : ℕ) : Bool :=
  w.sbf.any fun l => decide (lower ≤ l ∧ l < upper)

/-- Undo a slide; asserts that the last chunk of the window is empty. -/
def slideWindowBack (w : ActiveWindow) (chunk : Chunk) : Option ActiveWindow :=
  if w.hasset (windowSize - chunkSize) windowSize then none
  else some ⟨(w.sbf.map (· + chunkSize) ++ chunk.relativeIndices).insertionSort (· ≤ ·)⟩

/-- Push and sort; asserts that the index lies in the window. -/
def insert (w : ActiveWindow) (index : ℕ) : Option ActiveWindow :=
  if index < windowSize then some ⟨(w.sbf ++ [index]).insertionSort (· ≤ ·)⟩ else none

/-- Drop the last occurrence; asserts that the index lies in the window and is set. -/
def remove (w : ActiveWindow) (index : ℕ) : Option ActiveWindow :=
  if index < windowSize ∧ index ∈ w.sbf then some ⟨(w.sbf.reverse.erase index).reverse⟩ else none

/-- Asserts that the index lies in the window. -/
def contains (w : ActiveWindow) (index : ℕ) : Option Bool :=
  if index < windowSize then some (w.sbf.contains index) else none

def hash {D : Type} [Tip5 D] (w : ActiveWindow) : D := Tip5.hashActiveWindow w.sbf

end ActiveWindow

/-! ## Chunk dictionaries -/

abbrev ChunkEntry (D : Type) := ℕ × MmrMembershipProof D × Chunk

/-- A list of entries.  Every function below reads the first entry of a key. -/
@[ext]
structure ChunkDictionary (D : Type) where
  dictionary : List (ChunkEntry D)
  deriving DecidableEq, Repr

namespace ChunkDictionary
variable {D : Type}

def empty : ChunkDictionary D := ⟨[]⟩

/-- Sort the entries by key; the sort is stable. -/
def new (dictionary : List (ChunkEntry D)) : ChunkDictionary D :=
  ⟨dictionary.insertionSort (fun a b => a.1 ≤ b.1)⟩

def allChunkIndices (d : ChunkDictionary D) : List ℕ := d.dictionary.map (·.1)

def authenticationPaths (d : ChunkDictionary D) : List (MmrMembershipProof D) :=
  d.dictionary.map (·.2.1)

def indicesAndLeafs [Tip5 D] (d : ChunkDictionary D) : List (ℕ × D) :=
  d.dictionary.map fun e => (e.1, e.2.2.hash)

/-- `chunk_indices_and_membership_proofs_and_leafs`, as the batch of mutations its callers turn
it into. -/
def leafMutations [Tip5 D] (d : ChunkDictionary D) : List (LeafMutation D) :=
  d.dictionary.map fun e => ⟨e.1, e.2.2.hash, e.2.1⟩

def get (d : ChunkDictionary D) (key : ℕ) : Option (MmrMembershipProof D × Chunk) :=
  (d.dictionary.find? fun e => e.1 == key).map (·.2)

def containsKey (d : ChunkDictionary D) (key : ℕ) : Bool := d.dictionary.any fun e => e.1 == key

/-- Change the value of the first entry of a key: what a caller does through `get_mut`. -/
def modify (d : ChunkDictionary D) (key : ℕ)
    (f : MmrMembershipProof D × Chunk → MmrMembershipProof D × Chunk) : ChunkDictionary D :=
  ⟨d.dictionary.modify (d.dictionary.findIdx fun e => e.1 == key) fun e => (e.1, f e.2)⟩

/-- Replace the value of a key, or put a new entry behind all smaller keys. -/
def insert (d : ChunkDictionary D) (index : ℕ) (value : MmrMembershipProof D × Chunk) :
    ChunkDictionary D :=
  if d.containsKey index then d.modify index fun _ => value
  else ⟨d.dictionary.insertIdx (d.dictionary.countP fun e => decide (e.1 < index)) (index, value)⟩

/-- Write a list of paths through the references `iter_mut` handed out for the entries whose key
satisfies `sel`; what is left of the list belongs to the next dictionary. -/
def writePaths (sel : ℕ → Bool) : List (ChunkEntry D) → List (MmrMembershipProof D) →
      List (ChunkEntry D) × List (MmrMembershipProof D)
  | [], ps => ([], ps)
  | e :: es, ps =>
    if sel e.1 then
      let r := writePaths sel es ps.tail
      ((e.1, ps.headD e.2.1, e.2.2) :: r.1, r.2)
    else
      let r := writePaths sel es ps
      (e :: r.1, r.2)

/-- `writePaths` over a list of dictionaries, each with its own selection. -/
def writeAllPaths : List ((ℕ → Bool) × ChunkDictionary D) → List (MmrMembershipProof D) →
      List (ChunkDictionary D)
  | [], _ => []
  | d :: ds, ps => let r := writePaths d.1 d.2.dictionary ps; ⟨r.1⟩ :: writeAllPaths ds r.2

end ChunkDictionary

/-! ## Index sets -/

/-- The 45 Bloom filter indices of one item: the least of them and the distances from it. -/
@[ext]
structure AbsoluteIndexSet where
  minimum : ℕ
  distances : List ℕ
  length_distances : distances.length = numTrials
  deriving DecidableEq, Repr

/-- `AdditionRecord`: the canonical commitment. -/
@[ext]
structure AdditionRecord (D : Type) where
  canonicalCommitment : D
  deriving DecidableEq, Repr

/-- The narrowed chunk index of an absolute index: `(index / CHUNK_SIZE) as u64`. -/
def chunkIndexOf (index : ℕ) : ℕ := index / chunkSize % u64Bound

/-- `indices_to_hash_map`: the indices by chunk. -/
def indicesToHashMap (allIndices : List ℕ) : List (ℕ × List ℕ) :=
  groupByKey chunkIndexOf allIndices

namespace AbsoluteIndexSet

/-- `to_array`, which saturates. -/
def toArray (s : AbsoluteIndexSet) : List ℕ := s.distances.map fun x => min (x + s.minimum) u128Max

def chunkIndices (s : AbsoluteIndexSet) : List ℕ := (s.toArray.map chunkIndexOf).dedup

variable {D : Type} [Tip5 D]

/-- The sampled indices of an item, relative to the window of its batch. -/
def relativeIndices (item senderRandomness receiverPreimage : D) (aoclLeafIndex : ℕ) : List ℕ :=
  Tip5.sampleIndices item senderRandomness receiverPreimage aoclLeafIndex windowSize numTrials

def compute (item senderRandomness receiverPreimage : D) (aoclLeafIndex : ℕ) : AbsoluteIndexSet :=
  let batchOffset := aoclLeafIndex / batchSize * chunkSize
  let relativeIndices := relativeIndices item senderRandomness receiverPreimage aoclLeafIndex
  let minimum := relativeIndices.min?.getD 0
  { minimum := minimum + batchOffset
    distances := relativeIndices.map (· - minimum)
    length_distances := by
      rw [List.length_map]
      exact Tip5.length_sampleIndices _ _ _ _ _ _ }

def checkedU128 (n : ℕ) : Option ℕ := if n ≤ u128Max then some n else none

def nextMultipleOf (n k : ℕ) : Option ℕ := checkedU128 ((n + k - 1) / k * k)

/-- `aocl_range`: the AOCL leaf indices, both bounds inclusive, that the indices can come from. -/
def aoclRange (s : AbsoluteIndexSet) : Option (Except MutatorSetError (ℕ × ℕ)) :=
  let maxOffset := s.distances.max?.getD 0
  if windowSize ≤ maxOffset then some (.error .absoluteIndexExceedsTheoreticalBound)
  else do
    let maxBfIndex ← checkedU128 (maxOffset + s.minimum)
    let minActiveWindowStart ← nextMultipleOf (maxBfIndex - (windowSize - 1)) chunkSize
    let minBatchIndex := minActiveWindowStart / chunkSize
    -- the conversion to `u64` and the product are both checked, with the same error
    if u64Bound ≤ minBatchIndex * batchSize then
      some (.error .absoluteIndexExceedsTheoreticalBound)
    else
      let windowEnd ← checkedU128 (s.minimum + windowSize + 1)
      let maxActiveWindowEnd ← nextMultipleOf windowEnd chunkSize
      let maxBatchIndex := (maxActiveWindowEnd - chunkSize - windowSize) / chunkSize
      if u64Bound ≤ maxBatchIndex * batchSize + (batchSize - 1) then
        some (.error .absoluteIndexExceedsTheoreticalBound)
      else some (.ok (minBatchIndex * batchSize, maxBatchIndex * batchSize + (batchSize - 1)))

end AbsoluteIndexSet

/-! ## Records, proofs and the accumulator -/

@[ext]
structure RemovalRecord (D : Type) where
  absoluteIndices : AbsoluteIndexSet
  targetChunks : ChunkDictionary D
  deriving DecidableEq, Repr

def RemovalRecord.getChunkidxToIndicesDict {D : Type} (rr : RemovalRecord D) : List (ℕ × List ℕ) :=
  indicesToHashMap rr.absoluteIndices.toArray

@[ext]
structure MsMembershipProof (D : Type) where
  senderRandomness : D
  receiverPreimage : D
  authPathAocl : MmrMembershipProof D
  aoclLeafIndex : ℕ
  targetChunks : ChunkDictionary D
  deriving DecidableEq, Repr

@[ext]
structure MutatorSetAccumulator (D : Type) where
  aocl : MmrAccumulator D
  swbfInactive : MmrAccumulator D
  swbfActive : ActiveWindow
  deriving DecidableEq, Repr

/-- `MutatorSetAccumulator::default()`. -/
def MutatorSetAccumulator.empty {D : Type} : MutatorSetAccumulator D := ⟨.empty, .empty, .new⟩

def commit {D : Type} [Tip5 D] (item senderRandomness receiverDigest : D) : AdditionRecord D :=
  ⟨Tip5.hashPair (Tip5.hashPair item senderRandomness) receiverDigest⟩

def MsMembershipProof.additionRecord {D : Type} [Tip5 D] (mp : MsMembershipProof D) (item : D) :
    AdditionRecord D :=
  commit item mp.senderRandomness (digestHash mp.receiverPreimage)

def MsMembershipProof.computeIndices {D : Type} [Tip5 D] (mp : MsMembershipProof D) (item : D) :
    AbsoluteIndexSet :=
  .compute item mp.senderRandomness mp.receiverPreimage mp.aoclLeafIndex

end NyksNode
