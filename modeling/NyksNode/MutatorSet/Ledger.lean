import NyksNode.Lib.SlidingFilter
import NyksNode.MutatorSet.Dictionary

/-!
# The mutator set as a list and a multiset

What the accumulator stands for is simpler than what it stores: a list of
commitments, and the multiset of Bloom filter indices that removals have set.  A
`Ledger` is that pair, `Ledger.accumulator` is the accumulator that commits to it.
Everything a node holds about the filter — chunks, paths, dictionaries — is a function
of the ledger, so an operation of the source is specified by the ledger it leads to.
-/

namespace NyksNode

open List Option SlidingFilter MmrAccumulator

/-- Commitments in order of addition, and the set Bloom filter indices.  No index lies behind
the active window. -/
@[ext]
structure Ledger (D : Type) where
  commitments : List D
  bits : Multiset ℕ
  length_lt : commitments.length < u64Bound
  bits_lt : ∀ i ∈ bits, i < aoclToSwbfiLeafCounts commitments.length * chunkSize + windowSize

namespace Ledger
variable {D : Type}

def empty : Ledger D := ⟨[], 0, Nat.two_pow_pos 64, by simp⟩

def batchIndex (L : Ledger D) : ℕ := aoclToSwbfiLeafCounts L.commitments.length

theorem batchIndex_empty : (empty : Ledger D).batchIndex = 0 := by
  simp [batchIndex, empty, aoclToSwbfiLeafCounts]

def windowStart (L : Ledger D) : ℕ := L.batchIndex * chunkSize

def chunk (L : Ledger D) (c : ℕ) : Chunk := ⟨SlidingFilter.chunk chunkSize L.bits c⟩

def window (L : Ledger D) : ActiveWindow :=
  ⟨SlidingFilter.window chunkSize L.bits L.batchIndex⟩

theorem batchIndex_lt (L : Ledger D) : L.batchIndex < 2 ^ 61 := by
  have := L.length_lt
  simp only [batchIndex, aoclToSwbfiLeafCounts, batchSize, u64Bound] at *
  omega

theorem windowStart_lt (L : Ledger D) : L.windowStart < 2 ^ 73 := by
  have := L.batchIndex_lt
  simp only [windowStart, chunkSize]
  omega

variable [Tip5 D]

def inactiveLeafs (L : Ledger D) : List D :=
  (List.range L.batchIndex).map fun c => (L.chunk c).hash

@[simp] theorem length_inactiveLeafs (L : Ledger D) : L.inactiveLeafs.length = L.batchIndex := by
  simp [inactiveLeafs]

theorem getElem?_inactiveLeafs (L : Ledger D) (c : ℕ) :
    L.inactiveLeafs[c]? = if c < L.batchIndex then some (L.chunk c).hash else none := by
  split <;> simp_all [inactiveLeafs]

variable [Inhabited D]

def accumulator (L : Ledger D) : MutatorSetAccumulator D :=
  ⟨.ofLeafs L.commitments, .ofLeafs L.inactiveLeafs, L.window⟩

@[simp] theorem aocl_accumulator (L : Ledger D) : L.accumulator.aocl = .ofLeafs L.commitments := rfl

@[simp] theorem swbfInactive_accumulator (L : Ledger D) :
    L.accumulator.swbfInactive = .ofLeafs L.inactiveLeafs := rfl

@[simp] theorem swbfActive_accumulator (L : Ledger D) : L.accumulator.swbfActive = L.window := rfl

@[simp] theorem getBatchIndex_accumulator (L : Ledger D) :
    L.accumulator.getBatchIndex = L.batchIndex := rfl

@[simp] theorem activeWindowStart_accumulator (L : Ledger D) :
    L.accumulator.activeWindowStart = L.windowStart := rfl

@[simp] theorem accumulator_empty : (empty : Ledger D).accumulator = .empty := by
  have hw : (empty : Ledger D).window = ActiveWindow.new := by
    ext1
    exact window_zero _ _
  simp only [accumulator, MutatorSetAccumulator.empty, inactiveLeafs, batchIndex_empty, hw,
    range_zero, map_nil, ofLeafs_nil]
  simp [empty, ofLeafs_nil]

def authenticatedChunk (L : Ledger D) (c : ℕ) : MmrMembershipProof D × Chunk :=
  (membershipProof L.inactiveLeafs c, L.chunk c)

/-- The chunks and paths of a list of chunk indices. -/
def dictionary (L : Ledger D) (keys : List ℕ) : ChunkDictionary D :=
  .ofKeys keys L.authenticatedChunk

/-! ## Adding a commitment -/

omit [Tip5 D] [Inhabited D]

theorem aoclToSwbfiLeafCounts_succ (n : ℕ) : aoclToSwbfiLeafCounts (n + 1) =
      if windowSlides n then aoclToSwbfiLeafCounts n + 1 else aoclToSwbfiLeafCounts n := by
  simp only [aoclToSwbfiLeafCounts, windowSlides, batchSize, Bool.and_eq_true, bne_iff_ne, ne_eq,
    beq_iff_eq]
  split <;> omega

/-- Before a slide, the next batch is the one behind the last inactive chunk. -/
theorem div_batchSize_of_windowSlides {n : ℕ} (hn : windowSlides n = true) :
    n / batchSize - 1 = aoclToSwbfiLeafCounts n := by
  simp only [aoclToSwbfiLeafCounts, windowSlides, batchSize, Bool.and_eq_true, bne_iff_ne, ne_eq,
    beq_iff_eq] at *
  omega

/-- Append a commitment, as long as the leaf count fits a word. -/
def add (L : Ledger D) (d : D) (hlt : L.commitments.length + 1 < u64Bound) : Ledger D where
  commitments := L.commitments ++ [d]
  bits := L.bits
  length_lt := lt_of_eq_of_lt (length_append ..) hlt
  bits_lt := by
    intro i hi
    refine (L.bits_lt i hi).trans_le (Nat.add_le_add_right (Nat.mul_le_mul_right _ ?_) _)
    rw [length_append, length_singleton, aoclToSwbfiLeafCounts_succ]
    split
    · exact Nat.le_succ _
    · exact le_rfl

section
variable (L : Ledger D) (d : D) (hlt : L.commitments.length + 1 < u64Bound)

@[simp] theorem commitments_add : (L.add d hlt).commitments = L.commitments ++ [d] := rfl

@[simp] theorem bits_add : (L.add d hlt).bits = L.bits := rfl

@[simp] theorem chunk_add (c : ℕ) : (L.add d hlt).chunk c = L.chunk c := rfl

theorem batchIndex_add : (L.add d hlt).batchIndex =
      if windowSlides L.commitments.length then L.batchIndex + 1 else L.batchIndex := by
  rw [batchIndex, commitments_add, length_append, length_singleton, aoclToSwbfiLeafCounts_succ]
  rfl

/-- The window after an addition starts at the batch of the new commitment. -/
theorem windowStart_add :
    (L.add d hlt).windowStart = L.commitments.length / batchSize * chunkSize := by
  rw [windowStart, batchIndex, commitments_add, length_append, length_singleton,
    aoclToSwbfiLeafCounts, Nat.add_sub_cancel]

variable {L}

theorem window_add_of_not_slides (hs : windowSlides L.commitments.length = false) :
    (L.add d hlt).window = L.window := by
  simp [window, batchIndex_add, hs]

theorem slideWindow_window (hs : windowSlides L.commitments.length = true) :
    L.window.slideWindow = (L.add d hlt).window := by
  ext1
  simp only [window, batchIndex_add, hs, if_true, bits_add]
  exact slide_window chunkSize_pos

variable (L) in
theorem slidChunk_window : L.window.slidChunk = L.chunk L.batchIndex := by
  ext1
  exact filter_window chunkSize_pos

variable [Tip5 D]

theorem inactiveLeafs_add_of_not_slides (hs : windowSlides L.commitments.length = false) :
    (L.add d hlt).inactiveLeafs = L.inactiveLeafs := by
  simp [inactiveLeafs, batchIndex_add, hs]

theorem inactiveLeafs_add_of_slides (hs : windowSlides L.commitments.length = true) :
    (L.add d hlt).inactiveLeafs = L.inactiveLeafs ++ [(L.chunk L.batchIndex).hash] := by
  simp [inactiveLeafs, batchIndex_add, hs, range_succ]

variable [Inhabited D] [DecidableEq D] [MmrOps D] [LawfulMmr D]

/-- **Addition refines the ledger.**  The accumulator of a ledger becomes that of the longer
ledger; the chunk that becomes inactive is handed out with its index. -/
theorem addHelper_accumulator (r : AdditionRecord D) : L.accumulator.addHelper r =
      some ((L.add r.canonicalCommitment hlt).accumulator,
        if windowSlides L.commitments.length then some (L.batchIndex, L.chunk L.batchIndex)
        else none) := by
  have hb : L.inactiveLeafs.length + 1 < u64Bound := by
    have := L.batchIndex_lt
    rw [length_inactiveLeafs, u64Bound]
    omega
  have ha := LawfulMmr.append_ofLeafs L.commitments r.canonicalCommitment hlt
  cases hs : windowSlides L.commitments.length with
  | false =>
    simp only [MutatorSetAccumulator.addHelper, aocl_accumulator, numLeafs_ofLeafs,
      ha, hs, bind_eq_bind, bind_some, Bool.not_false, if_true, some_inj,
      Prod.mk.injEq, Bool.false_eq_true, if_false, and_true]
    rw [accumulator, accumulator, window_add_of_not_slides _ _ hs,
      inactiveLeafs_add_of_not_slides _ _ hs, commitments_add]
  | true =>
    have hi := LawfulMmr.append_ofLeafs L.inactiveLeafs (L.chunk L.batchIndex).hash hb
    simp only [MutatorSetAccumulator.addHelper, aocl_accumulator, numLeafs_ofLeafs,
      ha, hs, bind_eq_bind, bind_some, Bool.not_true, Bool.false_eq_true, if_false,
      swbfInactive_accumulator, swbfActive_accumulator, slidChunk_window, hi, if_true,
      length_inactiveLeafs, some_inj, Prod.mk.injEq, and_true]
    rw [accumulator, slideWindow_window _ hlt hs, inactiveLeafs_add_of_slides _ _ hs,
      commitments_add]

theorem add_accumulator (r : AdditionRecord D) :
    L.accumulator.add r = some (L.add r.canonicalCommitment hlt).accumulator := by
  rw [MutatorSetAccumulator.add, addHelper_accumulator hlt, map_some]

omit hlt in
/-- An addition succeeds only if the leaf count still fits a word. -/
theorem lt_of_add_accumulator {r : AdditionRecord D} {A : MutatorSetAccumulator D}
    (ha : L.accumulator.add r = some A) : L.commitments.length + 1 < u64Bound := by
  by_contra hge
  have hn := LawfulMmr.append_overflow L.commitments r.canonicalCommitment (not_lt.mp hge)
  simp [MutatorSetAccumulator.add, MutatorSetAccumulator.addHelper, hn] at ha

end

/-! ## Setting indices -/

/-- Set indices, none of them behind the active window. -/
def insertBits (L : Ledger D) (is : Multiset ℕ) (his : ∀ i ∈ is, i < L.windowStart + windowSize) :
    Ledger D where
  commitments := L.commitments
  bits := is + L.bits
  length_lt := L.length_lt
  bits_lt := by
    intro i hi
    rcases Multiset.mem_add.mp hi with hi | hi
    · exact his i hi
    · exact L.bits_lt i hi

section
variable (L : Ledger D) {is : Multiset ℕ} (his : ∀ i ∈ is, i < L.windowStart + windowSize)

@[simp] theorem commitments_insertBits : (L.insertBits is his).commitments = L.commitments := rfl

@[simp] theorem bits_insertBits : (L.insertBits is his).bits = is + L.bits := rfl

@[simp] theorem batchIndex_insertBits : (L.insertBits is his).batchIndex = L.batchIndex := rfl

@[simp] theorem windowStart_insertBits : (L.insertBits is his).windowStart = L.windowStart := rfl

end

end Ledger

end NyksNode
