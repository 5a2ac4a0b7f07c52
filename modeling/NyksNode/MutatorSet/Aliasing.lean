import NyksNode.Crypto.Symbolic
import NyksNode.MutatorSet.Removal

/-!
# Indices beyond the active window

An absolute index is a 128-bit word, but its chunk index is narrowed to 64 bits.  Two
indices that differ by a multiple of `2 ^ 76` have the same chunk index, so an index far
beyond the active window can pass for one inside of it, or before it.  Validation then
accepts the record, and `can_remove` narrows the distance from the start of the window to
32 bits: it looks at a bit inside the window, or panics.
-/

namespace NyksNode

open List

variable {D : Type}

namespace MutatorSetAccumulator

/-- The first absolute index beyond the active window. -/
def activeWindowEnd (A : MutatorSetAccumulator D) : ℕ := A.activeWindowStart + windowSize

/-- The bit that `can_remove` looks at for an absolute index is set. -/
def CountsAsSet (A : MutatorSetAccumulator D) (rr : RemovalRecord D) (index : ℕ) : Prop :=
  if index < A.activeWindowStart then
    ∃ v, rr.targetChunks.get (chunkIndexOf index) = some v ∧ index % chunkSize ∈ v.2.relativeIndices
  else
    (index - A.activeWindowStart) % u32Bound < windowSize ∧
      (index - A.activeWindowStart) % u32Bound ∈ A.swbfActive.sbf

/-- With a 64-bit number of commitments, the window ends below `2 ^ 76`. -/
theorem activeWindowEnd_lt {A : MutatorSetAccumulator D} (hA : A.aocl.leafCount < u64Bound) :
    A.activeWindowEnd < 2 ^ 76 := by
  have hbatch : A.getBatchIndex ≤ A.aocl.leafCount / batchSize :=
    Nat.div_le_div_right (Nat.sub_le _ _)
  simp only [activeWindowEnd, activeWindowStart, chunkSize, windowSize, batchSize, u64Bound] at *
  omega

theorem isAbsent_eq_some_false_iff {A : MutatorSetAccumulator D} {rr : RemovalRecord D}
    {index : ℕ} : A.isAbsent rr index = some false ↔ A.CountsAsSet rr index := by
  rw [isAbsent, CountsAsSet]
  by_cases hlt : index < A.activeWindowStart
  · have hmod : index % chunkSize < chunkSize := Nat.mod_lt _ chunkSize_pos
    simp only [if_pos hlt]
    cases hget : rr.targetChunks.get (chunkIndexOf index) with
    | none => simp
    | some v => simp [Chunk.contains, hmod]
  · simp only [if_neg hlt]
    by_cases hwindow : (index - A.activeWindowStart) % u32Bound < windowSize
    · simp [ActiveWindow.contains, hwindow]
    · simp [ActiveWindow.contains, hwindow]

end MutatorSetAccumulator

/-- A record with the required chunks has no chunk index beyond the window, and an entry for every
chunk before it. -/
theorem RemovalRecord.chunkIndexOf_of_hasRequired {rr : RemovalRecord D}
    {A : MutatorSetAccumulator D} (h : rr.hasRequiredAuthenticatedChunks A = true) {index : ℕ}
    (hindex : index ∈ rr.absoluteIndices.toArray) :
    chunkIndexOf index ≤ A.activeWindowChunkInterval.2 ∧ (chunkIndexOf index < A.getBatchIndex →
        chunkIndexOf index ∈ rr.targetChunks.allChunkIndices) := by
  have hkeys : chunkIndexOf index ∈ (indicesToHashMap rr.absoluteIndices.toArray).map (·.1) := by
    rw [indicesToHashMap, map_fst_groupByKey, mem_dedup]
    exact mem_map_of_mem hindex
  obtain ⟨g, hg, hkey⟩ := mem_map.mp hkeys
  rw [hasRequiredAuthenticatedChunks, AbsoluteIndexSet.splitByActivity, splitAtWindow] at h
  split at h
  · cases h
  next hsplit =>
    split at hsplit
    · cases hsplit
    next hnone =>
      obtain ⟨rfl, -⟩ := Prod.mk.inj (Except.ok.inj hsplit)
      rw [decide_eq_true_eq] at h
      rw [← hkey]
      constructor
      · by_contra hgt
        have hactive : ¬ g.1 < A.activeWindowChunkInterval.1 := by
          simp only [MutatorSetAccumulator.activeWindowChunkInterval] at hgt ⊢
          have : 0 < windowSize / chunkSize := by decide
          omega
        have := find?_eq_none.mp hnone g (mem_filter.mpr ⟨hg, by simpa using hactive⟩)
        exact this (decide_eq_true (Nat.lt_of_not_le hgt))
      · intro hlt
        rw [← mem_toFinset, ← h, mem_toFinset]
        exact mem_map_of_mem (mem_filter.mpr ⟨hg, decide_eq_true hlt⟩)

namespace MutatorSetAccumulator
variable [Tip5 D] [MmrOps D] {A : MutatorSetAccumulator D} {rr : RemovalRecord D}

/-- Below `2 ^ 76` a validated record has no index beyond the window, and `can_remove` finds what
it looks for. -/
theorem lt_activeWindowEnd_of_validate (hv : rr.validate A = true) {index : ℕ}
    (hindex : index ∈ rr.absoluteIndices.toArray) (hlt : index < 2 ^ 76) :
    index < A.activeWindowEnd ∧ ∃ b, A.isAbsent rr index = some b := by
  obtain ⟨hmax, hkey⟩ :=
    RemovalRecord.chunkIndexOf_of_hasRequired ((Ledger.validate_eq_true_iff rr A).mp hv).1 hindex
  rw [chunkIndexOf_of_lt hlt] at hmax hkey
  have hend : index < A.activeWindowEnd := by
    simp only [activeWindowEnd, activeWindowStart, activeWindowChunkInterval, chunkSize,
      windowSize] at *
    omega
  refine ⟨hend, ?_⟩
  rw [isAbsent]
  by_cases hstart : index < A.activeWindowStart
  · have hchunk : index / chunkSize < A.getBatchIndex :=
      (Nat.div_lt_iff_lt_mul chunkSize_pos).mpr hstart
    have hmod : index % chunkSize < chunkSize := Nat.mod_lt _ chunkSize_pos
    obtain ⟨v, hget⟩ := ChunkDictionary.exists_get (hkey hchunk)
    simp only [if_pos hstart, chunkIndexOf_of_lt hlt, hget, Chunk.contains, if_pos hmod, some_bind]
    exact ⟨_, rfl⟩
  · have hsub : (index - A.activeWindowStart) % u32Bound < windowSize := by
      simp only [activeWindowEnd, windowSize, u32Bound] at hend ⊢
      omega
    simp only [if_neg hstart, ActiveWindow.contains, if_pos hsub, some_bind]
    exact ⟨_, rfl⟩

/-- **Indices beyond the window.**  `can_remove` returns, and rejects every record with an index
beyond the active window, exactly if a record that validates has all indices below `2 ^ 76`, or
all its indices count as set. -/
theorem canRemove_rejects_future_iff (hA : A.aocl.leafCount < u64Bound) :
    (∃ b, A.canRemove rr = some b) ∧
        ((∃ index ∈ rr.absoluteIndices.toArray, A.activeWindowEnd ≤ index) →
          A.canRemove rr = some false) ↔
      (rr.validate A = true → (∀ index ∈ rr.absoluteIndices.toArray, index < 2 ^ 76) ∨
        ∀ index ∈ rr.absoluteIndices.toArray, A.CountsAsSet rr index) := by
  cases hv : rr.validate A with
  | false => simp [canRemove, hv]
  | true =>
    have hcan : A.canRemove rr = rr.absoluteIndices.toArray.anyM (A.isAbsent rr) := by
      simp [canRemove, hv]
    have hset : A.canRemove rr = some false ↔
        ∀ index ∈ rr.absoluteIndices.toArray, A.CountsAsSet rr index := by
      simp [hcan, anyM_eq_some_false_iff, isAbsent_eq_some_false_iff]
    rw [← hset]
    constructor
    · rintro ⟨-, hreject⟩ -
      by_cases hall : ∀ index ∈ rr.absoluteIndices.toArray, index < 2 ^ 76
      · exact Or.inl hall
      · push Not at hall
        obtain ⟨index, hindex, hge⟩ := hall
        exact Or.inr (hreject ⟨index, hindex, (activeWindowEnd_lt hA).le.trans hge⟩)
    · intro hcond
      rcases hcond rfl with hall | hfalse
      · have hreturns : ∀ index ∈ rr.absoluteIndices.toArray,
            A.isAbsent rr index = some ((A.isAbsent rr index).getD false) := by
          intro index hindex
          obtain ⟨b, hb⟩ := (lt_activeWindowEnd_of_validate hv hindex (hall index hindex)).2
          rw [hb, Option.getD_some]
        refine ⟨⟨_, hcan.trans (anyM_eq_some hreturns)⟩, ?_⟩
        rintro ⟨index, hindex, hge⟩
        exact absurd (lt_activeWindowEnd_of_validate hv hindex (hall index hindex)).1
          (Nat.not_lt.mpr hge)
      · exact ⟨⟨false, hfalse⟩, fun _ => hfalse⟩

end MutatorSetAccumulator

/-! ## An alias of the first index -/

/-- A record without chunks, all of whose indices are the same. -/
def repeatedIndex (index : ℕ) : RemovalRecord SymbolicDigest :=
  ⟨⟨index, List.replicate numTrials 0, length_zeros⟩, .empty⟩

/-- Below `2 ^ 76`, an index beyond the window is rejected. -/
theorem canRemove_rejects_future_zero :
    (∃ b, MutatorSetAccumulator.empty.canRemove (repeatedIndex (2 ^ 20)) = some b) ∧
      ((∃ index ∈ (repeatedIndex (2 ^ 20)).absoluteIndices.toArray,
          (MutatorSetAccumulator.empty : MutatorSetAccumulator SymbolicDigest).activeWindowEnd ≤
            index) → MutatorSetAccumulator.empty.canRemove (repeatedIndex (2 ^ 20)) = some false) :=
  (MutatorSetAccumulator.canRemove_rejects_future_iff (by decide)).mpr
    fun _ => Or.inl (by decide +kernel)

/-- The index `2 ^ 76` lies beyond the window of the empty accumulator, and can be removed. -/
theorem canRemove_alias : (∃ index ∈ (repeatedIndex (2 ^ 76)).absoluteIndices.toArray,
        (MutatorSetAccumulator.empty : MutatorSetAccumulator SymbolicDigest).activeWindowEnd ≤
          index) ∧ MutatorSetAccumulator.empty.canRemove (repeatedIndex (2 ^ 76)) = some true := by
  decide +kernel

end NyksNode
