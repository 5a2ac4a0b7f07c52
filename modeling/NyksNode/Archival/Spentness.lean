import NyksNode.Archival.Inverse

/-!
# Which index sets count as applied

`absolute_index_set_was_applied` answers a caller who passes arbitrary 128-bit indices.  An index is
set if its bit is in a stored chunk, or in the active window.  The lookup subtracts the start of the
active window, and narrows the difference to 32 bits before it compares it with the size of the
window.  So an index `2 ^ 32` beyond a set bit of the window counts as set, though it is a future
index, for which the source promises the answer `false`.
-/

namespace NyksNode

open List Option

namespace ArchivalMutatorSet

section
variable {D : Type} [MmrNodeIndexing] {a : ArchivalMutatorSet D} {batchIndex : ℕ}

omit [MmrNodeIndexing] in
/-- The bit of an index is set, in a stored chunk or in the active window. -/
def isSet (a : ArchivalMutatorSet D) (activeWindowStart index : ℕ) : Bool :=
  if index < activeWindowStart then
    a.chunks[index / chunkSize]?.any fun chunk => chunk.relativeIndices.contains (index % chunkSize)
  else
    decide (index < activeWindowStart + windowSize) &&
      a.swbfActive.sbf.contains (index - activeWindowStart)

omit [MmrNodeIndexing] in
/-- A future index whose distance from the start of the active window is that of a set bit, up to a
multiple of `2 ^ 32`. -/
def isAlias (a : ArchivalMutatorSet D) (activeWindowStart index : ℕ) : Bool :=
  decide (activeWindowStart + windowSize ≤ index) &&
    (decide ((index - activeWindowStart) % u32Bound < windowSize) &&
      a.swbfActive.sbf.contains ((index - activeWindowStart) % u32Bound))

omit [MmrNodeIndexing] in
theorem isSet_eq_false_of_isAlias {start i : ℕ} (hi : a.isAlias start i = true) :
    a.isSet start i = false := by
  simp only [isAlias, Bool.and_eq_true, decide_eq_true_eq] at hi
  have hwindow := hi.1
  simp only [isSet, if_neg (show ¬ i < start by omega), Bool.and_eq_false_iff,
    decide_eq_false_iff_not]
  exact Or.inl (by omega)

/-- The batch index of a set, which is that of a leaf index, and the chunks before the active
window, which are all stored. -/
structure WellFormed (a : ArchivalMutatorSet D) (batchIndex : ℕ) : Prop where
  getBatchIndexAsync_eq : a.getBatchIndexAsync = some batchIndex
  batchIndex_lt : batchIndex < u64Bound
  le_length_chunks : batchIndex ≤ a.chunks.length

theorem Reflects.wellFormed [Tip5 D] [Inhabited D] {L : Ledger D} (h : a.Reflects L) :
    a.WellFormed L.batchIndex where
  getBatchIndexAsync_eq := h.getBatchIndexAsync_eq
  batchIndex_lt := L.batchIndex_lt.trans (by decide)
  le_length_chunks := h.length_chunks.ge

theorem WellFormed.bloomFilterContainsInner_eq (h : a.WellFormed batchIndex) (i : ℕ) :
    a.bloomFilterContainsInner i (batchIndex * chunkSize) =
      some (a.isSet (batchIndex * chunkSize) i || a.isAlias (batchIndex * chunkSize) i) := by
  generalize hstart : batchIndex * chunkSize = start
  by_cases hle : start ≤ i
  · have hset : a.isSet start i = (decide (i < start + windowSize) &&
        a.swbfActive.sbf.contains (i - start)) := if_neg (not_lt.mpr hle)
    rw [bloomFilterContainsInner, if_pos hle, hset, isAlias]
    by_cases hwindow : i < start + windowSize
    · -- in the window nothing is narrowed
      have hmod : (i - start) % u32Bound = i - start := by
        apply Nat.mod_eq_of_lt
        simp only [windowSize, u32Bound] at hwindow ⊢
        omega
      have hlt : i - start < windowSize := by omega
      simp [hmod, if_neg (not_le.mpr hlt), ActiveWindow.contains, hlt, hwindow,
        decide_eq_false (not_le.mpr hwindow)]
    · simp only [decide_eq_false hwindow, decide_eq_true (not_lt.mp hwindow), Bool.false_and,
        Bool.false_or, Bool.true_and]
      by_cases hlt : (i - start) % u32Bound < windowSize
      · simp [if_neg (not_le.mpr hlt), ActiveWindow.contains, hlt]
      · simp [if_pos (not_lt.mp hlt), decide_eq_false hlt]
  · have hlt : i < start := not_le.mp hle
    have hdiv : i / chunkSize < batchIndex := Nat.div_lt_of_lt_mul (by
      rw [Nat.mul_comm]
      exact hstart ▸ hlt)
    have hchunk : chunkIndexOf i = i / chunkSize :=
      Nat.mod_eq_of_lt (hdiv.trans h.batchIndex_lt)
    have hstored := getElem?_eq_getElem (hdiv.trans_le h.le_length_chunks)
    have hbefore : ¬ start + windowSize ≤ i := by omega
    rw [bloomFilterContainsInner, if_neg hle, isSet, if_pos hlt, isAlias, hchunk, hstored]
    simp [Chunk.contains_mod, decide_eq_false hbefore]

/-- An index set counts as applied if each of its indices is set, or an alias. -/
theorem WellFormed.absoluteIndexSetWasApplied_eq (h : a.WellFormed batchIndex)
    (s : AbsoluteIndexSet) : a.absoluteIndexSetWasApplied s = some (s.toArray.all fun i =>
      a.isSet (batchIndex * chunkSize) i || a.isAlias (batchIndex * chunkSize) i) := by
  have hmissing := anyM_eq_some (l := s.toArray) (fun i _ =>
    congrArg (Option.map not) (h.bloomFilterContainsInner_eq i))
  simp only [absoluteIndexSetWasApplied, h.getBatchIndexAsync_eq, bind_eq_bind, bind_some]
  rw [hmissing, bind_some, all_eq_not_any_not]

/-- **Exact answers.**  On a well-formed set the lookup says whether every index is set exactly if
no index is an alias, or some index is neither set nor an alias. -/
theorem wasApplied_iff_exact (h : a.WellFormed batchIndex) (s : AbsoluteIndexSet) :
    a.absoluteIndexSetWasApplied s = some (s.toArray.all (a.isSet (batchIndex * chunkSize))) ↔
      (∀ i ∈ s.toArray, a.isAlias (batchIndex * chunkSize) i = false) ∨
      ∃ i ∈ s.toArray, a.isSet (batchIndex * chunkSize) i = false ∧
        a.isAlias (batchIndex * chunkSize) i = false := by
  rw [h.absoluteIndexSetWasApplied_eq, Option.some_inj, Bool.eq_iff_iff]
  simp only [List.all_eq_true, Bool.or_eq_true]
  constructor
  · intro hexact
    by_cases happlied : ∀ i ∈ s.toArray, a.isSet (batchIndex * chunkSize) i = true ∨
        a.isAlias (batchIndex * chunkSize) i = true
    · -- every index is set, and then none is an alias
      left
      intro i hi
      have hset := hexact.mp happlied i hi
      cases halias : a.isAlias (batchIndex * chunkSize) i with
      | false => rfl
      | true => exact absurd hset (by simp [isSet_eq_false_of_isAlias halias])
    · right
      simpa only [not_forall, not_or, Bool.not_eq_true, exists_prop] using happlied
  · intro hcases
    cases hcases with
    | inl hnone =>
      refine forall₂_congr fun i hi => ?_
      simp [hnone i hi]
    | inr hsome =>
      obtain ⟨i, hi, hunset, hnot⟩ := hsome
      have hleft : ¬ (a.isSet (batchIndex * chunkSize) i = true ∨
          a.isAlias (batchIndex * chunkSize) i = true) := by simp [hunset, hnot]
      exact iff_of_false (fun hall => hleft (hall i hi)) fun hall => hleft (Or.inl (hall i hi))

end

/-- Every set reached by additions and removals of valid records is well-formed. -/
theorem exists_wellFormed {D : Type} [Tip5 D] [Inhabited D] [DecidableEq D] [MmrNodeIndexing]
    [MmrOps D] [LawfulMmr D] [Tip5.CollisionFree D] {calls : List (MutatorSetCall D)}
    {a : ArchivalMutatorSet D} (hrun : calls.foldlM applyValid newEmpty = some a)
    (hcount : (MutatorSetCall.additions calls).length < u64Bound) :
    ∃ batchIndex, a.WellFormed batchIndex := by
  obtain ⟨L, h, -⟩ := Reflects.newEmpty.foldlM_applyValid hrun (by
    simpa only [Ledger.empty, length_nil, Nat.zero_add] using hcount)
  exact ⟨L.batchIndex, h.wellFormed⟩

end ArchivalMutatorSet

open ArchivalMutatorSet

/-! ## Nine coins, of which the last is spent -/

namespace Coins

def spentCalls : List (MutatorSetCall SymbolicDigest) :=
  nineCalls ++ [.remove (record nine [] 8)]

theorem wasApplied_iff_exact_nine : ∃ (_ : MmrNodeIndexing) (a : ArchivalMutatorSet SymbolicDigest),
      spentCalls.foldlM ArchivalMutatorSet.applyValid .newEmpty = some a ∧
      a.absoluteIndexSetWasApplied (record nine [] 8).absoluteIndices = some true := by
  let _ := MmrNodeIndexing.reference
  have hrun : ∃ a, spentCalls.foldlM applyValid .newEmpty = some a ∧
      ∃ b, a.getBatchIndexAsync = some b ∧ ∀ i ∈ (record nine [] 8).absoluteIndices.toArray,
        a.isSet (b * chunkSize) i = true ∧ a.isAlias (b * chunkSize) i = false := by
    decide +kernel
  obtain ⟨a, hrun, b, hb, hset⟩ := hrun
  obtain ⟨b', h⟩ := exists_wellFormed hrun (by decide)
  obtain rfl := some_inj.mp (hb.symm.trans h.getBatchIndexAsync_eq)
  have hexact := (wasApplied_iff_exact h _).mpr (Or.inl fun i hi =>
    (hset i hi).2)
  refine ⟨.reference, a, hrun, hexact.trans (congrArg some ?_)⟩
  exact all_eq_true.mpr fun i hi => (hset i hi).1

/-- The indices of the last coin, each `2 ^ 32` further on. -/
def futureIndices : AbsoluteIndexSet :=
  { (record nine [] 8).absoluteIndices with
    minimum := (record nine [] 8).absoluteIndices.minimum + 2 ^ 32 }

/-- They count as applied, though all of them lie beyond the active window. -/
theorem wasApplied_future : ∃ (_ : MmrNodeIndexing) (a : ArchivalMutatorSet SymbolicDigest) (b : ℕ),
      spentCalls.foldlM ArchivalMutatorSet.applyValid .newEmpty = some a ∧
      a.getBatchIndexAsync = some b ∧ a.absoluteIndexSetWasApplied futureIndices = some true ∧
      ∀ i ∈ futureIndices.toArray, b * chunkSize + windowSize ≤ i ∧
        a.isSet (b * chunkSize) i = false := by
  refine ⟨.reference, ?_⟩
  simp only [exists_and_left]
  decide +kernel

end Coins

end NyksNode
