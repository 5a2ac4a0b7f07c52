import NyksNode.Archival.Restoration
import NyksNode.Archival.Reversal
import NyksNode.MutatorSet.ItemBatch

/-!
# Undoing restores the archival mutator set

A reachable archival mutator set is determined by its ledger, but for the dummy at the start of
its two vectors, and no operation touches that.  So whatever takes the ledger back takes the whole
set back.

`revert_remove` does so for every record but one kind.  `remove` narrows the chunk index of an
index to 64 bits before it asks whether the chunk is inactive, `revert_remove` asks whether the
index itself lies below the active window.  For an index of more than 76 bits that is narrowed to an
inactive chunk, `remove` sets a bit in that chunk, and `revert_remove` takes one out of the window.
-/

namespace NyksNode

open List Option MutatorSetCall ArchivalMmr Ledger

/-! ## Reachable sets -/

section
variable {D : Type} [Tip5 D] [MmrOps D] [DecidableEq D]

def MutatorSetCall.isValid (A : MutatorSetAccumulator D) : MutatorSetCall D → Bool
  | .add _ => true
  | .remove rr => rr.validate A
  | .batchRemove rrs => rrs.all fun rr => rr.validate A

/-- An operation of the archival mutator set whose removal records are valid. -/
def ArchivalMutatorSet.applyValid [MmrNodeIndexing] (a : ArchivalMutatorSet D)
    (call : MutatorSetCall D) : Option (ArchivalMutatorSet D) := do
  let A ← a.accumulator
  if call.isValid A then a.apply call else none

end

namespace ArchivalMutatorSet

section
variable {D : Type} [Tip5 D] [DecidableEq D] [Inhabited D] [MmrNodeIndexing]
variable {a a' : ArchivalMutatorSet D} {L : Ledger D} {rr : RemovalRecord D}

omit [Inhabited D] [MmrNodeIndexing] [Tip5 D] [DecidableEq D] in
theorem allChunkIndices_removeChunk {b : ℕ} {st st' : ActiveWindow × ChunkDictionary D}
    {g : ℕ × List ℕ} (hst : removeChunk b st g = some st') :
    st'.2.allChunkIndices = st.2.allChunkIndices := by
  rw [removeChunk] at hst
  split at hst
  · obtain ⟨w, -, rfl⟩ := map_eq_some_iff.mp hst
    rfl
  · simp only [bind_eq_some] at hst
    obtain ⟨v, -, chunk, -, hst⟩ := hst
    cases hst
    exact ChunkDictionary.allChunkIndices_modify _ _ _

omit [Inhabited D] in
theorem nodup_keys_of_remove (hremove : a.remove rr = some a') :
    rr.targetChunks.allChunkIndices.Nodup := by
  simp only [remove, removeHelper, bind_eq_some] at hremove
  obtain ⟨⟨a₁, chunks⟩, ⟨b, -, ⟨w, d⟩, hfold, x, hmutate, -⟩, -⟩ := hremove
  have hkeys : d.allChunkIndices = rr.targetChunks.allChunkIndices :=
    foldlM_invariant (P := fun st => st.2.allChunkIndices = rr.targetChunks.allChunkIndices)
      (fun st g _ st' hst hstep => (allChunkIndices_removeChunk hstep).trans hst) rfl hfold
  rw [ArchivalMmr.batchMutateLeafAndUpdateMps, Option.ite_none_right_eq_some] at hmutate
  have hnd := hmutate.1
  rw [ChunkDictionary.indicesAndLeafs, List.map_map] at hnd
  rw [← hkeys]
  exact hnd

omit [MmrNodeIndexing] in
theorem batchRemovable_of_batchRemove [MmrNodeIndexing] (h : a.Reflects L)
    {rrs : List (RemovalRecord D)} (hs : ∀ rr ∈ rrs, L.Synced rr)
    (hremove : a.batchRemove rrs = some a') : L.BatchRemovable rrs := by
  simp only [batchRemove, h.getBatchIndexAsync_eq, h.swbfActive,
    Reflects.foldlM_collectChunk (Ledger.entry_of_mem_batch hs), some_bind, bind_eq_some] at hremove
  obtain ⟨⟨w, m⟩, hcollect, combined, hcombined, -⟩ := hremove
  refine ⟨MutatorSetAccumulator.bounds_of_collectDifferences hcollect, fun c hc => ?_⟩
  have hall := isSome_mapM_iff.mp (isSome_iff_exists.mpr ⟨_, hcombined⟩)
    (c, (L.authenticatedChunk c).2) (mem_map_of_mem hc)
  rw [combineDifference, isSome_map] at hall
  exact Ledger.touched_of_lookup hcollect hall

variable [MmrOps D] [LawfulMmr D] [Tip5.CollisionFree D]

/-- **One operation.** -/
theorem Reflects.applyValid (h : a.Reflects L) {call : MutatorSetCall D}
    (hcall : a.applyValid call = some a')
    (hlt : L.commitments.length + (MutatorSetCall.additions [call]).length < u64Bound) :
    ∃ L', a'.Reflects L' ∧ L'.commitments =
      L.commitments ++ (MutatorSetCall.additions [call]).map (·.canonicalCommitment) := by
  rw [ArchivalMutatorSet.applyValid, h.accumulator_eq, some_bind, ite_none_right_eq_some] at hcall
  obtain ⟨hvalid, hcall⟩ := hcall
  cases call with
  | add r =>
    obtain ⟨a₁, ha, hreflects⟩ := h.add r hlt
    obtain rfl := some_inj.mp (hcall.symm.trans ha)
    exact ⟨_, hreflects, rfl⟩
  | remove rr =>
    have hs := (Ledger.validate_accumulator_iff L rr).mp hvalid
    obtain ⟨a₁, ha, hreflects⟩ := h.remove hs (nodup_keys_of_remove hcall)
    obtain rfl := some_inj.mp (hcall.symm.trans ha)
    exact ⟨_, hreflects, (append_nil _).symm⟩
  | batchRemove rrs =>
    have hs : ∀ rr ∈ rrs, L.Synced rr := fun rr hrr =>
      (Ledger.validate_accumulator_iff L rr).mp (all_eq_true.mp hvalid rr hrr)
    obtain ⟨a₁, ha, hreflects⟩ := h.batchRemove hs (batchRemovable_of_batchRemove h hs hcall)
    obtain rfl := some_inj.mp (hcall.symm.trans ha)
    exact ⟨_, hreflects, (append_nil _).symm⟩

/-- **Any sequence of operations.** -/
theorem Reflects.foldlM_applyValid (h : a.Reflects L) {calls : List (MutatorSetCall D)}
    (hrun : calls.foldlM ArchivalMutatorSet.applyValid a = some a')
    (hlt : L.commitments.length + (MutatorSetCall.additions calls).length < u64Bound) :
    ∃ L', a'.Reflects L' ∧ L'.commitments =
      L.commitments ++ (MutatorSetCall.additions calls).map (·.canonicalCommitment) := by
  induction calls generalizing a L with
  | nil =>
    cases hrun
    exact ⟨L, h, (append_nil _).symm⟩
  | cons call calls ih =>
    rw [foldlM_cons_eq_some] at hrun
    obtain ⟨a₁, hcall, hrun⟩ := hrun
    rw [MutatorSetCall.additions_cons, length_append] at hlt
    obtain ⟨L₁, h₁, hc₁⟩ := h.applyValid hcall (by omega)
    obtain ⟨L', h', hc'⟩ := ih h₁ hrun (by
      rw [hc₁, length_append, length_map]
      omega)
    refine ⟨L', h', ?_⟩
    rw [hc', hc₁, additions_cons call calls, map_append, append_assoc]

end

/-! ## The dummies -/

/-- The vectors of both sets start alike. -/
structure SameDummies {D : Type} (a a' : ArchivalMutatorSet D) : Prop where
  aocl : a'.aocl.digests[0]? = a.aocl.digests[0]?
  swbfInactive : a'.swbfInactive.digests[0]? = a.swbfInactive.digests[0]?

section
variable {D : Type} [Tip5 D] [Inhabited D] [MmrNodeIndexing]
variable {a a' a'' : ArchivalMutatorSet D} {L : Ledger D} {rr : RemovalRecord D}
  {r : AdditionRecord D}

omit [Tip5 D] [Inhabited D] [MmrNodeIndexing] in
theorem SameDummies.trans (h : SameDummies a a') (h' : SameDummies a' a'') : SameDummies a a'' :=
  ⟨h'.aocl.trans h.aocl, h'.swbfInactive.trans h.swbfInactive⟩

omit [MmrNodeIndexing] in
/-- **The ledger and the dummies determine the set.** -/
theorem Reflects.ext (h : a.Reflects L) (h' : a'.Reflects L) (hd : SameDummies a a') : a' = a :=
  ArchivalMutatorSet.ext (h'.aocl.ext h.aocl hd.aocl)
    (h'.swbfInactive.ext h.swbfInactive hd.swbfInactive) (h'.swbfActive.trans h.swbfActive.symm)
    (h'.chunks.trans h.chunks.symm)

theorem Reflects.sameDummies_of_add (h : a.Reflects L) (hadd : a.add r = some a') :
    SameDummies a a' := by
  simp only [ArchivalMutatorSet.add, addHelper, bind_eq_bind, bind_eq_some_iff] at hadd
  obtain ⟨⟨a₁, newChunk⟩, ⟨n, -, ⟨aocl, path⟩, happend, hslide⟩, hpush⟩ := hadd
  have haocl := ArchivalMmr.dummy_of_append h.aocl happend
  have hsame : SameDummies a a₁ := by
    split at hslide
    · obtain ⟨rfl, -⟩ := Prod.mk.inj (some_inj.mp hslide)
      exact ⟨haocl, rfl⟩
    · simp only [bind_eq_some_iff] at hslide
      obtain ⟨newChunkIndex, -, ⟨swbfInactive, path'⟩, hinactive, hslide⟩ := hslide
      obtain ⟨rfl, -⟩ := Prod.mk.inj (some_inj.mp hslide)
      exact ⟨haocl, ArchivalMmr.dummy_of_append h.swbfInactive hinactive⟩
  cases newChunk with
  | none =>
    cases hpush
    exact hsame
  | some x =>
    rw [pushChunk, ite_none_right_eq_some, some_inj] at hpush
    rw [← hpush.2]
    exact ⟨hsame.aocl, hsame.swbfInactive⟩

theorem Reflects.sameDummies_of_revertAdd [DecidableEq D] (h : a.Reflects L)
    (hrevert : a.revertAdd r = some a') : SameDummies a a' := by
  simp only [ArchivalMutatorSet.revertAdd, bind_eq_some, ite_none_left_eq_some] at hrevert
  obtain ⟨n, -, -, ⟨d, aocl⟩, hlast, -, hrevert⟩ := hrevert
  have haocl := ArchivalMmr.dummy_of_removeLastLeafAsync h.aocl hlast
  split at hrevert
  · cases hrevert
    exact ⟨haocl, rfl⟩
  · simp only [unslide, bind_eq_some] at hrevert
    obtain ⟨⟨d', swbfInactive⟩, hinactive, ⟨c, chunks⟩, -, w, -, hrevert⟩ := hrevert
    cases hrevert
    exact ⟨haocl, ArchivalMmr.dummy_of_removeLastLeafAsync h.swbfInactive hinactive⟩

omit [Inhabited D] in
theorem sameDummies_of_remove [DecidableEq D] (hremove : a.remove rr = some a') :
    SameDummies a a' := by
  simp only [remove, removeHelper, bind_eq_some] at hremove
  obtain ⟨⟨a₁, newChunks⟩, ⟨b, -, ⟨w, d⟩, -, ⟨m, rest⟩, hmutate, ha₁⟩, chunks, -, ha'⟩ := hremove
  obtain ⟨rfl, -⟩ := Prod.mk.inj (some_inj.mp ha₁)
  cases ha'
  refine ⟨rfl, ?_⟩
  simp only [ArchivalMmr.batchMutateLeafAndUpdateMps, ite_none_right_eq_some,
    bind_eq_some] at hmutate
  obtain ⟨-, m₁, hfold, newMps, -, hm⟩ := hmutate
  obtain ⟨rfl, -⟩ := Prod.mk.inj (some_inj.mp hm)
  exact foldlM_invariant (P := fun m => m.digests[0]? = a.swbfInactive.digests[0]?)
    (fun m md _ m' hm hstep => (dummy_of_mutateLeaf hstep).trans hm) rfl hfold

omit [Inhabited D] in
theorem sameDummies_of_revertIndices {is : List ℕ} (hrevert : a.revertIndices is = some a') :
    SameDummies a a' := by
  simp only [revertIndices, bind_eq_some] at hrevert
  obtain ⟨b, -, ⟨w, differences⟩, -, ⟨swbfInactive, chunks⟩, hfold, ha'⟩ := hrevert
  cases ha'
  refine ⟨rfl, ?_⟩
  refine foldlM_invariant (P := fun x => x.1.digests[0]? = a.swbfInactive.digests[0]?)
    (fun x e _ y hx hstep => ?_) rfl hfold
  simp only [subtractChunk, bind_eq_some] at hstep
  obtain ⟨previous, -, newChunk, -, m, hmutate, chunks', -, hy⟩ := hstep
  cases hy
  exact (ArchivalMmr.dummy_of_mutateLeaf hmutate).trans hx

end

/-! ## Undoing -/

/-- Of two predicates, one of which implies the other, both hold equally often on a list only if
they agree on it. -/
private theorem forall_of_countP_eq {p q : ℕ → Prop} [DecidablePred p] [DecidablePred q]
    {l : List ℕ} (hpq : ∀ x ∈ l, p x → q x) (hcount : l.countP (p ·) = l.countP (q ·)) :
    ∀ x ∈ l, q x → p x := by
  have hfilter : l.filter (p ·) = (l.filter (q ·)).filter (p ·) := by
    rw [List.filter_filter]
    refine filter_congr fun x hx => ?_
    have := hpq x hx
    by_cases hp : p x <;> simp_all
  rw [countP_eq_length_filter, countP_eq_length_filter, hfilter,
    length_filter_eq_length_iff] at hcount
  intro x hx hq
  exact of_decide_eq_true (hcount x (mem_filter.mpr ⟨hx, decide_eq_true hq⟩))

section
variable {D : Type} [Tip5 D] [Inhabited D] [DecidableEq D] [MmrNodeIndexing]
variable {a a' : ArchivalMutatorSet D} {L : Ledger D} {rr : RemovalRecord D}
  {r : AdditionRecord D}

theorem Reflects.revertAdd_add (h : a.Reflects L) (hlt : L.commitments.length + 1 < u64Bound)
    (hadd : a.add r = some a') : a'.revertAdd r = some a := by
  obtain ⟨a₁, ha₁, h₁⟩ := h.add r hlt
  obtain rfl := some_inj.mp (hadd.symm.trans ha₁)
  obtain ⟨-, a₂, hrevert, h₂⟩ := h₁.revertAdd L rfl rfl
  have hsame := (h.sameDummies_of_add hadd).trans (h₁.sameDummies_of_revertAdd hrevert)
  rw [hrevert, h.ext h₂ hsame]

omit [MmrNodeIndexing] in
/-- An index that is active before and after narrowing, or before and after inactive, is taken out
as the narrowed one is. -/
theorem collectReversals_bloomIndex {start i : ℕ} (hstart : start < 2 ^ 76)
    (hi : start ≤ i → start ≤ bloomIndex i) (s : ActiveWindow × List (ℕ × Chunk)) :
    collectReversals start s (bloomIndex i) = collectReversals start s i := by
  by_cases hle : start ≤ i
  · have hmod : (bloomIndex i - start) % u32Bound = (i - start) % u32Bound := by
      have hbloom := hi hle
      rw [bloomIndex_eq_mod] at hbloom ⊢
      simp only [u32Bound]
      omega
    rw [collectReversals, collectReversals, if_pos hle, if_pos (hi hle), hmod]
  · rw [bloomIndex_of_lt (by omega)]

omit [Inhabited D] [DecidableEq D] in
theorem revertIndices_map_bloomIndex {b : ℕ} (hb : a.getBatchIndexAsync = some b)
    (hstart : b * chunkSize < 2 ^ 76) {is : List ℕ}
    (his : ∀ i ∈ is, b * chunkSize ≤ i → b * chunkSize ≤ bloomIndex i) :
    a.revertIndices (is.map bloomIndex) = a.revertIndices is := by
  have hfold : ∀ s, (is.map bloomIndex).foldlM (collectReversals (b * chunkSize)) s =
      is.foldlM (collectReversals (b * chunkSize)) s := by
    induction is with
    | nil =>
      intro s
      rfl
    | cons i is ih =>
      intro s
      rw [forall_mem_cons] at his
      rw [map_cons, foldlM_cons, foldlM_cons, collectReversals_bloomIndex hstart his.1]
      exact bind_congr fun s' => ih his.2 s'
  rw [revertIndices, revertIndices, hb, some_bind, some_bind, hfold]

omit [MmrNodeIndexing] in
/-- Every index from the start of the window on takes one bit out of the window. -/
theorem length_of_foldlM_collectReversals {start : ℕ} {is : List ℕ} :
    ∀ {s s' : ActiveWindow × List (ℕ × Chunk)}, is.foldlM (collectReversals start) s = some s' →
      s'.1.sbf.length + is.countP (start ≤ ·) = s.1.sbf.length := by
  induction is with
  | nil =>
    intro s s' hfold
    cases hfold
    simp
  | cons i is ih =>
    intro s s' hfold
    rw [foldlM_cons_eq_some] at hfold
    obtain ⟨s₁, hstep, hfold⟩ := hfold
    have htail := ih hfold
    rw [collectReversals] at hstep
    split at hstep
    · rename_i hle
      obtain ⟨w, hw, rfl⟩ := map_eq_some_iff.mp hstep
      rw [ActiveWindow.remove, ite_none_right_eq_some, some_inj] at hw
      obtain ⟨⟨-, hmem⟩, rfl⟩ := hw
      have hpos : 0 < s.1.sbf.length := length_pos_of_mem hmem
      rw [length_reverse, length_erase_of_mem (by simpa using hmem), length_reverse] at htail
      rw [countP_cons_of_pos (by simpa using hle)]
      omega
    · rename_i hle
      obtain ⟨m, -, rfl⟩ := map_eq_some_iff.mp hstep
      rw [countP_cons_of_neg (by simpa using hle)]
      exact htail

/-- **Undoing a removal** restores the set exactly if no index that is inactive once it is narrowed
was active before. -/
theorem Reflects.revertRemove_remove_iff (h : a.Reflects L) (hs : L.Synced rr)
    (hremove : a.remove rr = some a') : a'.revertIndices rr.absoluteIndices.toArray = some a ↔
      ∀ i ∈ rr.absoluteIndices.toArray, L.windowStart ≤ i → L.windowStart ≤ bloomIndex i := by
  obtain ⟨a₁, ha₁, h'⟩ := h.remove hs (nodup_keys_of_remove hremove)
  obtain rfl := some_inj.mp (hremove.symm.trans ha₁)
  constructor
  · intro hrevert
    -- count the bits that enter and leave the window
    simp only [ArchivalMutatorSet.revertIndices, h'.getBatchIndexAsync_eq, h'.swbfActive,
      some_bind, bind_eq_some] at hrevert
    obtain ⟨⟨w, differences⟩, hfold, x, -, ha⟩ := hrevert
    have hlength := length_of_foldlM_collectReversals hfold
    have hw : w = L.window := by
      rw [← h.swbfActive, ← some_inj.mp ha]
    have hcount := hlength
    simp only [hw, window, SlidingFilter.length_window, bits_remove,
      batchIndex_remove, Multiset.countP_add, Multiset.coe_countP,
      AbsoluteIndexSet.bloomIndices, countP_map] at hcount
    refine forall_of_countP_eq (fun i _ hi => hi.trans ?_) ?_
    · rw [bloomIndex_eq_mod]
      exact Nat.mod_le _ _
    · simp only [Function.comp_def] at hcount
      rw [Nat.add_comm, Nat.add_right_cancel_iff] at hcount
      exact hcount.symm
  · intro hactive
    obtain ⟨a₂, hrevert, h₂⟩ := h'.revertIndices L rfl (bits_remove hs)
    have hmap := revertIndices_map_bloomIndex h'.getBatchIndexAsync_eq
      (L.windowStart_lt.trans (by norm_num)) hactive
    have hsame := (sameDummies_of_remove hremove).trans (sameDummies_of_revertIndices hrevert)
    rw [← hmap]
    exact hrevert.trans (congrArg some (h.ext h₂ hsame))

end

/-- **Undoing the last operation** restores the set, unless it was the removal of a record with an
index from the start of the active window on that is narrowed to an inactive chunk. -/
theorem revert_iff {D : Type} [Tip5 D] [Inhabited D] [DecidableEq D] [MmrNodeIndexing] [MmrOps D]
    [LawfulMmr D] [Tip5.CollisionFree D] {calls : List (MutatorSetCall D)}
    {a : ArchivalMutatorSet D} (hrun : calls.foldlM applyValid newEmpty = some a)
    (hcount : (MutatorSetCall.additions calls).length + 1 < u64Bound) :
    ∃ A, a.accumulator = some A ∧ (∀ r a', a.add r = some a' → a'.revertAdd r = some a) ∧
      ∀ rr rr' a', rr.validate A = true → a.remove rr = some a' →
        rr'.absoluteIndices = rr.absoluteIndices →
        (a'.revertRemove rr' = some a ↔ ∀ i ∈ rr.absoluteIndices.toArray,
          A.activeWindowStart ≤ i → A.getBatchIndex ≤ chunkIndexOf i) := by
  obtain ⟨L, h, hcommitments⟩ := Reflects.newEmpty.foldlM_applyValid hrun (by
    simp only [Ledger.empty, length_nil]
    omega)
  have hlt : L.commitments.length + 1 < u64Bound := by
    rw [hcommitments]
    simpa [empty] using hcount
  refine ⟨L.accumulator, h.accumulator_eq, fun r a' => h.revertAdd_add hlt, ?_⟩
  intro rr rr' a' hvalid hremove hindices
  have hs := (validate_accumulator_iff L rr).mp hvalid
  rw [revertRemove_eq, hindices, h.revertRemove_remove_iff hs hremove]
  simp only [activeWindowStart_accumulator, getBatchIndex_accumulator,
    ← bloomIndex_div, Nat.le_div_iff_mul_le chunkSize_pos]
  rfl

end ArchivalMutatorSet

/-! ## Nine coins -/

namespace Coins

open SymbolicDigest (atom zero)

def nineCalls : List (MutatorSetCall SymbolicDigest) :=
  (List.range 9).map fun i => .add ⟨commitment i⟩

theorem revert_iff_nine : ∃ (_ : MmrNodeIndexing) (a a₁ a₂ : ArchivalMutatorSet SymbolicDigest),
      nineCalls.foldlM ArchivalMutatorSet.applyValid .newEmpty = some a ∧
      a.add ⟨zero⟩ = some a₁ ∧ a₁.revertAdd ⟨zero⟩ = some a ∧
      a.remove (record nine [0] 0) = some a₂ ∧ a₂.revertRemove (record nine [] 0) = some a := by
  let _ := MmrNodeIndexing.reference
  have hrun : ∃ a, nineCalls.foldlM ArchivalMutatorSet.applyValid .newEmpty = some a ∧
      ∃ A, a.accumulator = some A ∧ (∃ a₁, a.add ⟨zero⟩ = some a₁ ∧ True) ∧
        (∃ a₂, a.remove (record nine [0] 0) = some a₂ ∧ True) ∧
        (record nine [0] 0).validate A = true ∧ ∀ i ∈ (record nine [0] 0).absoluteIndices.toArray,
          A.activeWindowStart ≤ i → A.getBatchIndex ≤ chunkIndexOf i := by
    decide +kernel
  obtain ⟨a, hrun, A, hA, ⟨a₁, hadd, -⟩, ⟨a₂, hremove, -⟩, hvalid, hactive⟩ := hrun
  obtain ⟨A', hA', hrevertAdd, hrevertRemove⟩ := ArchivalMutatorSet.revert_iff hrun (by decide)
  obtain rfl := some_inj.mp (hA.symm.trans hA')
  exact ⟨.reference, a, a₁, a₂, hrun, hadd, hrevertAdd _ _ hadd, hremove,
    (hrevertRemove _ (record nine [] 0) _ hvalid hremove rfl).mpr hactive⟩

/-- A record whose 45 indices are all `2 ^ 76`, which is narrowed to the first bit of the first
chunk. -/
def aliasRecord : RemovalRecord SymbolicDigest :=
  ⟨⟨2 ^ 76, List.replicate numTrials 0, length_zeros⟩, ⟨[(0, [], .emptyChunk)]⟩⟩

/-- The record is valid and is removed, but undoing the removal panics. -/
theorem revertRemove_alias : ∃ (_ : MmrNodeIndexing) (a a' : ArchivalMutatorSet SymbolicDigest)
      (A : MutatorSetAccumulator SymbolicDigest),
      nineCalls.foldlM ArchivalMutatorSet.applyValid .newEmpty = some a ∧
      a.accumulator = some A ∧ aliasRecord.validate A = true ∧
      a.remove aliasRecord = some a' ∧ a'.revertRemove aliasRecord = none := by
  let _ := MmrNodeIndexing.reference
  have hrun : ∃ a, nineCalls.foldlM ArchivalMutatorSet.applyValid .newEmpty = some a ∧
      ∃ A, a.accumulator = some A ∧ ∃ a', a.remove aliasRecord = some a' ∧
        aliasRecord.validate A = true ∧ a'.revertRemove aliasRecord = none := by
    decide +kernel
  obtain ⟨a, hrun, A, hA, a', hremove, hvalid, hpanic⟩ := hrun
  exact ⟨.reference, a, a', A, hrun, hA, hvalid, hremove, hpanic⟩

end Coins

end NyksNode
