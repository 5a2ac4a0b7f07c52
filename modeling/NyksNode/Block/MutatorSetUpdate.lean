import NyksNode.MutatorSet.Order

/-!
# Updates of the mutator set

The effect of a block on the mutator set is a list of addition records and a list of
removal records.  The update makes the additions first, in order, and then the
removals, in order; records and authenticated items that are not part of the update are
kept current along the way.

An update is specified on ledgers: it succeeds exactly if every removal record still
sets a new index when its turn comes, and where it leads does not depend on how
additions and removals interleave.
-/

namespace NyksNode

open List Option Ledger

structure MutatorSetUpdate (D : Type) where
  removals : List (RemovalRecord D)
  additions : List (AdditionRecord D)
  deriving DecidableEq, Repr

namespace MutatorSetUpdate
variable {D : Type} [Tip5 D] [MmrOps D]

/-- The variables of the loops of an update.  The remaining removals are stored back to front. -/
structure Progress (D : Type) where
  accumulator : MutatorSetAccumulator D
  remaining : List (RemovalRecord D)
  removalRecords : List (RemovalRecord D)
  authenticatedItems : List (AuthenticatedItem D)

/-- One round of the loop over the additions. -/
def applyAddition (s : Progress D) (r : AdditionRecord D) : Option (Progress D) := do
  let remaining ← RemovalRecord.batchUpdateFromAddition s.remaining s.accumulator
  let removalRecords ← RemovalRecord.batchUpdateFromAddition s.removalRecords s.accumulator
  let authenticatedItems ←
    AuthenticatedItem.batchUpdateFromAddition s.authenticatedItems s.accumulator r
  let accumulator ← s.accumulator.add r
  some ⟨accumulator, remaining, removalRecords, authenticatedItems⟩

/-- One round of the loop over the removals, which pops `applied`.  A record that cannot be removed
is removed all the same, and reported. -/
def applyRemoval (s : Progress D) (applied : RemovalRecord D) : Option (Progress D × Bool) := do
  let remaining ← RemovalRecord.batchUpdateFromRemove s.remaining.dropLast applied
  let removalRecords ← RemovalRecord.batchUpdateFromRemove s.removalRecords applied
  let authenticatedItems ← AuthenticatedItem.batchUpdateFromRemove s.authenticatedItems applied
  let valid ← s.accumulator.canRemove applied
  let accumulator ← s.accumulator.remove applied
  some (⟨accumulator, remaining, removalRecords, authenticatedItems⟩, valid)

/-- The loop over the removals.  The first argument bounds the number of rounds. -/
def applyRemovals : ℕ → Progress D → Bool → Option (Progress D × Bool)
  | 0, _, _ => none
  | fuel + 1, s, valid =>
    match s.remaining.getLast? with
    | none => some (s, valid)
    | some applied => do
      let (s, v) ← applyRemoval s applied
      applyRemovals fuel s (valid && v)

/-- `apply_to_accumulator_and_records_inner`: the final state, and whether every removal was
valid. -/
def applyToAccumulatorAndRecordsInner (u : MutatorSetUpdate D) (A : MutatorSetAccumulator D)
    (removalRecords : List (RemovalRecord D)) (authenticatedItems : List (AuthenticatedItem D)) :
    Option (Progress D × Bool) := do
  let s ← u.additions.foldlM applyAddition
    ⟨A, u.removals.reverse, removalRecords, authenticatedItems⟩
  applyRemovals (u.removals.length + 1) s true

def cannotRemoveItem : String := "Cannot remove item from mutator set."

def applyToAccumulatorAndRecords (u : MutatorSetUpdate D) (A : MutatorSetAccumulator D)
    (removalRecords : List (RemovalRecord D)) (authenticatedItems : List (AuthenticatedItem D)) :
    Option (Progress D × Except String Unit) := do
  let (s, valid) ← u.applyToAccumulatorAndRecordsInner A removalRecords authenticatedItems
  some (s, if valid then .ok () else .error cannotRemoveItem)

/-- `apply_to_accumulator`: the accumulator that is left behind, and the outcome. -/
def applyToAccumulator (u : MutatorSetUpdate D) (A : MutatorSetAccumulator D) :
    Option (MutatorSetAccumulator D × Except String Unit) := do
  let (s, valid) ← u.applyToAccumulatorAndRecordsInner A [] []
  some (s.accumulator, if valid then .ok () else .error cannotRemoveItem)

/-! ## Nothing extra to keep current -/

section

omit [Tip5 D] [MmrOps D] in
theorem eq_nil_of_changed {js : List ℕ} {ps : List (MmrMembershipProof D)} (hps : ps = [])
    (hjs : ∀ j ∈ js, j < ps.length) : js = [] := by
  subst hps
  exact eq_nil_iff_forall_not_mem.mpr fun j hj => Nat.not_lt_zero j (hjs j hj)

variable [Inhabited D] [DecidableEq D] [LawfulMmr D] [MmrOps.ReportsPositions D]

theorem batchUpdateFromAddition_nil {L : Ledger D} (r : AdditionRecord D)
    (hlt : L.commitments.length + 1 < u64Bound) :
    AuthenticatedItem.batchUpdateFromAddition [] L.accumulator r = some [] := by
  have hchanged := fun n (d : D) peaks =>
    eq_nil_of_changed rfl (MmrOps.ReportsPositions.batchUpdateFromAppend_changed [] [] n d peaks)
  cases hs : windowSlides L.commitments.length with
  | false =>
    simp [AuthenticatedItem.batchUpdateFromAddition, MsMembershipProof.batchUpdateFromAddition, hs]
  | true =>
    simp [AuthenticatedItem.batchUpdateFromAddition, MsMembershipProof.batchUpdateFromAddition, hs,
      slidingChunk_accumulator r.canonicalCommitment hlt hs,
      MsMembershipProof.slideDictionaries, hchanged]

theorem batchUpdateFromRemove_nil (rr : RemovalRecord D) :
    AuthenticatedItem.batchUpdateFromRemove [] rr = some [] := by
  have hlaw := LawfulMmr.batchUpdateFromBatchLeafMutation_ofLeafs ([] : List D) [] [] (by simp)
    (by simp) (by simp [AuthenticMutations])
  obtain ⟨⟨paths, changed⟩, hr, -⟩ := map_eq_some_iff.mp hlaw
  rw [map_nil] at hr
  obtain rfl : changed = [] :=
    eq_nil_of_changed rfl
      (MmrOps.ReportsPositions.batchUpdateFromBatchLeafMutation_changed [] [] [] _ hr)
  simp [AuthenticatedItem.batchUpdateFromRemove, MsMembershipProof.batchUpdateFromRemove,
    updateDictionariesFromRemove, getBatchMutationArgument_nil, hr]

end

/-! ## Updates on ledgers -/

/-- Whether every index set, in order, sets an index that is not set yet. -/
def setsNewIndices : Multiset ℕ → List AbsoluteIndexSet → Bool
  | _, [] => true
  | bits, s :: ss =>
    (s.toArray.any fun i => decide (i ∉ bits)) && setsNewIndices (s.bloomIndices + bits) ss

theorem setsNewIndices_append (bits : Multiset ℕ) (ss ts : List AbsoluteIndexSet) :
    setsNewIndices bits (ss ++ ts) = (setsNewIndices bits ss &&
      setsNewIndices ((ss.flatMap (·.bloomIndices) : List ℕ) + bits) ts) := by
  induction ss generalizing bits with
  | nil => simp [setsNewIndices]
  | cons s ss ih =>
    have hbits : ((ss.flatMap (·.bloomIndices) : List ℕ) : Multiset ℕ) + (s.bloomIndices + bits) =
        ((s :: ss).flatMap (·.bloomIndices) : List ℕ) + bits := by
      rw [flatMap_cons, ← Multiset.coe_add, ← Multiset.add_assoc]
      congr 1
      exact Multiset.add_comm _ _
    rw [cons_append, setsNewIndices, ih, hbits, setsNewIndices, Bool.and_assoc]

/-- The index sets of the remaining removals, in the order in which they are applied. -/
def Progress.indexSets (s : Progress D) : List AbsoluteIndexSet :=
  s.remaining.reverse.map (·.absoluteIndices)

section
variable {s : Progress D}

variable [Inhabited D]

/-- Additions go through and keep a relation between the ledger and the state of the update. -/
def KeptByAddition (I : Ledger D → Progress D → Prop) : Prop :=
  ∀ ⦃L s⦄, I L s → ∀ r (hlt : L.commitments.length + 1 < u64Bound),
    ∃ s', applyAddition s r = some s' ∧ I (L.add r.canonicalCommitment hlt) s' ∧
      s'.indexSets = s.indexSets

/-- Removals go through and keep a relation between the ledger and the state of the update. -/
def KeptByRemoval (I : Ledger D → Progress D → Prop) : Prop :=
  ∀ ⦃L s⦄, I L s → ∀ ⦃before rr⦄, s.remaining = before ++ [rr] →
    ∃ (s' : Progress D) (hrr : L.Synced rr), applyRemoval s rr =
        some (s', rr.absoluteIndices.toArray.any fun i => decide (i ∉ L.bits)) ∧
      I (L.remove rr hrr) s' ∧ s.indexSets = rr.absoluteIndices :: s'.indexSets

variable {L : Ledger D} {rs : List (AdditionRecord D)} {u : MutatorSetUpdate D}
  {I : Ledger D → Progress D → Prop}

omit [Inhabited D] in
theorem KeptByAddition.foldlM_applyAddition (hI : KeptByAddition I) (hs : I L s)
    (hlt : L.commitments.length + rs.length < u64Bound) : ∃ (L' : Ledger D) (s' : Progress D),
      rs.foldlM MutatorSetUpdate.applyAddition s = some s' ∧ I L' s' ∧ s'.indexSets = s.indexSets ∧
      L'.commitments = L.commitments ++ rs.map (·.canonicalCommitment) ∧ L'.bits = L.bits := by
  induction rs generalizing L s with
  | nil => exact ⟨L, s, rfl, hs, rfl, by simp, rfl⟩
  | cons r rs ih =>
    rw [length_cons] at hlt
    obtain ⟨s₁, hstep, hs₁, hsets⟩ := hI hs r (by omega)
    obtain ⟨L', s', hrun, hs', hsets', hc, hb⟩ := ih hs₁ (by
      rw [commitments_add, length_append, length_singleton]
      omega)
    refine ⟨L', s', ?_, hs', hsets'.trans hsets, ?_, hb⟩
    · rw [foldlM_cons_of hstep, hrun]
    · rw [hc, commitments_add, append_assoc, singleton_append, map_cons]

theorem KeptByRemoval.applyRemovals (hI : KeptByRemoval I) (hs : I L s) {fuel : ℕ}
    (hfuel : s.remaining.length < fuel) (valid : Bool) : ∃ (L' : Ledger D) (s' : Progress D),
      applyRemovals fuel s valid = some (s', valid && setsNewIndices L.bits s.indexSets) ∧
      I L' s' ∧ L'.commitments = L.commitments ∧
      L'.bits = (s.indexSets.flatMap (·.bloomIndices) : List ℕ) + L.bits := by
  induction fuel generalizing L s valid with
  | zero => exact absurd hfuel (Nat.not_lt_zero _)
  | succ fuel ih =>
    rw [applyRemovals]
    cases hlast : s.remaining.getLast? with
    | none =>
      have hnil : s.indexSets = [] := by
        rw [Progress.indexSets, getLast?_eq_none_iff.mp hlast]
        rfl
      exact ⟨L, s, by simp [hnil, setsNewIndices], hs, rfl, by simp [hnil]⟩
    | some rr =>
      obtain ⟨before, hrem⟩ := getLast?_eq_some_iff.mp hlast
      obtain ⟨s₁, hrr, hstep, hs₁, hsets⟩ := hI hs hrem
      have hlen : s₁.remaining.length < fuel := by
        have := congrArg length hsets
        simp only [Progress.indexSets, length_map, length_reverse, length_cons] at this
        omega
      obtain ⟨L', s', hrun, hs', hc, hb⟩ := ih hs₁ hlen
        (valid && rr.absoluteIndices.toArray.any fun i => decide (i ∉ L.bits))
      refine ⟨L', s', ?_, hs', hc, ?_⟩
      · simp only [hstep, some_bind, hrun, hsets, setsNewIndices, bits_remove, Bool.and_assoc]
      · rw [hb, hsets, bits_remove, flatMap_cons, ← Multiset.coe_add, ← Multiset.add_assoc]
        congr 1
        exact Multiset.add_comm _ _

/-- **A whole update** keeps what additions and removals keep. -/
theorem exists_applyInner (hI : KeptByAddition I) (hJ : KeptByRemoval I)
    {rrs : List (RemovalRecord D)} {items : List (AuthenticatedItem D)}
    (hs : I L ⟨L.accumulator, u.removals.reverse, rrs, items⟩)
    (hlt : L.commitments.length + u.additions.length < u64Bound) :
    ∃ (L' : Ledger D) (s' : Progress D),
      u.applyToAccumulatorAndRecordsInner L.accumulator rrs items =
        some (s', setsNewIndices L.bits (u.removals.map (·.absoluteIndices))) ∧
      I L' s' ∧ L'.commitments = L.commitments ++ u.additions.map (·.canonicalCommitment) ∧
      L'.bits = (u.removals.flatMap fun rr => rr.absoluteIndices.bloomIndices : List ℕ) +
        L.bits := by
  obtain ⟨L₁, s₁, hadd, hs₁, hsets, hc₁, hb₁⟩ := hI.foldlM_applyAddition hs hlt
  have hsets' : s₁.indexSets = u.removals.map (·.absoluteIndices) := by
    rw [hsets, Progress.indexSets, reverse_reverse]
  have hfuel : s₁.remaining.length < u.removals.length + 1 := by
    have := congrArg length hsets'
    simp only [Progress.indexSets, length_map, length_reverse] at this
    omega
  obtain ⟨L', s', hrun, hs', hc, hb⟩ := hJ.applyRemovals hs₁ hfuel true
  refine ⟨L', s', ?_, hs', hc.trans hc₁, ?_⟩
  · simp [applyToAccumulatorAndRecordsInner, hadd, hrun, hsets', hb₁]
  · rw [hb, hb₁, hsets', flatMap_map]

end

section
variable [Inhabited D] [DecidableEq D] [LawfulMmr D] [MmrOps.ReportsPositions D]

/-- An update in progress on the accumulator of a ledger, with nothing extra to keep current. -/
structure InStep (L : Ledger D) (s : Progress D) : Prop where
  accumulator_eq : s.accumulator = L.accumulator
  synced : ∀ rr ∈ s.remaining, L.Synced rr
  ordinary : ∀ rr ∈ s.remaining, PendingUpdates.Ordinary rr
  removalRecords_eq : s.removalRecords = []
  authenticatedItems_eq : s.authenticatedItems = []

variable {s : Progress D}

variable {L : Ledger D}

theorem InStep.applyAddition (hs : InStep L s) (r : AdditionRecord D)
    (hlt : L.commitments.length + 1 < u64Bound) :
    ∃ s', applyAddition s r = some s' ∧ InStep (L.add r.canonicalCommitment hlt) s' ∧
      s'.indexSets = s.indexSets := by
  obtain ⟨A, remaining, rrs, items⟩ := s
  obtain ⟨rfl, hsynced, hordinary, rfl, rfl⟩ := hs
  refine ⟨⟨_, remaining.map (L.refreshFromAdd r.canonicalCommitment hlt), [], []⟩, ?_,
    ⟨rfl, ?_, ?_, rfl, rfl⟩, ?_⟩
  · simp only [applyAddition, batchUpdateFromAddition_synced r.canonicalCommitment hlt hsynced,
      batchUpdateFromAddition_synced r.canonicalCommitment hlt
        (forall_mem_nil L.Synced), batchUpdateFromAddition_nil r hlt, add_accumulator hlt]
    rfl
  · intro rr hrr
    obtain ⟨rr₀, hrr₀, rfl⟩ := mem_map.mp hrr
    exact (hsynced rr₀ hrr₀).refreshFromAdd r.canonicalCommitment hlt
  · intro rr hrr
    obtain ⟨rr₀, hrr₀, rfl⟩ := mem_map.mp hrr
    exact (hordinary rr₀ hrr₀).refreshFromAdd (hsynced rr₀ hrr₀).supplies r.canonicalCommitment hlt
  · simp [Progress.indexSets, refreshFromAdd, ← map_reverse, Function.comp_def]

variable {rs : List (AdditionRecord D)}

/-- Additions that all succeed leave the leaf count within a word. -/
theorem InStep.lt_of_foldlM {s' : Progress D} (hs : InStep L s)
    (hrun : rs.foldlM MutatorSetUpdate.applyAddition s = some s') :
    L.commitments.length + rs.length < u64Bound := by
  induction rs generalizing L s with
  | nil => exact L.length_lt
  | cons r rs ih =>
    rw [foldlM_cons_eq_some] at hrun
    obtain ⟨s₁, hstep, hrun⟩ := hrun
    have hadd : ∃ A, L.accumulator.add r = some A := by
      simp only [MutatorSetUpdate.applyAddition, bind_eq_some] at hstep
      obtain ⟨_, -, _, -, _, -, A, hA, -⟩ := hstep
      exact ⟨A, hs.accumulator_eq ▸ hA⟩
    have hlt := lt_of_add_accumulator hadd.choose_spec
    obtain ⟨s₂, hstep₂, hs₂, -⟩ := hs.applyAddition r hlt
    obtain rfl : s₁ = s₂ := some_inj.mp (hstep.symm.trans hstep₂)
    have := ih hs₂ hrun
    rw [commitments_add, length_append, length_singleton] at this
    rw [length_cons]
    omega

variable [Tip5.CollisionFree D]

theorem InStep.applyRemoval (hs : InStep L s) {before : List (RemovalRecord D)}
    {rr : RemovalRecord D} (hrem : s.remaining = before ++ [rr]) :
    ∃ (s' : Progress D) (hrr : L.Synced rr), applyRemoval s rr =
        some (s', rr.absoluteIndices.toArray.any fun i => decide (i ∉ L.bits)) ∧
      InStep (L.remove rr hrr) s' ∧ s.indexSets = rr.absoluteIndices :: s'.indexSets := by
  obtain ⟨A, remaining, rrs, items⟩ := s
  obtain ⟨rfl, hsynced, hordinary, rfl, rfl⟩ := hs
  obtain rfl : remaining = before ++ [rr] := hrem
  have hrr : L.Synced rr := hsynced rr (by simp)
  have hord := hordinary rr (by simp)
  have hbefore : ∀ r ∈ before, L.Synced r ∧ PendingUpdates.Ordinary r := fun r hr =>
    ⟨hsynced r (mem_append_left _ hr), hordinary r (mem_append_left _ hr)⟩
  refine ⟨⟨_, before.map (refreshFromRemove hrr), [], []⟩, hrr, ?_, ⟨rfl, ?_, ?_, rfl, rfl⟩, ?_⟩
  · simp only [applyRemoval, dropLast_concat,
      batchUpdateFromRemove_synced hrr (fun r hr => (hbefore r hr).1)
        (fun r hr => (hbefore r hr).2.1), batchUpdateFromRemove_synced hrr (forall_mem_nil L.Synced)
        (forall_mem_nil _),
      batchUpdateFromRemove_nil, canRemove_synced hrr hord.2, MutatorSetAccumulator.remove,
      removeHelper_accumulator hrr (hord.removable hrr)]
    rfl
  · intro r hr
    obtain ⟨r₀, hr₀, rfl⟩ := mem_map.mp hr
    exact hrr.refreshFromRemove (hbefore r₀ hr₀).1
  · intro r hr
    obtain ⟨r₀, hr₀, rfl⟩ := mem_map.mp hr
    exact (hbefore r₀ hr₀).2.refreshFromRemove hrr
  · simp [Progress.indexSets, refreshFromRemove, ← map_reverse, Function.comp_def]

variable {u : MutatorSetUpdate D}

omit [MmrOps D] [DecidableEq D] [LawfulMmr D] [Tip5.CollisionFree D] in
theorem inStep_start (hs : ∀ rr ∈ u.removals, L.Synced rr)
    (hord : ∀ rr ∈ u.removals, PendingUpdates.Ordinary rr) :
    InStep L ⟨L.accumulator, u.removals.reverse, [], []⟩ :=
  ⟨rfl, fun rr hrr => hs rr (mem_reverse.mp hrr),
    fun rr hrr => hord rr (mem_reverse.mp hrr), rfl, rfl⟩

/-- **What an update does** with valid removals. -/
theorem applyToAccumulator_eq (hs : ∀ rr ∈ u.removals, L.Synced rr)
    (hord : ∀ rr ∈ u.removals, PendingUpdates.Ordinary rr)
    (hlt : L.commitments.length + u.additions.length < u64Bound) : ∃ L' : Ledger D,
      u.applyToAccumulator L.accumulator = some (L'.accumulator,
        if setsNewIndices L.bits (u.removals.map (·.absoluteIndices)) then .ok ()
        else .error cannotRemoveItem) ∧
      L'.commitments = L.commitments ++ u.additions.map (·.canonicalCommitment) ∧
      L'.bits = (u.removals.flatMap fun rr => rr.absoluteIndices.bloomIndices : List ℕ) +
        L.bits := by
  obtain ⟨L', s', hrun, hs', hc, hb⟩ := exists_applyInner (fun _ _ => InStep.applyAddition)
    (fun _ _ hs _ _ => InStep.applyRemoval hs) (inStep_start hs hord) hlt
  refine ⟨L', ?_, hc, hb⟩
  simp [applyToAccumulator, hrun, hs'.accumulator_eq]

omit [Tip5.CollisionFree D] in
/-- An update that does not panic leaves the leaf count within a word. -/
theorem lt_of_applyToAccumulator (hs : ∀ rr ∈ u.removals, L.Synced rr)
    (hord : ∀ rr ∈ u.removals, PendingUpdates.Ordinary rr)
    {r : MutatorSetAccumulator D × Except String Unit}
    (hr : u.applyToAccumulator L.accumulator = some r) :
    L.commitments.length + u.additions.length < u64Bound := by
  simp only [applyToAccumulator, applyToAccumulatorAndRecordsInner, bind_eq_some] at hr
  obtain ⟨_, ⟨s, hrun, -⟩, -⟩ := hr
  exact (inStep_start hs hord).lt_of_foldlM hrun

variable {A : MutatorSetAccumulator D}

/-- An update whose removals are in step keeps an accumulator well-formed. -/
theorem wellFormed_of_applyToAccumulator {r : Except String Unit}
    (hs : ∀ rr ∈ u.removals, L.Synced rr) (hord : ∀ rr ∈ u.removals, PendingUpdates.Ordinary rr)
    (hA : u.applyToAccumulator L.accumulator = some (A, r)) : A.WellFormed := by
  obtain ⟨L', hL', -⟩ := applyToAccumulator_eq hs hord (lt_of_applyToAccumulator hs hord hA)
  rw [hA, some_inj, Prod.mk.injEq] at hL'
  exact ⟨L', hL'.1.symm⟩

section
variable {rrs : List (RemovalRecord D)} {rs' : List (AdditionRecord D)}
  (hs : ∀ rr ∈ rrs, L.Synced rr) (hord : ∀ rr ∈ rrs, PendingUpdates.Ordinary rr)
  (hA : applyToAccumulator ⟨rrs, rs⟩ L.accumulator = some (A, .ok ()))
include hs hord hA

/-- More additions do not make an update fail, as long as the leaf count fits its word. -/
theorem exists_applyToAccumulator_append
    (hlt : L.commitments.length + (rs ++ rs').length < u64Bound) :
    ∃ A', applyToAccumulator ⟨rrs, rs ++ rs'⟩ L.accumulator = some (A', .ok ()) := by
  obtain ⟨L₁, h₁, -⟩ := applyToAccumulator_eq (u := ⟨rrs, rs⟩) hs hord
    (lt_of_applyToAccumulator (u := ⟨rrs, rs⟩) hs hord hA)
  rw [hA, some_inj, Prod.mk.injEq] at h₁
  obtain ⟨L₂, h₂, -⟩ := applyToAccumulator_eq (u := ⟨rrs, rs ++ rs'⟩) hs hord hlt
  -- whether the removals succeed does not depend on the additions
  exact ⟨L₂.accumulator, by rw [h₂, ← h₁.2]⟩

/-- **Later additions.**  Additions can be split off an update and made after its removals. -/
theorem applyToAccumulator_append (A' : MutatorSetAccumulator D) :
    applyToAccumulator ⟨rrs, rs ++ rs'⟩ L.accumulator = some (A', .ok ()) ↔
      applyToAccumulator ⟨[], rs'⟩ A = some (A', .ok ()) := by
  have hlt := lt_of_applyToAccumulator (u := ⟨rrs, rs⟩) hs hord hA
  obtain ⟨L₁, h₁, hc₁, hb₁⟩ := applyToAccumulator_eq (u := ⟨rrs, rs⟩) hs hord hlt
  rw [hA, some_inj, Prod.mk.injEq] at h₁
  obtain ⟨rfl, hvalid⟩ := h₁
  have hlen : L₁.commitments.length + rs'.length = L.commitments.length + (rs ++ rs').length := by
    rw [hc₁, length_append, length_append, length_map, Nat.add_assoc]
  have hnil : ∀ rr ∈ ([] : List (RemovalRecord D)), L₁.Synced rr ∧ PendingUpdates.Ordinary rr :=
    forall_mem_nil _
  by_cases hfits : L.commitments.length + (rs ++ rs').length < u64Bound
  · obtain ⟨L₂, h₂, hc₂, hb₂⟩ := applyToAccumulator_eq (u := ⟨rrs, rs ++ rs'⟩) hs hord hfits
    obtain ⟨L₃, h₃, hc₃, hb₃⟩ := applyToAccumulator_eq (u := ⟨[], rs'⟩) (fun rr h => (hnil rr h).1)
      (fun rr h => (hnil rr h).2) (hlen ▸ hfits)
    -- both ways lead to the same commitments and the same bits
    obtain rfl : L₂ = L₃ := by
      ext1
      · rw [hc₂, hc₃, hc₁, map_append, append_assoc]
      · rw [hb₂, hb₃, hb₁, flatMap_nil, Multiset.coe_nil, Multiset.zero_add]
    rw [h₂, h₃, ← hvalid]
    rfl
  · constructor
    · intro h
      exact absurd (lt_of_applyToAccumulator (u := ⟨rrs, rs ++ rs'⟩) hs hord h) hfits
    · intro h
      exact absurd (hlen ▸ lt_of_applyToAccumulator (u := ⟨[], rs'⟩) (fun rr h => (hnil rr h).1)
        (fun rr h => (hnil rr h).2) h) hfits

end

end

end MutatorSetUpdate

end NyksNode
