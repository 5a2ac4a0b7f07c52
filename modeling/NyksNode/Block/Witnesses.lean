import NyksNode.Block.Confirmable
import NyksNode.MutatorSet.ItemBatch

/-!
# Witnesses outlive an update

An update keeps the removal records and the authenticated items of others current while
it makes its own additions and removals.  Those that have an index of their own, set
neither before nor by the update, can be used afterwards.
-/

namespace NyksNode

open List Ledger PendingUpdates

variable {D : Type} [Tip5 D]

/-- What an authenticated item is about; the rest of its proof changes with the set. -/
def AuthenticatedItem.coin (it : AuthenticatedItem D) : D × D × D × ℕ :=
  (it.item, it.msMembershipProof.senderRandomness, it.msMembershipProof.receiverPreimage,
    it.msMembershipProof.aoclLeafIndex)

namespace MutatorSetUpdate
variable [MmrOps D] {s s' : Progress D}

def Progress.bare (s : Progress D) : Progress D :=
  { s with removalRecords := [], authenticatedItems := [] }

/-- The witnesses of two states are for the same coins. -/
structure SameWitnesses (s s' : Progress D) : Prop where
  removalRecords : s'.removalRecords.map (·.absoluteIndices) =
    s.removalRecords.map (·.absoluteIndices)
  authenticatedItems : s'.authenticatedItems.map (·.coin) = s.authenticatedItems.map (·.coin)

section
omit [Tip5 D] [MmrOps D]

theorem SameWitnesses.refl (s : Progress D) : SameWitnesses s s := ⟨rfl, rfl⟩

theorem SameWitnesses.trans {s'' : Progress D} (h : SameWitnesses s s')
    (h' : SameWitnesses s' s'') : SameWitnesses s s'' :=
  ⟨h'.removalRecords.trans h.removalRecords, h'.authenticatedItems.trans h.authenticatedItems⟩

end

/-! ## Rounds with and without witnesses -/

section
variable {rrs : List (RemovalRecord D)} {items : List (AuthenticatedItem D)}

theorem applyAddition_of_bare {r : AdditionRecord D} (hbare : applyAddition s.bare r = some s')
    (hrrs : RemovalRecord.batchUpdateFromAddition s.removalRecords s.accumulator = some rrs)
    (hitems : AuthenticatedItem.batchUpdateFromAddition s.authenticatedItems s.accumulator r =
      some items) :
    applyAddition s r = some { s' with removalRecords := rrs, authenticatedItems := items } := by
  simp only [applyAddition, Progress.bare, bind_eq_some, Option.some_inj] at hbare
  obtain ⟨remaining, hremaining, _, -, _, -, A, hA, rfl⟩ := hbare
  simp [applyAddition, hremaining, hrrs, hitems, hA]

theorem applyRemoval_of_bare {applied : RemovalRecord D} {valid : Bool}
    (hbare : applyRemoval s.bare applied = some (s', valid))
    (hrrs : RemovalRecord.batchUpdateFromRemove s.removalRecords applied = some rrs)
    (hitems : AuthenticatedItem.batchUpdateFromRemove s.authenticatedItems applied = some items) :
    applyRemoval s applied =
      some ({ s' with removalRecords := rrs, authenticatedItems := items }, valid) := by
  simp only [applyRemoval, Progress.bare, bind_eq_some, Option.some_inj, Prod.mk.injEq] at hbare
  obtain ⟨remaining, hremaining, _, -, _, -, v, hv, A, hA, rfl, rfl⟩ := hbare
  simp [applyRemoval, hremaining, hrrs, hitems, hv, hA]

end

/-! ## Witnesses in step -/

/-- An update in progress on the accumulator of a ledger, with witnesses in step. -/
structure Carries [Inhabited D] (L : Ledger D) (s : Progress D) : Prop where
  inStep : InStep L s.bare
  records : ∀ rr ∈ s.removalRecords, L.Synced rr ∧ Ordinary rr
  items : ∀ it ∈ s.authenticatedItems, L.Tracks it.item it.msMembershipProof

variable [Inhabited D] [DecidableEq D] [LawfulMmr D] [MmrOps.ReportsPositions D] {L : Ledger D}

/-- Witnesses in step, for the coins of an earlier state. -/
def CarriesFrom (s₀ : Progress D) (L : Ledger D) (s : Progress D) : Prop :=
  Carries L s ∧ SameWitnesses s₀ s

theorem Carries.applyAddition (hs : Carries L s) (r : AdditionRecord D)
    (hlt : L.commitments.length + 1 < u64Bound) :
    ∃ s', MutatorSetUpdate.applyAddition s r = some s' ∧
      Carries (L.add r.canonicalCommitment hlt) s' ∧ s'.indexSets = s.indexSets ∧
      SameWitnesses s s' := by
  obtain ⟨s₁, hbare, hs₁, hsets⟩ := hs.inStep.applyAddition r hlt
  have hacc : s.accumulator = L.accumulator := hs.inStep.accumulator_eq
  have hrrs := batchUpdateFromAddition_synced r.canonicalCommitment hlt
    fun rr hrr => (hs.records rr hrr).1
  have hitems := batchUpdateFromAddition_tracks hs.items r hlt
  rw [← hacc] at hrrs hitems
  refine ⟨_, applyAddition_of_bare hbare hrrs hitems, ⟨?_, ?_, ?_⟩, hsets, ?_, ?_⟩
  · exact ⟨hs₁.accumulator_eq, hs₁.synced, hs₁.ordinary, rfl, rfl⟩
  · intro rr hrr
    obtain ⟨rr₀, hrr₀, rfl⟩ := mem_map.mp hrr
    obtain ⟨hsynced, hord⟩ := hs.records rr₀ hrr₀
    exact ⟨hsynced.refreshFromAdd r.canonicalCommitment hlt,
      hord.refreshFromAdd hsynced.supplies r.canonicalCommitment hlt⟩
  · intro it hit
    obtain ⟨it₀, hit₀, rfl⟩ := mem_map.mp hit
    exact (hs.items it₀ hit₀).proofFromAdd r.canonicalCommitment hlt
  · rw [map_map]
    rfl
  · rw [map_map]
    rfl

theorem CarriesFrom.keptByAddition (s₀ : Progress D) : KeptByAddition (CarriesFrom s₀) := by
  intro L s hs r hlt
  obtain ⟨s', hstep, hs', hsets, hsame⟩ := hs.1.applyAddition r hlt
  exact ⟨s', hstep, ⟨hs', hs.2.trans hsame⟩, hsets⟩

variable [Tip5.CollisionFree D]

theorem Carries.applyRemoval (hs : Carries L s) {before : List (RemovalRecord D)}
    {rr : RemovalRecord D} (hrem : s.remaining = before ++ [rr]) :
    ∃ (s' : Progress D) (hrr : L.Synced rr), MutatorSetUpdate.applyRemoval s rr =
        some (s', rr.absoluteIndices.toArray.any fun i => decide (i ∉ L.bits)) ∧
      Carries (L.remove rr hrr) s' ∧ s.indexSets = rr.absoluteIndices :: s'.indexSets ∧
      SameWitnesses s s' := by
  obtain ⟨s₁, hrr, hbare, hs₁, hsets⟩ := hs.inStep.applyRemoval hrem
  have hrrs := batchUpdateFromRemove_synced hrr (fun r hr => (hs.records r hr).1)
    fun r hr => (hs.records r hr).2.1
  have hitems := batchUpdateFromRemove_tracks hrr hs.items
  refine ⟨_, hrr, applyRemoval_of_bare hbare hrrs hitems, ⟨?_, ?_, ?_⟩, hsets, ?_, ?_⟩
  · exact ⟨hs₁.accumulator_eq, hs₁.synced, hs₁.ordinary, rfl, rfl⟩
  · intro r hr
    obtain ⟨r₀, hr₀, rfl⟩ := mem_map.mp hr
    obtain ⟨hsynced, hord⟩ := hs.records r₀ hr₀
    exact ⟨hrr.refreshFromRemove hsynced, hord.refreshFromRemove hrr⟩
  · intro it hit
    obtain ⟨it₀, hit₀, rfl⟩ := mem_map.mp hit
    exact (hs.items it₀ hit₀).proofFromRemove hrr
  · rw [map_map]
    rfl
  · rw [map_map]
    rfl

theorem CarriesFrom.keptByRemoval (s₀ : Progress D) : KeptByRemoval (CarriesFrom s₀) := by
  intro L s hs before rr hrem
  obtain ⟨s', hrr, hstep, hs', hsets, hsame⟩ := hs.1.applyRemoval hrem
  exact ⟨s', hrr, hstep, ⟨hs', hs.2.trans hsame⟩, hsets⟩

/-- **A whole update** with valid removals, and with witnesses in step. -/
theorem exists_applyToAccumulatorAndRecords {u : MutatorSetUpdate D}
    {rrs : List (RemovalRecord D)} {items : List (AuthenticatedItem D)}
    (hs : ∀ rr ∈ u.removals, L.Synced rr) (hord : ∀ rr ∈ u.removals, Ordinary rr)
    (hlt : L.commitments.length + u.additions.length < u64Bound)
    (hrrs : ∀ rr ∈ rrs, L.Synced rr ∧ Ordinary rr)
    (hitems : ∀ it ∈ items, L.Tracks it.item it.msMembershipProof) :
    ∃ (L' : Ledger D) (s' : Progress D),
      u.applyToAccumulatorAndRecords L.accumulator rrs items = some (s',
        if setsNewIndices L.bits (u.removals.map (·.absoluteIndices)) then .ok ()
        else .error cannotRemoveItem) ∧
      Carries L' s' ∧ s'.removalRecords.map (·.absoluteIndices) = rrs.map (·.absoluteIndices) ∧
      s'.authenticatedItems.map (·.coin) = items.map (·.coin) ∧
      L'.commitments = L.commitments ++ u.additions.map (·.canonicalCommitment) ∧ L'.bits =
        (u.removals.flatMap fun rr => rr.absoluteIndices.bloomIndices : List ℕ) + L.bits := by
  have hstart : CarriesFrom ⟨L.accumulator, u.removals.reverse, rrs, items⟩ L
      ⟨L.accumulator, u.removals.reverse, rrs, items⟩ :=
    ⟨⟨inStep_start hs hord, hrrs, hitems⟩, .refl _⟩
  obtain ⟨L', s', hrun, hs', hc, hb⟩ :=
    exists_applyInner (CarriesFrom.keptByAddition _) (CarriesFrom.keptByRemoval _) hstart hlt
  refine ⟨L', s', ?_, hs'.1, hs'.2.removalRecords, hs'.2.authenticatedItems, hc, hb⟩
  simp [applyToAccumulatorAndRecords, hrun]

omit [Tip5 D] [MmrOps D] [Inhabited D] [DecidableEq D] [LawfulMmr D] [MmrOps.ReportsPositions D]
  [Tip5.CollisionFree D] in
theorem exists_notMem_bits {L L' : Ledger D} {rrs : List (RemovalRecord D)}
    (hord : ∀ rr ∈ rrs, Ordinary rr)
    (hbits : L'.bits = (rrs.flatMap fun rr => rr.absoluteIndices.bloomIndices : List ℕ) + L.bits)
    {set : AbsoluteIndexSet}
    (hown : ∃ i ∈ set.toArray, i ∉ L.bits ∧ ∀ rr ∈ rrs, i ∉ rr.absoluteIndices.toArray) :
    (set.toArray.any fun i => decide (i ∉ L'.bits)) = true := by
  obtain ⟨i, hi, hnot, hremovals⟩ := hown
  refine any_eq_true.mpr ⟨i, hi, decide_eq_true ?_⟩
  rw [hbits, Multiset.mem_add, not_or, Multiset.mem_coe, mem_flatMap, not_exists]
  refine ⟨fun rr => not_and.mpr fun hrr => ?_, hnot⟩
  rw [AbsoluteIndexSet.bloomIndices_of_lt (hord rr hrr).2]
  exact hremovals rr hrr

/-- **An update carries witnesses forward**: the removal records and authenticated items that are
valid before, and have an index that the update does not set. -/
theorem witnesses_carried {A : MutatorSetAccumulator D} (hA : A.WellFormed)
    {u : MutatorSetUpdate D} {rrs : List (RemovalRecord D)} {items : List (AuthenticatedItem D)}
    (hlt : A.aocl.leafCount + u.additions.length < u64Bound)
    (hremovals : ∀ rr ∈ u.removals, rr.validate A = true ∧ Ordinary rr)
    (hnew : ∀ before rr after, u.removals = before ++ rr :: after → SetsNewIndex A before rr)
    (hrrs : ∀ rr ∈ rrs, rr.validate A = true ∧ Ordinary rr ∧ SetsNewIndex A u.removals rr)
    (hitems : ∀ it ∈ items, A.verify it.item it.msMembershipProof = some true ∧
      (A.drop it.item it.msMembershipProof).validate A = true ∧
      Ordinary (A.drop it.item it.msMembershipProof) ∧
      SetsNewIndex A u.removals (A.drop it.item it.msMembershipProof)) :
    ∃ s, u.applyToAccumulatorAndRecords A rrs items = some (s, .ok ()) ∧
      s.removalRecords.map (·.absoluteIndices) = rrs.map (·.absoluteIndices) ∧
      (∀ rr ∈ s.removalRecords,
        rr.validate s.accumulator = true ∧ s.accumulator.canRemove rr = some true) ∧
      s.authenticatedItems.map (·.coin) = items.map (·.coin) ∧ ∀ it ∈ s.authenticatedItems,
        s.accumulator.verify it.item it.msMembershipProof = some true := by
  obtain ⟨L, rfl⟩ := hA
  have hsynced : ∀ rr, rr.validate L.accumulator = true → L.Synced rr := fun rr =>
    (validate_accumulator_iff L rr).mp
  have hord : ∀ rr ∈ u.removals, Ordinary rr := fun rr hrr => (hremovals rr hrr).2
  have htracks : ∀ it ∈ items, L.Tracks it.item it.msMembershipProof := fun it hit =>
    tracks_of_verify (hitems it hit).1 (hitems it hit).2.1 (hitems it hit).2.2.1.1
  obtain ⟨L', s', happly, hs', hrecords, hcoins, -, hbits⟩ := exists_applyToAccumulatorAndRecords
    (fun rr hrr => hsynced rr (hremovals rr hrr).1) hord hlt
    (fun rr hrr => ⟨hsynced rr (hrrs rr hrr).1, (hrrs rr hrr).2.1⟩) htracks
  have hacc : s'.accumulator = L'.accumulator := hs'.inStep.accumulator_eq
  refine ⟨s', ?_, hrecords, ?_, hcoins, ?_⟩
  · have hsucceeds : setsNewIndices L.bits (u.removals.map (·.absoluteIndices)) = true := by
      refine (setsNewIndices_iff hord).mpr fun before rr after hsplit => ?_
      have hrr : rr ∈ u.removals := by simp [hsplit]
      exact (setsNewIndex_iff (hsynced rr (hremovals rr hrr).1) (hord rr hrr)).mp
        (hnew before rr after hsplit)
    rw [happly, if_pos hsucceeds]
  · intro rr hrr
    obtain ⟨hs, hordinary⟩ := hs'.records rr hrr
    obtain ⟨rr₀, hrr₀, heq⟩ : ∃ rr₀ ∈ rrs, rr₀.absoluteIndices = rr.absoluteIndices := by
      rw [← mem_map, ← hrecords]
      exact mem_map_of_mem hrr
    have hown := (setsNewIndex_iff (hsynced rr₀ (hrrs rr₀ hrr₀).1) (hrrs rr₀ hrr₀).2.1).mp
      (hrrs rr₀ hrr₀).2.2
    rw [heq] at hown
    rw [hacc, canRemove_synced hs hordinary.2, exists_notMem_bits hord hbits hown]
    exact ⟨(validate_accumulator_iff L' rr).mpr hs, rfl⟩
  · intro it hit
    obtain ⟨it₀, hit₀, heq⟩ : ∃ it₀ ∈ items, it₀.coin = it.coin := by
      rw [← mem_map, ← hcoins]
      exact mem_map_of_mem hit
    have hindices : it₀.msMembershipProof.computeIndices it₀.item =
        it.msMembershipProof.computeIndices it.item := by
      simp only [AuthenticatedItem.coin, Prod.mk.injEq] at heq
      rw [MsMembershipProof.computeIndices, MsMembershipProof.computeIndices, heq.1, heq.2.1,
        heq.2.2.1, heq.2.2.2]
    have hown := (setsNewIndex_iff (hsynced _ (hitems it₀ hit₀).2.1) (hitems it₀ hit₀).2.2.1).mp
      (hitems it₀ hit₀).2.2.2
    rw [MutatorSetAccumulator.drop, hindices] at hown
    rw [hacc, verify_tracks (hs'.items it hit), exists_notMem_bits hord hbits hown]

end MutatorSetUpdate

namespace Coins

/-- The window slides; a removal, a record and a coin have an inactive chunk, the others get one. -/
theorem witnesses_carried_sliding : ∃ s : MutatorSetUpdate.Progress SymbolicDigest,
      MutatorSetUpdate.applyToAccumulatorAndRecords
        ⟨[record sixteen [0] 0, record sixteen [] 8], [⟨.atom 16⟩, ⟨.atom 17⟩]⟩ sixteen.accumulator
        [record sixteen [0] 1, record sixteen [] 9] [coin sixteen [0] 2, coin sixteen [] 10] =
          some (s, .ok ()) ∧ s.removalRecords.map (·.absoluteIndices) =
        [record sixteen [0] 1, record sixteen [] 9].map (·.absoluteIndices) ∧
      (∀ rr ∈ s.removalRecords,
        rr.validate s.accumulator = true ∧ s.accumulator.canRemove rr = some true) ∧
      s.authenticatedItems.map (·.coin) = [coin sixteen [0] 2, coin sixteen [] 10].map (·.coin) ∧
      ∀ it ∈ s.authenticatedItems,
        s.accumulator.verify it.item it.msMembershipProof = some true := by
  refine MutatorSetUpdate.witnesses_carried (wellFormed 16 (by decide)) ?_ ?_ ?_ ?_ ?_
  · decide +kernel
  · unfold Ordinary
    decide +kernel
  · intro before rr after hsplit
    match before, hsplit with
    | [], hsplit =>
      obtain ⟨rfl, -⟩ := cons.inj hsplit
      unfold SetsNewIndex
      decide +kernel
    | [_], hsplit =>
      obtain ⟨rfl, hrest⟩ := cons.inj hsplit
      obtain ⟨rfl, -⟩ := cons.inj hrest
      unfold SetsNewIndex
      decide +kernel
    | _ :: _ :: before, hsplit => simp at hsplit
  · unfold Ordinary SetsNewIndex
    decide +kernel
  · unfold Ordinary SetsNewIndex
    decide +kernel

end Coins

/-- Two removals that are valid each on its own, and set the same indices. -/
theorem valid_removals_not_applicable : (∀ rr ∈ [zeroThenOnes, onesThenZero],
      rr.validate .empty = true ∧ MutatorSetAccumulator.empty.canRemove rr = some true) ∧
      (MutatorSetUpdate.applyToAccumulatorAndRecords ⟨[zeroThenOnes, onesThenZero], []⟩ .empty []
        []).map Prod.snd = some (.error MutatorSetUpdate.cannotRemoveItem) := by
  decide +kernel

end NyksNode
