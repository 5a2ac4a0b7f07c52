import NyksNode.MutatorSet.Membership

/-!
# The life of a coin

Any sequence of additions and checked removals takes the empty accumulator to the
accumulator of a ledger.  On top of such a sequence, the owner of one item keeps a
membership proof and possibly a removal record current, and may at some point apply
the record.  The state of this system is a `CoinState` and its moves are `CoinStep`.
-/

namespace NyksNode

open List Ledger

variable {D : Type} [Tip5 D] [MmrOps D]

/-! ## Reachable accumulators -/

/-- The accumulators of all runs from the empty one, each with the removal records that were
applied on the way.  Every removal is checked first. -/
inductive Reachable : MutatorSetAccumulator D → List (RemovalRecord D) → Prop
  | empty : Reachable .empty []
  | add {A A' : MutatorSetAccumulator D} {rrs : List (RemovalRecord D)} (r : AdditionRecord D)
      (hA : Reachable A rrs) (hadd : A.add r = some A') : Reachable A' rrs
  | remove {A A' : MutatorSetAccumulator D} {rrs : List (RemovalRecord D)} (rr : RemovalRecord D)
      (hA : Reachable A rrs) (hcan : A.canRemove rr = some true) (hremove : A.remove rr = some A') :
      Reachable A' (rr :: rrs)

section
variable [Inhabited D] [DecidableEq D] [LawfulMmr D] [Tip5.CollisionFree D]

/-- **Every reachable accumulator is that of a ledger**, whose bits are those of the removals. -/
theorem Reachable.exists_ledger {A : MutatorSetAccumulator D} {rrs : List (RemovalRecord D)}
    (hA : Reachable A rrs) : ∃ L : Ledger D, L.accumulator = A ∧
      ∀ i, i ∈ L.bits ↔ ∃ rr ∈ rrs, i ∈ rr.absoluteIndices.bloomIndices := by
  induction hA with
  | empty => exact ⟨.empty, Ledger.accumulator_empty, by simp [Ledger.empty]⟩
  | add r _ hadd ih =>
    obtain ⟨L, rfl, hbits⟩ := ih
    have hlt := lt_of_add_accumulator hadd
    rw [add_accumulator hlt, Option.some_inj] at hadd
    exact ⟨L.add r.canonicalCommitment hlt, hadd, hbits⟩
  | remove rr _ hcan hremove ih =>
    obtain ⟨L, rfl, hbits⟩ := ih
    have hs := synced_of_canRemove hcan
    refine ⟨L.remove rr hs, (remove_accumulator hs hremove).symm, fun i => ?_⟩
    simp [hbits]

end

/-! ## The state of a coin -/

/-- An accumulator and what the owner of one item keeps: the membership proof, the removal record
once it has been made, the removals applied by others, and whether the record was applied. -/
structure CoinState (D : Type) where
  accumulator : MutatorSetAccumulator D
  proof : MsMembershipProof D
  record : Option (RemovalRecord D)
  otherRemovals : List (RemovalRecord D)
  spent : Bool

/-- The item is proved in a reachable accumulator and then added. -/
structure CoinStart (item senderRandomness receiverPreimage : D) (s : CoinState D) : Prop where
  minted : ∃ A, Reachable A s.otherRemovals ∧
    A.prove item senderRandomness receiverPreimage = some s.proof ∧
    A.add (commit item senderRandomness (digestHash receiverPreimage)) = some s.accumulator
  record : s.record = none
  spent : s.spent = false

/-- One move: an addition or a removal by anyone, before which proof and record are updated; making
the removal record; and applying it. -/
inductive CoinStep (item : D) : CoinState D → CoinState D → Prop
  | add {s : CoinState D} {A' : MutatorSetAccumulator D} {proof' : MsMembershipProof D}
      {changed : Bool} {records' : List (RemovalRecord D)} (r : AdditionRecord D)
      (hproof : s.proof.updateFromAddition item s.accumulator r = some (.ok (proof', changed)))
      (hrecord : RemovalRecord.batchUpdateFromAddition s.record.toList s.accumulator =
        some records')
      (hadd : s.accumulator.add r = some A') :
      CoinStep item s { s with accumulator := A', proof := proof', record := records'.head? }
  | remove {s : CoinState D} {A' : MutatorSetAccumulator D} {proof' : MsMembershipProof D}
      {changed : Bool} {records' : List (RemovalRecord D)} (rr : RemovalRecord D)
      (hcan : s.accumulator.canRemove rr = some true)
      (hproof : s.proof.updateFromRemove rr = some (proof', changed))
      (hrecord : RemovalRecord.batchUpdateFromRemove s.record.toList rr = some records')
      (hremove : s.accumulator.remove rr = some A') :
      CoinStep item s { s with accumulator := A', proof := proof', record := records'.head?,
                               otherRemovals := rr :: s.otherRemovals }
  | drop {s : CoinState D} :
      CoinStep item s { s with record := some (s.accumulator.drop item s.proof) }
  | spend {s : CoinState D} {A' : MutatorSetAccumulator D} {proof' : MsMembershipProof D}
      {changed : Bool} {records' : List (RemovalRecord D)} {rr : RemovalRecord D}
      (hown : s.record = some rr) (hcan : s.accumulator.canRemove rr = some true)
      (hproof : s.proof.updateFromRemove rr = some (proof', changed))
      (hrecord : RemovalRecord.batchUpdateFromRemove s.record.toList rr = some records')
      (hremove : s.accumulator.remove rr = some A') :
      CoinStep item s { s with accumulator := A', proof := proof', record := records'.head?,
                               spent := true }

/-! ## The invariant -/

/-- The ledger behind a coin state: proof and record are in step with it, and its bits are those
of the removals, the item's own included once it is spent. -/
structure CoinInvariant [Inhabited D] (item : D) (s : CoinState D) (L : Ledger D) : Prop where
  accumulator_eq : s.accumulator = L.accumulator
  tracks : L.Tracks item s.proof
  record : ∀ rr ∈ s.record, rr.absoluteIndices = s.proof.computeIndices item ∧ L.Synced rr ∧
    rr.targetChunks.allChunkIndices.Nodup
  bits : ∀ i, i ∈ L.bits ↔ (∃ rr ∈ s.otherRemovals, i ∈ rr.absoluteIndices.bloomIndices) ∨
    s.spent = true ∧ i ∈ (s.proof.computeIndices item).toArray
  has_record : s.spent = true → s.record.isSome = true

section
variable [Inhabited D] [DecidableEq D] [LawfulMmr D] {item : D} {s s' : CoinState D} {L : Ledger D}

variable {rr : RemovalRecord D}

omit [MmrOps D] [DecidableEq D] [LawfulMmr D] in
theorem CoinInvariant.bloomIndices_record (hI : CoinInvariant item s L) (hrr : rr ∈ s.record) :
    rr.absoluteIndices.bloomIndices = (s.proof.computeIndices item).toArray := by
  rw [(hI.record rr hrr).1]
  exact AbsoluteIndexSet.bloomIndices_compute _ _ _ hI.tracks.leafIndex_lt

theorem CoinInvariant.add (hI : CoinInvariant item s L) (r : AdditionRecord D)
    (hlt : L.commitments.length + 1 < u64Bound) : ∃ proof' changed,
      s.proof.updateFromAddition item s.accumulator r = some (.ok (proof', changed)) ∧
      RemovalRecord.batchUpdateFromAddition s.record.toList s.accumulator =
        some (s.record.toList.map (L.refreshFromAdd r.canonicalCommitment hlt)) ∧
      s.accumulator.add r = some (L.add r.canonicalCommitment hlt).accumulator ∧ CoinInvariant item
        { s with
          accumulator := (L.add r.canonicalCommitment hlt).accumulator
          proof := proof'
          record := (s.record.toList.map (L.refreshFromAdd r.canonicalCommitment hlt)).head? }
        (L.add r.canonicalCommitment hlt) := by
  obtain ⟨changed, hproof, htracks⟩ := updateFromAddition_tracks hI.tracks r hlt
  have hindices : (L.proofFromAdd r.canonicalCommitment hlt item s.proof).computeIndices item =
      s.proof.computeIndices item := rfl
  have hsynced : ∀ rr ∈ s.record.toList, L.Synced rr := fun rr hrr =>
    (hI.record rr (Option.mem_toList.mp hrr)).2.1
  rw [hI.accumulator_eq]
  refine ⟨_, changed, hproof, batchUpdateFromAddition_synced r.canonicalCommitment hlt hsynced,
    add_accumulator hlt r, rfl, htracks, ?_, ?_, ?_⟩
  · intro rr hrr
    obtain ⟨rr₀, hrr₀, rfl⟩ := mem_map.mp (mem_of_mem_head? hrr)
    obtain ⟨habs, hs, hnd⟩ := hI.record rr₀ (Option.mem_toList.mp hrr₀)
    refine ⟨habs.trans hindices.symm, hs.refreshFromAdd r.canonicalCommitment hlt, ?_⟩
    rw [refreshFromAdd, allChunkIndices_refresh]
    exact nodup_keysAfterAdd hs.supplies hnd
  · rw [hindices]
    exact hI.bits
  · intro hspent
    have := hI.has_record hspent
    cases hrec : s.record <;> simp_all

/-- The invariant after a removal, by the owner or by someone else. -/
theorem CoinInvariant.remove (hI : CoinInvariant item s L) (hs : L.Synced rr) :
    ∃ proof' changed, s.proof.updateFromRemove rr = some (proof', changed) ∧
      RemovalRecord.batchUpdateFromRemove s.record.toList rr =
        some (s.record.toList.map (refreshFromRemove hs)) ∧ (L.remove rr hs).Tracks item proof' ∧
      proof'.computeIndices item = s.proof.computeIndices item ∧
      ∀ rr' ∈ (s.record.toList.map (refreshFromRemove hs)).head?,
        rr'.absoluteIndices = s.proof.computeIndices item ∧ (L.remove rr hs).Synced rr' ∧
          rr'.targetChunks.allChunkIndices.Nodup := by
  obtain ⟨changed, hproof, htracks⟩ := updateFromRemove_tracks hI.tracks hs
  refine ⟨_, changed, hproof, ?_, htracks, rfl, ?_⟩
  · exact batchUpdateFromRemove_synced hs (fun r hr => (hI.record r (Option.mem_toList.mp hr)).2.1)
      (fun r hr => (hI.record r (Option.mem_toList.mp hr)).2.2)
  · intro rr' hrr'
    obtain ⟨rr₀, hrr₀, rfl⟩ := mem_map.mp (mem_of_mem_head? hrr')
    obtain ⟨habs, hs₀, hnd⟩ := hI.record rr₀ (Option.mem_toList.mp hrr₀)
    refine ⟨habs, hs.refreshFromRemove hs₀, ?_⟩
    rw [refreshFromRemove, allChunkIndices_refresh]
    exact hnd

variable [Tip5.CollisionFree D]

theorem CoinStart.invariant {sr rp : D} (hs : CoinStart item sr rp s) :
    ∃ L, CoinInvariant item s L := by
  obtain ⟨A, hA, hprove, hadd⟩ := hs.minted
  obtain ⟨L, rfl, hbits⟩ := hA.exists_ledger
  have hlt := lt_of_add_accumulator hadd
  rw [add_accumulator hlt, Option.some_inj] at hadd
  obtain ⟨-, -, htracks⟩ := tracks_prove hprove hlt
  refine ⟨_, hadd.symm, htracks, ?_, ?_, ?_⟩
  · simp [hs.record]
  · simpa [hs.spent] using hbits
  · simp [hs.spent]

theorem CoinInvariant.step (hI : CoinInvariant item s L) (hstep : CoinStep item s s') :
    ∃ L', CoinInvariant item s' L' := by
  cases hstep with
  | add r hproof hrecord hadd =>
    have hadd' := hadd
    rw [hI.accumulator_eq] at hadd'
    have hlt := lt_of_add_accumulator hadd'
    obtain ⟨p, c, hproof', hrecord', hadd'', hI'⟩ := hI.add r hlt
    obtain ⟨rfl, rfl⟩ : p = _ ∧ c = _ := by simpa [hproof] using hproof'.symm
    rw [hrecord, Option.some_inj] at hrecord'
    rw [hadd, Option.some_inj] at hadd''
    subst hrecord' hadd''
    exact ⟨_, hI'⟩
  | remove rr hcan hproof hrecord hremove =>
    rw [hI.accumulator_eq] at hcan hremove
    have hs := synced_of_canRemove hcan
    obtain ⟨p, c, hproof', hrecord', htracks, hindices, hrec⟩ := hI.remove hs
    obtain ⟨rfl, rfl⟩ : p = _ ∧ c = _ := by simpa [hproof] using hproof'.symm
    rw [hrecord] at hrecord'
    cases hrecord'
    refine ⟨L.remove rr hs, remove_accumulator hs hremove, htracks, ?_, fun i => ?_, ?_⟩
    · simpa only [hindices] using hrec
    · simp [bits_remove, hI.bits i, hindices, or_assoc]
    · intro hspent
      have := hI.has_record hspent
      cases hr : s.record <;> simp_all
  | drop =>
    refine ⟨L, hI.accumulator_eq, hI.tracks, ?_, hI.bits, by simp⟩
    intro rr hrr
    cases hrr
    exact ⟨rfl, hI.tracks.synced, hI.tracks.nodup_keys⟩
  | @spend A' proof' changed records' rr hown hcan hproof hrecord hremove =>
    have hbloom := hI.bloomIndices_record hown
    rw [hI.accumulator_eq] at hcan hremove
    have hs := synced_of_canRemove hcan
    obtain ⟨p, c, hproof', hrecord', htracks, hindices, hrec⟩ := hI.remove hs
    obtain ⟨rfl, rfl⟩ : p = _ ∧ c = _ := by simpa [hproof] using hproof'.symm
    rw [hrecord] at hrecord'
    cases hrecord'
    refine ⟨L.remove rr hs, remove_accumulator hs hremove, htracks, ?_, fun i => ?_, ?_⟩
    · simpa only [hindices] using hrec
    · simp only [bits_remove, Multiset.mem_add, Multiset.mem_coe, hbloom, hI.bits i,
        hindices, true_and]
      constructor
      · rintro (hi | hother | ⟨-, hi⟩)
        · exact .inr hi
        · exact .inl hother
        · exact .inr hi
      · rintro (hother | hi)
        · exact .inr (.inl hother)
        · exact .inl hi
    · simp [hown]

theorem CoinInvariant.run (hI : CoinInvariant item s L)
    (hrun : Relation.ReflTransGen (CoinStep item) s s') : ∃ L', CoinInvariant item s' L' := by
  induction hrun with
  | refl => exact ⟨L, hI⟩
  | tail _ hstep ih =>
    obtain ⟨L', hI'⟩ := ih
    exact hI'.step hstep

/-! ## Checks along a run -/

theorem CoinInvariant.verify_eq (hI : CoinInvariant item s L) : s.accumulator.verify item s.proof =
      some ((s.proof.computeIndices item).toArray.any fun i => decide (i ∉ L.bits)) := by
  rw [hI.accumulator_eq]
  exact verify_tracks hI.tracks

theorem CoinInvariant.canRemove_eq (hI : CoinInvariant item s L) (hrr : rr ∈ s.record) :
    s.accumulator.canRemove rr =
      some ((s.proof.computeIndices item).toArray.any fun i => decide (i ∉ L.bits)) := by
  obtain ⟨habs, hs, -⟩ := hI.record rr hrr
  rw [hI.accumulator_eq, canRemove_synced hs, habs]
  rw [habs]
  exact fun i hi => hI.tracks.lt_of_mem hi

omit [Tip5.CollisionFree D] in
/-- An addition to the accumulator is a move: the updates do not fail. -/
theorem CoinInvariant.exists_add (hI : CoinInvariant item s L) {r : AdditionRecord D}
    {A' : MutatorSetAccumulator D} (hadd : s.accumulator.add r = some A') :
    ∃ s', CoinStep item s s' ∧ s'.accumulator = A' := by
  have hadd' := hadd
  rw [hI.accumulator_eq] at hadd'
  obtain ⟨p, c, hproof, hrecord, -, -⟩ := hI.add r (lt_of_add_accumulator hadd')
  exact ⟨_, .add r hproof hrecord hadd, rfl⟩

/-- A checked removal from the accumulator is a move: the updates do not fail. -/
theorem CoinInvariant.exists_remove (hI : CoinInvariant item s L) {A' : MutatorSetAccumulator D}
    (hcan : s.accumulator.canRemove rr = some true) (hremove : s.accumulator.remove rr = some A') :
    ∃ s', CoinStep item s s' ∧ s'.accumulator = A' := by
  have hcan' := hcan
  rw [hI.accumulator_eq] at hcan'
  obtain ⟨p, c, hproof, hrecord, -⟩ := hI.remove (synced_of_canRemove hcan')
  exact ⟨_, .remove rr hcan hproof hrecord hremove, rfl⟩

/-- **No lost coin, no double spend.**  In every state of every run, the item verifies unless it
was spent or others have set all of its indices; once spent it verifies no more, nor
can its removal record be applied again.  Keeping proof and record current never fails. -/
theorem coin_neither_lost_nor_spent_twice {sr rp : D} {s₀ : CoinState D}
    (hstart : CoinStart item sr rp s₀) (hrun : Relation.ReflTransGen (CoinStep item) s₀ s) :
    (s.spent = false → (∃ i ∈ (s.proof.computeIndices item).toArray,
        ∀ rr ∈ s.otherRemovals, i ∉ rr.absoluteIndices.bloomIndices) →
      s.accumulator.verify item s.proof = some true) ∧
    (s.spent = true → s.accumulator.verify item s.proof = some false ∧
      ∃ rr, s.record = some rr ∧ s.accumulator.canRemove rr = some false) ∧
    (∀ r A', s.accumulator.add r = some A' → ∃ s', CoinStep item s s' ∧ s'.accumulator = A') ∧
    (∀ rr A', s.accumulator.canRemove rr = some true → s.accumulator.remove rr = some A' →
      ∃ s', CoinStep item s s' ∧ s'.accumulator = A') := by
  obtain ⟨L₀, hI₀⟩ := hstart.invariant
  obtain ⟨L, hI⟩ := hI₀.run hrun
  refine ⟨fun hspent ⟨i, hi, hfree⟩ => ?_, fun hspent => ?_, fun r A' => hI.exists_add,
    fun rr A' => hI.exists_remove⟩
  · rw [hI.verify_eq, Option.some_inj, any_eq_true]
    refine ⟨i, hi, decide_eq_true fun hbit => ?_⟩
    rcases (hI.bits i).mp hbit with ⟨rr, hrr, hmem⟩ | ⟨htrue, -⟩
    · exact hfree rr hrr hmem
    · rw [hspent] at htrue
      exact Bool.false_ne_true htrue
  · have hnone : ((s.proof.computeIndices item).toArray.any fun i => decide (i ∉ L.bits)) =
        false := by
      rw [any_eq_false]
      intro i hi
      simpa using (hI.bits i).mpr (.inr ⟨hspent, hi⟩)
    obtain ⟨rr, hrr⟩ := Option.isSome_iff_exists.mp (hI.has_record hspent)
    exact ⟨by rw [hI.verify_eq, hnone], rr, hrr, by rw [hI.canRemove_eq hrr, hnone]⟩

end

/-- A coin that is received and spent. -/
theorem coin_neither_lost_nor_spent_twice_zero :
    ∃ s₀ s : CoinState SymbolicDigest, CoinStart .zero .zero .zero s₀ ∧
      Relation.ReflTransGen (CoinStep .zero) s₀ s ∧ s.spent = true ∧
      s.accumulator.verify .zero s.proof = some false ∧
      ∃ rr, s.record = some rr ∧ s.accumulator.canRemove rr = some false := by
  have hspend : ∃ mp, MutatorSetAccumulator.empty.prove SymbolicDigest.zero .zero .zero = some mp ∧
      ∃ A, MutatorSetAccumulator.empty.add (commit .zero .zero (digestHash .zero)) = some A ∧
        A.canRemove (A.drop .zero mp) = some true ∧
        ∃ mp' changed, mp.updateFromRemove (A.drop .zero mp) = some (mp', changed) ∧
          ∃ rrs, RemovalRecord.batchUpdateFromRemove [A.drop .zero mp] (A.drop .zero mp) =
            some rrs ∧ ∃ A', A.remove (A.drop .zero mp) = some A' ∧ True := by
    decide +kernel
  obtain ⟨mp, hprove, A, hadd, hcan, mp', _, hproof, rrs, hrecord, A', hremove, -⟩ := hspend
  have hstart : CoinStart SymbolicDigest.zero .zero .zero ⟨A, mp, none, [], false⟩ :=
    ⟨⟨.empty, .empty, hprove, hadd⟩, rfl, rfl⟩
  have hdrop : CoinStep SymbolicDigest.zero ⟨A, mp, none, [], false⟩
      ⟨A, mp, some (A.drop .zero mp), [], false⟩ := .drop
  have hrun := Relation.ReflTransGen.tail (.single hdrop)
    (.spend rfl hcan hproof hrecord hremove)
  exact ⟨_, _, hstart, hrun, rfl, (coin_neither_lost_nor_spent_twice hstart hrun).2.1 rfl⟩

end NyksNode
