import NyksNode.Block.MutatorSetUpdate
import NyksNode.Block.Symbolic
import NyksNode.Lib.Fallible

/-!
# Confirmable transactions

A transaction is confirmable relative to an accumulator if all its inputs are valid,
pairwise different and removable.  Inputs are compared as they are stored, whereas the
update that applies them checks each one after its predecessors have been removed.  So
a confirmable transaction can be applied exactly if every input has an index that
neither the accumulator nor an earlier input sets.
-/

namespace NyksNode

open List MutatorSetUpdate Fallible PendingUpdates

/-- `TransactionConfirmabilityError`.  The failure to unpack belongs to the callers. -/
inductive TransactionConfirmabilityError where
  | invalidRemovalRecord (index : ℕ)
  | duplicateInputs
  | alreadySpentInput (index : ℕ)
  | removalRecordUnpackFailure
  deriving DecidableEq, Repr

variable {D : Type} [Tip5 D] [MmrOps D]

namespace TransactionKernel

def isConfirmableRelativeTo (k : TransactionKernel D)
    (mutatorSetAccumulator : MutatorSetAccumulator D) :
    Fallible TransactionConfirmabilityError Unit := do
  k.inputs.zipIdx.forM fun (rr, index) =>
    ensure (rr.validate mutatorSetAccumulator) (.invalidRemovalRecord index)
  -- `unique_by` compares the index sets as values
  ensure ((k.inputs.map (·.absoluteIndices)).dedup.length = k.inputs.length) .duplicateInputs
  k.inputs.zipIdx.forM fun (rr, index) => do
    let canRemove ← orPanic (mutatorSetAccumulator.canRemove rr)
    ensure canRemove (.alreadySpentInput index)

/-- **What makes a transaction confirmable.**  A record that can be removed is valid, so the first
check adds nothing to the last one. -/
theorem isConfirmableRelativeTo_returns_iff (k : TransactionKernel D)
    (A : MutatorSetAccumulator D) : (k.isConfirmableRelativeTo A).Returns () ↔
      (k.inputs.map (·.absoluteIndices)).Nodup ∧ ∀ rr ∈ k.inputs, A.canRemove rr = some true := by
  have hdedup : (k.inputs.map (·.absoluteIndices)).dedup.length = k.inputs.length ↔
      (k.inputs.map (·.absoluteIndices)).Nodup := by
    rw [← dedup_eq_self, ← length_map fun rr : RemovalRecord D => rr.absoluteIndices]
    exact ⟨(dedup_sublist _).eq_of_length, congrArg _⟩
  have hvalid : ∀ rr, A.canRemove rr = some true → rr.validate A = true := by
    intro rr hcan
    by_contra hv
    rw [MutatorSetAccumulator.canRemove, if_pos (by simpa using hv)] at hcan
    cases hcan
  have hforall : ∀ P : RemovalRecord D → Prop,
      (∀ p ∈ k.inputs.zipIdx, P p.1) ↔ ∀ rr ∈ k.inputs, P rr := by
    intro P
    conv_rhs => rw [← zipIdx_map_fst 0 k.inputs]
    rw [forall_mem_map]
  simp only [isConfirmableRelativeTo, returns_bind, returns_forM, returns_ensure, returns_orPanic,
    decide_eq_true_eq, hdedup, exists_eq_right, hforall fun rr => rr.validate A = true,
    hforall fun rr => A.canRemove rr = some true]
  constructor
  · intro h
    obtain ⟨_, -, _, hnodup, hcan⟩ := h
    exact ⟨hnodup, hcan⟩
  · intro h
    exact ⟨(), fun rr hrr => hvalid rr (h.2 rr hrr), (), h⟩

end TransactionKernel

/-! ## Applying the inputs in turn -/

/-- The last record of a list has an index that neither the accumulator nor the records before it
set. -/
def SetsNewIndex (A : MutatorSetAccumulator D) (before : List (RemovalRecord D))
    (rr : RemovalRecord D) : Prop :=
  ∃ i ∈ rr.absoluteIndices.toArray, A.isAbsent rr i = some true ∧
    ∀ rr' ∈ before, i ∉ rr'.absoluteIndices.toArray

omit [Tip5 D] [MmrOps D] in
theorem MutatorSetUpdate.setsNewIndices_iff {bits : Multiset ℕ} {rrs : List (RemovalRecord D)}
    (hord : ∀ rr ∈ rrs, Ordinary rr) : setsNewIndices bits (rrs.map (·.absoluteIndices)) = true ↔
      ∀ before rr after, rrs = before ++ rr :: after → ∃ i ∈ rr.absoluteIndices.toArray, i ∉ bits ∧
          ∀ rr' ∈ before, i ∉ rr'.absoluteIndices.toArray := by
  induction rrs generalizing bits with
  | nil => simp [setsNewIndices]
  | cons rr rrs ih =>
    have hbloom : rr.absoluteIndices.bloomIndices = rr.absoluteIndices.toArray :=
      AbsoluteIndexSet.bloomIndices_of_lt (hord rr mem_cons_self).2
    have ih := @ih (rr.absoluteIndices.bloomIndices + bits)
      fun r hr => hord r (mem_cons_of_mem _ hr)
    rw [map_cons, setsNewIndices, Bool.and_eq_true, ih, any_eq_true]
    constructor
    · intro h before r after hsplit
      cases before with
      | nil =>
        obtain ⟨rfl, rfl⟩ := List.cons.inj hsplit
        obtain ⟨i, hi, hnew⟩ := h.1
        exact ⟨i, hi, of_decide_eq_true hnew, by simp⟩
      | cons first before =>
        obtain ⟨rfl, htail⟩ := List.cons.inj hsplit
        obtain ⟨i, hi, hnew, hbefore⟩ := h.2 before r after htail
        rw [hbloom, Multiset.mem_add, not_or, Multiset.mem_coe] at hnew
        exact ⟨i, hi, hnew.2, forall_mem_cons.mpr ⟨hnew.1, hbefore⟩⟩
    · intro h
      constructor
      · obtain ⟨i, hi, hnew, -⟩ := h [] rr rrs rfl
        exact ⟨i, hi, decide_eq_true hnew⟩
      · intro before r after hsplit
        obtain ⟨i, hi, hnew, hbefore⟩ := h (rr :: before) r after (by rw [hsplit]; rfl)
        rw [forall_mem_cons] at hbefore
        refine ⟨i, hi, ?_, hbefore.2⟩
        rw [hbloom, Multiset.mem_add, not_or, Multiset.mem_coe]
        exact ⟨hbefore.1, hnew⟩

omit [MmrOps D] in
/-- What is absent from the accumulator of a ledger is what the ledger does not hold. -/
theorem setsNewIndex_iff [Inhabited D] {L : Ledger D} {before : List (RemovalRecord D)}
    {rr : RemovalRecord D} (hs : L.Synced rr) (hord : Ordinary rr) :
    SetsNewIndex L.accumulator before rr ↔ ∃ i ∈ rr.absoluteIndices.toArray, i ∉ L.bits ∧
        ∀ rr' ∈ before, i ∉ rr'.absoluteIndices.toArray := by
  refine exists_congr fun i => and_congr_right fun hi => ?_
  rw [Ledger.isAbsent_synced hs hi (hord.2 i hi), Option.some_inj, decide_eq_true_eq]

namespace TransactionKernel
variable [Inhabited D] [DecidableEq D] [LawfulMmr D] [MmrOps.ReportsPositions D]
  [Tip5.CollisionFree D]

/-- **Applying a confirmable transaction**, with unpacked inputs. -/
theorem confirmable_applies_iff {A : MutatorSetAccumulator D} (hA : A.WellFormed)
    {k : TransactionKernel D} (hord : ∀ rr ∈ k.inputs, Ordinary rr)
    (hlt : A.aocl.leafCount + k.outputs.length < u64Bound)
    (hconf : (k.isConfirmableRelativeTo A).Returns ()) : ∃ A' outcome,
      MutatorSetUpdate.applyToAccumulator ⟨k.inputs, k.outputs⟩ A = some (A', outcome) ∧
      (outcome = .ok () ↔
        ∀ before rr after, k.inputs = before ++ rr :: after → SetsNewIndex A before rr) := by
  obtain ⟨L, rfl⟩ := hA
  have hcan := ((isConfirmableRelativeTo_returns_iff k L.accumulator).mp hconf).2
  have hs : ∀ rr ∈ k.inputs, L.Synced rr := fun rr hrr => Ledger.synced_of_canRemove (hcan rr hrr)
  obtain ⟨L', happly, -⟩ :=
    applyToAccumulator_eq (u := ⟨k.inputs, k.outputs⟩) hs hord hlt
  refine ⟨_, _, happly, ?_⟩
  have houtcome : ∀ b : Bool, (if b then (.ok () : Except String Unit)
      else .error MutatorSetUpdate.cannotRemoveItem) = .ok () ↔ b = true := by
    intro b
    cases b <;> simp
  rw [houtcome, setsNewIndices_iff hord]
  refine forall_congr' fun before => forall_congr' fun rr => forall_congr' fun after =>
    forall_congr' fun hsplit => ?_
  have hrr : rr ∈ k.inputs := by simp [hsplit]
  exact (setsNewIndex_iff (hs rr hrr) (hord rr hrr)).symm

end TransactionKernel

/-! ## Two records of one index set -/

def spending (inputs : List (RemovalRecord SymbolicDigest)) : TransactionKernel SymbolicDigest :=
  ⟨inputs, [], [], ⟨0⟩, none, ⟨0⟩, .zero, false⟩

def onesThenZero : RemovalRecord SymbolicDigest :=
  recordOfDistances (List.replicate 44 1 ++ [0]) (by decide)

def onesAndTwo : RemovalRecord SymbolicDigest :=
  recordOfDistances (List.replicate 44 1 ++ [2]) (by decide)

def allThrees : RemovalRecord SymbolicDigest := recordOfDistances (.replicate 45 3) (by decide)

/-- The set after an output and a removal that sets the indices 0 and 1. -/
def spentOnce : MutatorSetAccumulator SymbolicDigest :=
  ((MutatorSetUpdate.applyToAccumulator ⟨[zeroThenOnes], [⟨.atom 1⟩]⟩ .empty).map
    Prod.fst).getD .empty

theorem wellFormed_spentOnce : spentOnce.WellFormed := by
  have hcan : (Ledger.empty : Ledger SymbolicDigest).accumulator.canRemove zeroThenOnes =
      some true := by
    rw [Ledger.accumulator_empty]
    decide +kernel
  obtain ⟨L, happly, -⟩ := applyToAccumulator_eq (L := (.empty : Ledger SymbolicDigest))
    (u := ⟨[zeroThenOnes], [⟨.atom 1⟩]⟩)
    (forall_mem_singleton.mpr (Ledger.synced_of_canRemove hcan))
    (by unfold Ordinary; decide +kernel) (by decide)
  rw [Ledger.accumulator_empty] at happly
  exact ⟨L, by rw [spentOnce, happly]; rfl⟩

/-- Two inputs, of which the first shares an index with what was spent before. -/
def twoInputs : TransactionKernel SymbolicDigest := spending [onesAndTwo, allThrees]

theorem confirmable_applies_two :
    ∃ A', MutatorSetUpdate.applyToAccumulator ⟨twoInputs.inputs, []⟩ spentOnce = some (A', .ok ()) ∧
      ∀ before rr after, twoInputs.inputs = before ++ rr :: after →
        SetsNewIndex spentOnce before rr := by
  have hok : (MutatorSetUpdate.applyToAccumulator ⟨twoInputs.inputs, []⟩ spentOnce).map Prod.snd =
      some (.ok ()) := by
    decide +kernel
  obtain ⟨A', outcome, happly, hiff⟩ :=
    TransactionKernel.confirmable_applies_iff (k := twoInputs)
      wellFormed_spentOnce (by unfold Ordinary; decide +kernel) (by decide +kernel)
      (by unfold Returns; decide +kernel)
  rw [show twoInputs.outputs = [] from rfl] at happly
  rw [happly, Option.map_some, Option.some_inj] at hok
  cases hok
  exact ⟨A', happly, hiff.mp rfl⟩

/-- Two records of the same indices, in two orders: the transaction is confirmable, and cannot be
applied. -/
theorem confirmable_not_applicable :
    ((spending [zeroThenOnes, onesThenZero]).isConfirmableRelativeTo .empty).Returns () ∧
      (MutatorSetUpdate.applyToAccumulator
        ⟨(spending [zeroThenOnes, onesThenZero]).inputs, []⟩ .empty).map Prod.snd =
        some (.error MutatorSetUpdate.cannotRemoveItem) := by
  unfold Returns
  decide +kernel

end NyksNode
