import NyksNode.Lib.NodeNumbering
import NyksNode.Lib.Trace
import NyksNode.MutatorSet.BatchRemoval

/-!
# Accumulators stay consistent

The window of the accumulator has no stored offset: where it starts follows from the number of
commitments.  So every slide has to come with the right addition, and every index has to be
written relative to the right start.  In a run of additions and checked removals, one at a time
or in batches, this is the case throughout, because every accumulator of the run commits to a
ledger.
-/

namespace NyksNode

open Option Ledger

/-- The range after a batch of mutations does not depend on the proofs that are updated along. -/
class MmrOps.MutatesAlike (D : Type) [MmrOps D] : Prop where
  batchMutateLeafAndUpdateMps_fst (m : MmrAccumulator D) (ps : List (MmrMembershipProof D))
      (is : List ℕ) (ms : List (LeafMutation D))
      (r : MmrAccumulator D × List (MmrMembershipProof D) × List ℕ)
      (hr : MmrOps.batchMutateLeafAndUpdateMps m ps is ms = some r) :
    (MmrOps.batchMutateLeafAndUpdateMps m [] [] ms).map (·.1) = some r.1

theorem mutatesAlike_reference {D : Type} [Tip5 D] [DecidableEq D] (leafCountDigest : ℕ → D) :
    @MmrOps.MutatesAlike D (MmrOps.reference D leafCountDigest) := by
  refine @MmrOps.MutatesAlike.mk D (MmrOps.reference D leafCountDigest) ?_
  intro m ps is ms r hr
  change MmrReference.batchMutateLeafAndUpdateMps _ _ _ _ = _ at hr
  change (MmrReference.batchMutateLeafAndUpdateMps _ _ _ _).map _ = _
  rw [MmrReference.batchMutateLeafAndUpdateMps,
    MmrReference.batchUpdateFromBatchLeafMutation] at hr ⊢
  by_cases hnd : (ms.map (·.leafIndex)).Nodup
  · rw [if_pos hnd, map_some, some_inj] at hr
    rw [if_pos hnd, ← hr]
    rfl
  · simp [if_neg hnd] at hr

instance : MmrOps.MutatesAlike SymbolicDigest := mutatesAlike_reference SymbolicDigest.leafCount

variable {D : Type}

inductive AccumulatorCall (D : Type) where
  | add (additionRecord : AdditionRecord D)
  | remove (removalRecord : RemovalRecord D)
  | batchRemove (removalRecords : List (RemovalRecord D))
      (preservedMembershipProofs : List (MsMembershipProof D))

namespace MutatorSetAccumulator

def isConsistent (A : MutatorSetAccumulator D) : Bool :=
  decide (aoclToSwbfiLeafCounts A.aocl.numLeafs = A.swbfInactive.numLeafs) &&
    decide (Merkle.popCount A.aocl.numLeafs = A.aocl.peaks.length) &&
    decide (Merkle.popCount A.swbfInactive.numLeafs = A.swbfInactive.peaks.length)

/-- The window is sorted and within its size, and there are as many inactive chunks as belong to
the number of commitments. -/
structure Structured (A : MutatorSetAccumulator D) : Prop where
  sorted : A.swbfActive.sbf.Pairwise (· ≤ ·)
  lt_windowSize : ∀ l ∈ A.swbfActive.sbf, l < windowSize
  numLeafs_eq : A.swbfInactive.numLeafs = aoclToSwbfiLeafCounts A.aocl.numLeafs
  isConsistent_eq : A.isConsistent = true

variable [Tip5 D] [MmrOps D] [DecidableEq D]

def call (A : MutatorSetAccumulator D) : AccumulatorCall D → Option (MutatorSetAccumulator D)
  | .add r => A.add r
  | .remove rr => A.remove rr
  | .batchRemove rrs preserved => (A.batchRemove rrs preserved).map (·.1)

end MutatorSetAccumulator

variable [Tip5 D] [MmrOps D] [DecidableEq D]

/-- The records of a call have passed `can_remove` of the accumulator before it. -/
def AccumulatorCall.Checked (A : MutatorSetAccumulator D) : AccumulatorCall D → Prop
  | .add _ => True
  | .remove rr => A.canRemove rr = some true
  | .batchRemove rrs _ => ∀ rr ∈ rrs, A.canRemove rr = some true

instance (A : MutatorSetAccumulator D) : (c : AccumulatorCall D) → Decidable (c.Checked A)
  | .add _ => inferInstanceAs (Decidable True)
  | .remove rr => inferInstanceAs (Decidable (A.canRemove rr = some true))
  | .batchRemove rrs _ => inferInstanceAs (Decidable (∀ rr ∈ rrs, A.canRemove rr = some true))

variable [Inhabited D]

omit [MmrOps D] [DecidableEq D] in
theorem Ledger.structured_accumulator (L : Ledger D) : L.accumulator.Structured where
  sorted := SlidingFilter.pairwise_window
  lt_windowSize := fun l hl => SlidingFilter.lt_of_mem_window L.bits_lt hl
  numLeafs_eq := L.length_inactiveLeafs
  isConsistent_eq := by
    have hleafs : aoclToSwbfiLeafCounts L.commitments.length = L.inactiveLeafs.length :=
      L.length_inactiveLeafs.symm
    have hpeaks : ∀ n, Merkle.popCount n = (Merkle.peakHeights n).length := fun n => by
      rw [Merkle.popCount, Merkle.peakHeights, List.length_reverse]
    simp [MutatorSetAccumulator.isConsistent, hleafs, hpeaks]

namespace MutatorSetAccumulator

omit [Inhabited D] in
/-- A batch removal ends in the same accumulator whatever proofs are preserved. -/
theorem batchRemove_fst [MmrOps.MutatesAlike D] {A : MutatorSetAccumulator D}
    {rrs : List (RemovalRecord D)} {preserved : List (MsMembershipProof D)}
    {r : MutatorSetAccumulator D × List (MsMembershipProof D) × List (ℕ × Chunk)}
    (hr : A.batchRemove rrs preserved = some r) :
    ∃ r', A.batchRemove rrs [] = some r' ∧ r'.1 = r.1 := by
  simp only [batchRemove, bind_eq_some, some_inj] at hr
  obtain ⟨collected, hcollected, preimage, hpreimage, changed, hchanged, mutated, hmutated, rfl⟩ :=
    hr
  obtain ⟨mutated', hmutated', hfst⟩ := map_eq_some_iff.mp
    (MmrOps.MutatesAlike.batchMutateLeafAndUpdateMps_fst _ _ _ _ _ hmutated)
  refine ⟨(⟨A.aocl, mutated'.1, collected.1⟩, [], collected.2), ?_, ?_⟩
  · simp [batchRemove, hcollected, hpreimage, hchanged, hmutated']
  · exact congrArg (fun m => (⟨A.aocl, m, collected.1⟩ : MutatorSetAccumulator D)) hfst

variable [LawfulMmr D] [Tip5.CollisionFree D] [MmrOps.MutatesAlike D]

/-- **One checked call** leads from a ledger to a ledger. -/
theorem exists_ledger_of_call {L : Ledger D} {c : AccumulatorCall D} {A : MutatorSetAccumulator D}
    (hc : c.Checked L.accumulator) (hcall : L.accumulator.call c = some A) :
    ∃ L' : Ledger D, L'.accumulator = A := by
  cases c with
  | add r =>
    have hlt := lt_of_add_accumulator hcall
    rw [call, add_accumulator hlt, some_inj] at hcall
    exact ⟨_, hcall⟩
  | remove rr =>
    have hs := synced_of_canRemove hc
    exact ⟨_, (remove_accumulator hs hcall).symm⟩
  | batchRemove rrs preserved =>
    have hs : ∀ rr ∈ rrs, L.Synced rr := fun rr hrr =>
      synced_of_canRemove (hc rr hrr)
    obtain ⟨r, hr, rfl⟩ := map_eq_some_iff.mp hcall
    have hremovable := batchRemovable_of_batchRemove hs hr
    obtain ⟨r', hr', hfst⟩ := batchRemove_fst hr
    obtain ⟨m, hm⟩ := batchRemove_accumulator hremovable hs
    rw [hm, some_inj] at hr'
    exact ⟨_, by rw [← hfst, ← hr']⟩

/-- **Accumulators stay consistent.**  In every run of additions, checked removals and checked batch
removals from the empty accumulator, every accumulator is structured. -/
theorem structured_of_run {calls : List (AccumulatorCall D)} {As : List (MutatorSetAccumulator D)}
    (hrun : trace call .empty calls = some As)
    (hchecked : ∀ x ∈ steps MutatorSetAccumulator.empty calls As, x.2.Checked x.1) :
    ∀ A ∈ MutatorSetAccumulator.empty :: As, A.Structured := by
  have hall : ∀ A ∈ As, ∃ L : Ledger D, L.accumulator = A := by
    refine forall_trace_of_step (C := fun A c => c.Checked A) ?_ ⟨.empty, accumulator_empty⟩
      hrun hchecked
    intro A c A' hA hc hcall
    obtain ⟨L, rfl⟩ := hA
    exact exists_ledger_of_call hc hcall
  rw [List.forall_mem_cons]
  constructor
  · rw [← accumulator_empty]
    exact structured_accumulator _
  · intro A hA
    obtain ⟨L, rfl⟩ := hall A hA
    exact L.structured_accumulator

end MutatorSetAccumulator

open MutatorSetAccumulator

open SymbolicDigest (atom zero) in
/-- Nine items, so that the window slides; the first is removed by itself and the second in a batch,
each with the chunk that became inactive. -/
def nineItems : List (AccumulatorCall SymbolicDigest) :=
  (List.range 9).map (fun n => .add (commit (atom n) zero (digestHash zero))) ++
    [.remove ⟨.compute (atom 0) zero zero 0, ⟨[(0, [], .emptyChunk)]⟩⟩,
      .batchRemove [⟨.compute (atom 1) zero zero 1, ⟨[(0, [], ⟨List.range numTrials⟩)]⟩⟩] []]

theorem structured_of_run_nineItems :
    ∃ As, trace MutatorSetAccumulator.call .empty nineItems = some As ∧
      ∀ A ∈ MutatorSetAccumulator.empty :: As, A.Structured := by
  have hrun : ∃ As, trace MutatorSetAccumulator.call .empty nineItems = some As ∧
      ∀ x ∈ steps MutatorSetAccumulator.empty nineItems As, x.2.Checked x.1 := by decide +kernel
  obtain ⟨As, hAs, hchecked⟩ := hrun
  exact ⟨As, hAs, structured_of_run hAs hchecked⟩

end NyksNode
