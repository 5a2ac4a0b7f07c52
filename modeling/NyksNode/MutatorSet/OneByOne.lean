import NyksNode.MutatorSet.BatchRemoval
import NyksNode.MutatorSet.ItemBatch

/-!
# A batch of removals, one by one

`batch_remove` sets the indices of all its records in one pass and mutates every chunk once.  The
same records can be removed one after the other, if those still to come are kept current after
each removal.  Both ways end in the ledger with all indices set.

A proof that `batch_remove` preserves is in step with the result, and verifies as long as the
batch leaves an index of its item unset.  Removal records are not among what `batch_remove`
preserves: they have to be updated once for every record that was removed.
-/

namespace NyksNode

open List Option MutatorSetAccumulator

variable {D : Type} [Tip5 D] [MmrOps D]

/-- Remove the first `n` records of a list, and keep the rest of the list current. -/
def MutatorSetAccumulator.removeOneByOne : ℕ → MutatorSetAccumulator D → List (RemovalRecord D) →
      Option (MutatorSetAccumulator D × List (RemovalRecord D))
  | 0, A, pending => some (A, pending)
  | _ + 1, A, [] => some (A, [])
  | n + 1, A, rr :: pending => do
    let A' ← A.remove rr
    let pending' ← RemovalRecord.batchUpdateFromRemove pending rr
    removeOneByOne n A' pending'

variable [Inhabited D] [DecidableEq D] [LawfulMmr D]

namespace Ledger

variable {L : Ledger D}

/-- **One by one**, the indices of all removed records are set, and the rest stays in step. -/
theorem exists_removeOneByOne {removals kept : List (RemovalRecord D)}
    (hs : ∀ rr ∈ removals ++ kept, L.Synced rr)
    (ho : ∀ rr ∈ removals ++ kept, PendingUpdates.Ordinary rr) :
    ∃ (L' : Ledger D) (kept' : List (RemovalRecord D)),
      removeOneByOne removals.length L.accumulator (removals ++ kept) =
        some (L'.accumulator, kept') ∧
      L'.commitments = L.commitments ∧ L'.bits = (batchIndices removals : Multiset ℕ) + L.bits ∧
      (∀ rr ∈ kept', L'.Synced rr) ∧
      kept'.map (·.absoluteIndices) = kept.map (·.absoluteIndices) := by
  -- the records still to come change with every removal, their number does not
  induction hn : removals.length generalizing L removals kept with
  | zero =>
    obtain rfl := length_eq_zero_iff.mp hn
    exact ⟨L, kept, rfl, rfl, by simp [batchIndices], hs, rfl⟩
  | succ n ih =>
    obtain ⟨rr, removals, rfl⟩ := exists_cons_of_length_eq_add_one hn
    rw [cons_append, forall_mem_cons] at hs ho
    have hremove : L.accumulator.remove rr = some (L.remove rr hs.1).accumulator := by
      rw [MutatorSetAccumulator.remove, removeHelper_accumulator hs.1 (ho.1.removable hs.1),
        map_some]
    have hupdate := batchUpdateFromRemove_synced hs.1 hs.2 fun r hr => (ho.2 r hr).1
    rw [map_append] at hupdate
    have hmem : ∀ r ∈ removals.map (refreshFromRemove hs.1) ++ kept.map (refreshFromRemove hs.1),
        ∃ r₀ ∈ removals ++ kept, refreshFromRemove hs.1 r₀ = r := by
      intro r hr
      rw [← map_append] at hr
      exact mem_map.mp hr
    have hsynced : ∀ r ∈ removals.map (refreshFromRemove hs.1) ++ kept.map (refreshFromRemove hs.1),
        (L.remove rr hs.1).Synced r := by
      intro r hr
      obtain ⟨r₀, hr₀, rfl⟩ := hmem r hr
      exact hs.1.refreshFromRemove (hs.2 r₀ hr₀)
    have hordinary : ∀ r ∈
        removals.map (refreshFromRemove hs.1) ++ kept.map (refreshFromRemove hs.1),
        PendingUpdates.Ordinary r := by
      intro r hr
      obtain ⟨r₀, hr₀, rfl⟩ := hmem r hr
      exact (ho.2 r₀ hr₀).refreshFromRemove hs.1
    obtain ⟨L', kept', hrun, hcommitments, hbits, hkept, hindices⟩ :=
      ih hsynced hordinary (by simpa using hn)
    refine ⟨L', kept', ?_, hcommitments, ?_, hkept, ?_⟩
    · rw [cons_append, removeOneByOne, hremove, some_bind, hupdate, some_bind, hrun]
    · rw [hbits, bits_remove, AbsoluteIndexSet.bloomIndices_of_lt ho.1.2, ← Multiset.add_assoc,
        Multiset.add_comm (batchIndices _ : Multiset ℕ), Multiset.coe_add]
      simp [batchIndices, refreshFromRemove, flatMap_map]
    · rw [hindices, List.map_map]
      rfl

variable {rrs : List (RemovalRecord D)}

section
omit [MmrOps D] [DecidableEq D] [LawfulMmr D]

/-- Without indices that are narrowed, both ways lead to one ledger. -/
theorem eq_batchRemove {L' : Ledger D} (hr : L.BatchRemovable rrs) (hs : ∀ rr ∈ rrs, L.Synced rr)
    (ho : ∀ rr ∈ rrs, PendingUpdates.Ordinary rr) (hcommitments : L'.commitments = L.commitments)
    (hbits : L'.bits = (batchIndices rrs : Multiset ℕ) + L.bits) : L.batchRemove rrs hr = L' := by
  ext1
  · exact hcommitments.symm
  · rw [bits_batchRemove_of_ordinary hr hs ho, hbits]

/-- **A preserved proof is in step** with the ledger after the batch. -/
theorem Tracks.proofFromBatchRemove {item : D} {mp : MsMembershipProof D} (ht : L.Tracks item mp)
    (hr : L.BatchRemovable rrs) :
    (L.batchRemove rrs hr).Tracks item (proofFromBatchRemove hr mp) where
  leaf := ht.leaf
  authPath := ht.authPath
  synced := by
    refine ⟨ht.synced.bits_lt, ?_, ?_⟩
    · exact (congrArg List.toFinset ChunkDictionary.allChunkIndices_ofKeys).trans ht.synced.keys
    · simp [Ledger.proofFromBatchRemove, dictionary]
  nodup_keys := by simpa [Ledger.proofFromBatchRemove, dictionary] using ht.nodup_keys

end

variable [Tip5.CollisionFree D]

/-- A preserved proof verifies if the batch leaves an unset index of its item unset. -/
theorem verify_proofFromBatchRemove_iff {item : D} {mp : MsMembershipProof D}
    (ht : L.Tracks item mp) (hr : L.BatchRemovable rrs)
    (hbits : (L.batchRemove rrs hr).bits = (batchIndices rrs : Multiset ℕ) + L.bits) :
    (L.batchRemove rrs hr).accumulator.verify item (proofFromBatchRemove hr mp) = some true ↔
      ∃ i ∈ (mp.computeIndices item).toArray,
        L.accumulator.isAbsent (L.accumulator.drop item mp) i = some true ∧
          ∀ rr ∈ rrs, i ∉ rr.absoluteIndices.toArray := by
  rw [verify_tracks (ht.proofFromBatchRemove hr), Option.some_inj, List.any_eq_true]
  refine exists_congr fun i => and_congr_right fun hi => ?_
  have habsent : L.accumulator.isAbsent (L.accumulator.drop item mp) i =
      some (decide (i ∉ L.bits)) := isAbsent_synced ht.synced hi (ht.lt_of_mem hi)
  rw [habsent, hbits, Option.some_inj, decide_eq_true_eq, decide_eq_true_eq, Multiset.mem_add,
    not_or, and_comm]
  simp [batchIndices]

end Ledger

open Ledger

/-- **A batch of removals is the same removals one by one**, for records that are valid, name every
chunk once and have no index of more than 76 bits. -/
theorem MutatorSetAccumulator.batchRemove_eq_removeOneByOne [Tip5.CollisionFree D]
    {A : MutatorSetAccumulator D} (hA : A.WellFormed) {removals kept : List (RemovalRecord D)}
    {preserved : List (AuthenticatedItem D)}
    (hvalid : ∀ rr ∈ removals ++ kept, rr.validate A = true)
    (ho : ∀ rr ∈ removals ++ kept, PendingUpdates.Ordinary rr)
    (hpreserved : ∀ it ∈ preserved, A.Proves it.item it.msMembershipProof) :
    ∃ A' mps differences kept',
      A.batchRemove removals (preserved.map (·.msMembershipProof)) = some (A', mps, differences) ∧
      A.removeOneByOne removals.length (removals ++ kept) = some (A', kept') ∧
      kept'.map (·.absoluteIndices) = kept.map (·.absoluteIndices) ∧
      (∀ rr ∈ kept', rr.validate A' = true) ∧
      List.Forall₂ (fun it mp => (A'.drop it.item mp).validate A' = true ∧
        (A'.verify it.item mp = some true ↔
          ∃ i ∈ (it.msMembershipProof.computeIndices it.item).toArray,
            A.isAbsent (A.drop it.item it.msMembershipProof) i = some true ∧
              ∀ rr ∈ removals, i ∉ rr.absoluteIndices.toArray)) preserved mps := by
  obtain ⟨L, rfl⟩ := hA
  have hs : ∀ rr ∈ removals ++ kept, L.Synced rr := fun rr hrr =>
    (validate_accumulator_iff L rr).mp (hvalid rr hrr)
  have hs' : ∀ rr ∈ removals, L.Synced rr := fun rr hrr => hs rr (mem_append_left _ hrr)
  have ho' : ∀ rr ∈ removals, PendingUpdates.Ordinary rr := fun rr hrr =>
    ho rr (mem_append_left _ hrr)
  have hr := batchRemovable_of_ordinary hs' ho'
  obtain ⟨L', kept', hrun, hcommitments, hbits, hkept, hindices⟩ :=
    exists_removeOneByOne hs ho
  obtain rfl := eq_batchRemove hr hs' ho' hcommitments hbits
  have ht : ∀ it ∈ preserved, L.Tracks it.item it.msMembershipProof := fun it hit =>
    tracks_of_proves (hpreserved it hit)
  have hchunks : ∀ mp ∈ preserved.map (·.msMembershipProof),
      mp.targetChunks = L.dictionary mp.targetChunks.allChunkIndices := by
    intro mp hmp
    obtain ⟨it, hit, rfl⟩ := mem_map.mp hmp
    exact (ht it hit).synced.chunks
  have hkeys : ∀ mp ∈ preserved.map (·.msMembershipProof),
      ∀ c ∈ mp.targetChunks.allChunkIndices, c < L.batchIndex := by
    intro mp hmp c hc
    obtain ⟨it, hit, rfl⟩ := mem_map.mp hmp
    exact (ht it hit).synced.key_lt hc
  obtain ⟨m, hbatch⟩ := batchRemove_preserved hr hs' hchunks hkeys
  refine ⟨_, _, m, kept', hbatch, hrun, hindices, ?_, ?_⟩
  · intro rr hrr
    exact (validate_accumulator_iff _ rr).mpr (hkept rr hrr)
  · rw [List.map_map, forall₂_map_right_iff, forall₂_same]
    intro it hit
    constructor
    · exact (validate_accumulator_iff _ _).mpr ((ht it hit).proofFromBatchRemove hr).synced
    · exact verify_proofFromBatchRemove_iff (ht it hit) hr hbits

/-! ## Nine coins -/

namespace Coins

/-- The first coin is removed, the record of the second is kept current, and the proof of the third
is preserved. -/
theorem batchRemove_eq_removeOneByOne_nine : ∃ A' mps differences kept',
      nine.accumulator.batchRemove [record nine [0] 0] [(coin nine [0] 2).msMembershipProof] =
        some (A', mps, differences) ∧
      nine.accumulator.removeOneByOne 1 [record nine [0] 0, record nine [0] 1] = some (A', kept') ∧
      ∀ rr ∈ kept', rr.validate A' = true := by
  have hvalid : ∀ rr ∈ [record nine [0] 0] ++ [record nine [0] 1],
      rr.validate nine.accumulator = true := by decide +kernel
  have hordinary : ∀ rr ∈ [record nine [0] 0] ++ [record nine [0] 1],
      rr.targetChunks.allChunkIndices.Nodup ∧
        ∀ i ∈ rr.absoluteIndices.toArray, i < 2 ^ 76 := by decide +kernel
  have hproves : ∀ it ∈ [coin nine [0] 2], nine.accumulator.Proves it.item it.msMembershipProof :=
    forall_mem_singleton.mpr ⟨by decide +kernel, by decide +kernel, by decide⟩
  obtain ⟨A', mps, differences, kept', hbatch, hrun, -, hkept, -⟩ :=
    batchRemove_eq_removeOneByOne (wellFormed 9 (by decide)) hvalid
      hordinary hproves
  exact ⟨A', mps, differences, kept', hbatch, hrun, hkept⟩

/-- Removing the first coin in a batch leaves the record of the second invalid, and the preserved
proof of the first does not verify any more. -/
theorem batchRemove_leaves_stale : ∃ A' mps differences,
      (record nine [0] 0).validate nine.accumulator = true ∧
      (record nine [0] 1).validate nine.accumulator = true ∧
      nine.accumulator.verify (coin nine [0] 0).item (coin nine [0] 0).msMembershipProof =
        some true ∧
      nine.accumulator.batchRemove [record nine [0] 0] [(coin nine [0] 0).msMembershipProof] =
        some (A', mps, differences) ∧ (record nine [0] 1).validate A' = false ∧
      ∀ mp ∈ mps, A'.verify (coin nine [0] 0).item mp = some false := by
  simp only [exists_and_left]
  decide +kernel

end Coins

end NyksNode
