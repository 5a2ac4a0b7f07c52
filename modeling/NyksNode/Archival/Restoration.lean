import NyksNode.Archival.Refinement

/-!
# Restoring membership proofs

The archival mutator set can make the membership proof of every item that was ever added,
from the item, its randomness and its leaf index.  The restored proof is in step with the
ledger, so it verifies exactly if one of the item's indices is unset.

Together with the operations of the set this says that the archival mutator set can stand in
for the accumulator.
-/

namespace NyksNode

open List Option Ledger AbsoluteIndexSet MutatorSetAccumulator

namespace ArchivalMutatorSet
variable {D : Type} [Tip5 D] [Inhabited D] [MmrNodeIndexing]

namespace Reflects
variable {a : ArchivalMutatorSet D} {L : Ledger D}

/-! ## Chunks of an index set -/

theorem restoreChunk_eq_some (h : a.Reflects L) {keys : List ℕ} (hnd : keys.Nodup) {c : ℕ}
    (hc : c < L.batchIndex) :
    ∃ keys', a.restoreChunk (L.dictionary keys) (c, L.chunk c) = some (L.dictionary keys') ∧
      keys'.Nodup ∧ ∀ c', c' ∈ keys' ↔ c' = c ∨ c' ∈ keys := by
  obtain ⟨keys', hinsert, hnd', hmem⟩ :=
    ChunkDictionary.exists_insert_ofKeys (f := L.authenticatedChunk) hnd c
  refine ⟨keys', ?_, hnd', hmem⟩
  have hproof := h.swbfInactive.proveMembershipAsync_eq (i := c) (by simpa using hc)
  rw [restoreChunk, if_pos (by rwa [h.length_chunks]), hproof]
  exact congrArg some hinsert

theorem foldlM_restoreChunk (h : a.Reflects L) {keys cs : List ℕ} (hnd : keys.Nodup)
    (hcs : ∀ c ∈ cs, c < L.batchIndex) :
    ∃ keys', (cs.map fun c => (c, L.chunk c)).foldlM a.restoreChunk (L.dictionary keys) =
        some (L.dictionary keys') ∧ keys'.Nodup ∧ ∀ c, c ∈ keys' ↔ c ∈ cs ∨ c ∈ keys := by
  induction cs generalizing keys with
  | nil => exact ⟨keys, rfl, hnd, by simp⟩
  | cons c cs ih =>
    obtain ⟨keys₁, hstep, hnd₁, hmem₁⟩ := h.restoreChunk_eq_some hnd (hcs c mem_cons_self)
    obtain ⟨keys', hrun, hnd', hmem'⟩ := ih hnd₁ fun c' hc' => hcs c' (mem_cons_of_mem _ hc')
    refine ⟨keys', ?_, hnd', fun c' => ?_⟩
    · rw [map_cons, foldlM_cons, hstep]
      exact hrun
    · rw [hmem', hmem₁, mem_cons]
      tauto

/-- The chunks of an index set that is not narrowed are those it requires. -/
theorem restoreTargetChunks_eq_some (h : a.Reflects L) {s : AbsoluteIndexSet}
    (hs : ∀ i ∈ s.toArray, i < 2 ^ 76) :
    ∃ keys, a.restoreTargetChunks s = some (L.dictionary keys) ∧ keys.Nodup ∧
      keys.toFinset = L.requiredChunks s := by
  set cs := (s.toArray.filter fun i => decide (i < L.windowStart)).map chunkIndexOf with hcs
  have hmem : ∀ c, c ∈ cs ↔ c < L.batchIndex ∧ ∃ i ∈ s.toArray, chunkIndexOf i = c := by
    intro c
    have hlt : ∀ i ∈ s.toArray, i < L.windowStart ↔ chunkIndexOf i < L.batchIndex := by
      intro i hi
      rw [chunkIndexOf_of_lt (hs i hi), div_lt_batchIndex_iff]
    simp only [hcs, List.mem_map, List.mem_filter, decide_eq_true_eq]
    constructor
    · rintro ⟨i, ⟨hi, hstart⟩, rfl⟩
      exact ⟨(hlt i hi).mp hstart, i, hi, rfl⟩
    · rintro ⟨hc, i, hi, rfl⟩
      exact ⟨i, ⟨hi, (hlt i hi).mpr hc⟩, rfl⟩
  have hchunks : cs.mapM (a.chunks[·]?) = some (cs.map L.chunk) :=
    mapM_eq_some fun c hc => h.getElem?_chunks ((hmem c).mp hc).1
  have hzip : cs.zip (cs.map L.chunk) = cs.map fun c => (c, L.chunk c) := by
    have hmap := List.zip_map' (f := id) (g := L.chunk) (l := cs)
    rwa [List.map_id] at hmap
  obtain ⟨keys, hrun, hnd, hkeys⟩ := h.foldlM_restoreChunk List.nodup_nil
    (fun c hc => ((hmem c).mp hc).1)
  refine ⟨keys, ?_, hnd, ?_⟩
  · have hstart : L.batchIndex * chunkSize = L.windowStart := rfl
    simp only [restoreTargetChunks, h.getBatchIndexAsync_eq, some_bind,
      hstart, ← hcs, hchunks, hzip]
    exact hrun
  · ext c
    rw [List.mem_toFinset, hkeys, hmem, mem_requiredChunks]
    simp

/-! ## Proofs -/

/-- **A restored proof is in step.** -/
theorem restoreMembershipProof_tracks (h : a.Reflects L)
    {item senderRandomness receiverPreimage : D} {i : ℕ} (hi : L.commitments[i]? =
      some (commit item senderRandomness (digestHash receiverPreimage)).canonicalCommitment) :
    ∃ mp, a.restoreMembershipProof item senderRandomness receiverPreimage i = some (.ok mp) ∧
      L.Tracks item mp ∧
      mp.computeIndices item = .compute item senderRandomness receiverPreimage i := by
  have hlength := (List.getElem?_eq_some_iff.mp hi).1
  have hleaf : i < u64Bound := hlength.trans L.length_lt
  obtain ⟨keys, hchunks, hnd, hrequired⟩ := h.restoreTargetChunks_eq_some
    (s := .compute item senderRandomness receiverPreimage i)
    (fun j hj => lt_of_mem_toArray_compute _ _ _ hleaf hj)
  have hempty : a.aocl.isEmpty = false := by
    rw [h.aocl.isEmpty_eq, isEmpty_eq_false_iff]
    exact ne_nil_of_length_pos (by omega)
  have hpath : a.getAoclAuthenticationPath i = some (.ok (membershipProof L.commitments i)) := by
    rw [getAoclAuthenticationPath, h.aocl.numLeafs_eq, some_bind,
      if_neg (not_le.mpr hlength), h.aocl.proveMembershipAsync_eq hlength, Option.map_some]
  refine ⟨⟨senderRandomness, receiverPreimage, membershipProof L.commitments i, i,
    L.dictionary keys⟩, ?_, ⟨hi, rfl, ⟨?_, ?_, ?_⟩, ?_⟩, rfl⟩
  · simp [restoreMembershipProof, hempty, hpath, hchunks]
  · intro j hj
    have hj' :
        j ∈ (AbsoluteIndexSet.compute item senderRandomness receiverPreimage i).bloomIndices :=
      hj
    rw [bloomIndices_compute _ _ _ hleaf] at hj'
    have hbound := (bounds_of_mem_toArray_compute _ _ _ hleaf hj').2
    have hbatch : i / batchSize ≤ L.batchIndex :=
      Nat.div_le_div_right (by omega)
    have hstart : i / batchSize * chunkSize ≤ L.windowStart := Nat.mul_le_mul_right _ hbatch
    omega
  · rw [Ledger.dictionary, ChunkDictionary.allChunkIndices_ofKeys]
    exact hrequired
  · simp [Ledger.dictionary]
  · simpa [Ledger.dictionary] using hnd

theorem absoluteIndexSetWasApplied_eq (h : a.Reflects L) {s : AbsoluteIndexSet}
    (hs : ∀ i ∈ s.toArray, i < 2 ^ 76) (hbits : ∀ i ∈ s.toArray, i < L.windowStart + windowSize) :
    a.absoluteIndexSetWasApplied s = some (!s.toArray.any fun i => decide (i ∉ L.bits)) := by
  have hlookup : ∀ i ∈ s.toArray, (a.bloomFilterContainsInner i L.windowStart).map not =
      some (decide (i ∉ L.bits)) := by
    intro i hi
    by_cases hle : L.windowStart ≤ i
    · have hrelative : ¬ windowSize ≤ (i - L.windowStart) % u32Bound := by
        have hlt := hbits i hi
        have hmod := Nat.mod_le (i - L.windowStart) u32Bound
        omega
      simp [bloomFilterContainsInner, hle, hrelative, h.swbfActive,
        contains_window hle (hbits i hi)]
    · rw [bloomFilterContainsInner, if_neg hle, chunkIndexOf_of_lt (hs i hi),
        h.getElem?_chunks ((div_lt_batchIndex_iff L i).mpr (not_le.mp hle)),
        some_bind, contains_chunk, map_some, decide_not]
  have hany : s.toArray.anyM (fun i =>
      (a.bloomFilterContainsInner i (L.batchIndex * chunkSize)).map not) =
      some (s.toArray.any fun i => decide (i ∉ L.bits)) := anyM_eq_some hlookup
  simp [absoluteIndexSetWasApplied, h.getBatchIndexAsync_eq, hany]

theorem tryGetLeaf_eq (h : a.Reflects L) (i : ℕ) :
    a.swbfInactive.tryGetLeaf i = some ((a.chunks[i]?).map Chunk.hash) := by
  rw [h.swbfInactive.tryGetLeaf_eq, h.chunks, Ledger.inactiveLeafs, getElem?_map,
    getElem?_map, Option.map_map]
  rfl

end Reflects

end ArchivalMutatorSet

/-! ## Sequences of operations -/

inductive MutatorSetCall (D : Type) where
  | add (additionRecord : AdditionRecord D)
  | remove (removalRecord : RemovalRecord D)
  | batchRemove (removalRecords : List (RemovalRecord D))

namespace MutatorSetCall
variable {D : Type}

def additions : List (MutatorSetCall D) → List (AdditionRecord D)
  | [] => []
  | .add r :: calls => r :: additions calls
  | .remove _ :: calls => additions calls
  | .batchRemove _ :: calls => additions calls

theorem additions_cons (call : MutatorSetCall D) (calls : List (MutatorSetCall D)) :
    additions (call :: calls) = additions [call] ++ additions calls := by
  cases call <;> rfl

end MutatorSetCall

section
variable {D : Type} [Tip5 D] [MmrOps D] [DecidableEq D]

/-- An operation of the accumulator; removal records must be valid. -/
def MutatorSetAccumulator.applyValid (A : MutatorSetAccumulator D) :
    MutatorSetCall D → Option (MutatorSetAccumulator D)
  | .add r => A.add r
  | .remove rr => if rr.validate A then A.remove rr else none
  | .batchRemove rrs =>
    if rrs.all fun rr => rr.validate A then (A.batchRemove rrs []).map (·.1) else none

def ArchivalMutatorSet.apply [MmrNodeIndexing] (a : ArchivalMutatorSet D) :
    MutatorSetCall D → Option (ArchivalMutatorSet D)
  | .add r => a.add r
  | .remove rr => a.remove rr
  | .batchRemove rrs => a.batchRemove rrs

namespace ArchivalMutatorSet
variable [Inhabited D] [MmrNodeIndexing] [LawfulMmr D] [Tip5.CollisionFree D]
variable {a : ArchivalMutatorSet D} {L : Ledger D} {A : MutatorSetAccumulator D}

/-- **One operation.** -/
theorem Reflects.apply (h : a.Reflects L) {call : MutatorSetCall D}
    (hcall : L.accumulator.applyValid call = some A) :
    ∃ a' L', a.apply call = some a' ∧ a'.Reflects L' ∧ L'.accumulator = A ∧ L'.commitments =
        L.commitments ++ (MutatorSetCall.additions [call]).map (·.canonicalCommitment) := by
  cases call with
  | add r =>
    have hadd : L.accumulator.add r = some A := hcall
    have hlt := lt_of_add_accumulator hadd
    obtain ⟨a', ha, hreflects⟩ := h.add r hlt
    rw [add_accumulator hlt, some_inj] at hadd
    exact ⟨a', _, ha, hreflects, hadd, rfl⟩
  | remove rr =>
    rw [applyValid, ite_none_right_eq_some] at hcall
    obtain ⟨hvalid, hremove⟩ := hcall
    have hs := (validate_accumulator_iff L rr).mp hvalid
    obtain ⟨r, hr, -⟩ := map_eq_some_iff.mp hremove
    obtain ⟨a', ha, hreflects⟩ := h.remove hs (removable_of_removeHelper hr).nodup_keys
    exact ⟨a', _, ha, hreflects, (remove_accumulator hs hremove).symm, (append_nil _).symm⟩
  | batchRemove rrs =>
    rw [applyValid, ite_none_right_eq_some] at hcall
    obtain ⟨hvalid, hremove⟩ := hcall
    have hs : ∀ rr ∈ rrs, L.Synced rr := fun rr hrr =>
      (validate_accumulator_iff L rr).mp (all_eq_true.mp hvalid rr hrr)
    obtain ⟨r, hr, rfl⟩ := map_eq_some_iff.mp hremove
    have hbatch := batchRemovable_of_batchRemove hs hr
    obtain ⟨a', ha, hreflects⟩ := h.batchRemove hs hbatch
    obtain ⟨m, hm⟩ := batchRemove_accumulator hbatch hs
    rw [hm, some_inj] at hr
    exact ⟨a', _, ha, hreflects, by rw [← hr], (append_nil _).symm⟩

/-- **Any sequence of operations**, from sets that reflect one ledger. -/
theorem Reflects.foldlM_apply (h : a.Reflects L) {calls : List (MutatorSetCall D)}
    (hrun : calls.foldlM applyValid L.accumulator = some A) :
    ∃ a' L', calls.foldlM ArchivalMutatorSet.apply a = some a' ∧ a'.Reflects L' ∧
      L'.accumulator = A ∧ L'.commitments =
        L.commitments ++ (MutatorSetCall.additions calls).map (·.canonicalCommitment) := by
  induction calls generalizing a L with
  | nil =>
    obtain rfl : L.accumulator = A := by simpa using hrun
    exact ⟨a, L, rfl, h, rfl, (append_nil _).symm⟩
  | cons call calls ih =>
    rw [foldlM_cons_eq_some] at hrun
    obtain ⟨A₁, hcall, hrun⟩ := hrun
    obtain ⟨a₁, L₁, ha₁, h₁, rfl, hc₁⟩ := h.apply hcall
    obtain ⟨a', L', ha', h', hA, hc'⟩ := ih h₁ hrun
    refine ⟨a', L', ?_, h', hA, ?_⟩
    · rw [foldlM_cons, ha₁]
      exact ha'
    · rw [hc', hc₁, MutatorSetCall.additions_cons call calls, map_append, append_assoc]

/-- **The archival mutator set refines the accumulator.**  What the empty accumulator goes through,
with removal records that are valid in their turn, the empty archival set goes through as well. -/
theorem refines_accumulator {calls : List (MutatorSetCall D)}
    (hrun : calls.foldlM MutatorSetAccumulator.applyValid .empty = some A) :
    ∃ a : ArchivalMutatorSet D, calls.foldlM ArchivalMutatorSet.apply .newEmpty = some a ∧
      a.accumulator = some A ∧
      (∀ i, a.swbfInactive.tryGetLeaf i = some ((a.chunks[i]?).map Chunk.hash)) ∧
      ∀ item senderRandomness receiverPreimage i, (MutatorSetCall.additions calls)[i]? =
            some (commit item senderRandomness (digestHash receiverPreimage)) → ∃ mp applied,
          a.restoreMembershipProof item senderRandomness receiverPreimage i = some (.ok mp) ∧
          a.absoluteIndexSetWasApplied
            (.compute item senderRandomness receiverPreimage i) = some applied ∧
          A.verify item mp = some (!applied) := by
  rw [← accumulator_empty] at hrun
  obtain ⟨a, L, ha, h, rfl, hcommitments⟩ := Reflects.newEmpty.foldlM_apply hrun
  refine ⟨a, ha, h.accumulator_eq, h.tryGetLeaf_eq, ?_⟩
  intro item senderRandomness receiverPreimage i hi
  have hleaf : L.commitments[i]? =
      some (commit item senderRandomness (digestHash receiverPreimage)).canonicalCommitment := by
    rw [hcommitments, show (empty : Ledger D).commitments = [] from rfl, nil_append,
      getElem?_map, hi, map_some]
  obtain ⟨mp, hrestore, htracks, hindices⟩ := h.restoreMembershipProof_tracks hleaf
  have hbits : ∀ j ∈ (mp.computeIndices item).toArray, j < L.windowStart + windowSize := by
    intro j hj
    have hbit := htracks.synced.bits_lt (bloomIndex j)
      (mem_bloomIndices.mpr ⟨j, hj, rfl⟩)
    rwa [bloomIndex_of_lt (htracks.lt_of_mem hj)] at hbit
  have happlied := h.absoluteIndexSetWasApplied_eq (fun j hj => htracks.lt_of_mem hj) hbits
  rw [hindices] at happlied
  refine ⟨mp, _, hrestore, happlied, ?_⟩
  rw [verify_tracks htracks, hindices, Bool.not_not]

end ArchivalMutatorSet

end

namespace ArchivalMutatorSet

open SymbolicDigest (atom zero) in
def twoItems : List (MutatorSetCall SymbolicDigest) :=
  [.add (commit (atom 1) zero (digestHash zero)), .add (commit (atom 2) zero (digestHash zero)),
    .remove ⟨.compute (atom 1) zero zero 0, .empty⟩,
    .batchRemove [⟨.compute (atom 2) zero zero 1, .empty⟩]]

theorem refines_accumulator_twoItems :
    ∃ (_ : MmrNodeIndexing) (A : MutatorSetAccumulator SymbolicDigest)
      (a : ArchivalMutatorSet SymbolicDigest),
      twoItems.foldlM MutatorSetAccumulator.applyValid .empty = some A ∧
      twoItems.foldlM ArchivalMutatorSet.apply .newEmpty = some a ∧ a.accumulator = some A := by
  let _ := MmrNodeIndexing.reference
  have hrun : (twoItems.foldlM applyValid .empty).isSome = true := by
    decide +kernel
  obtain ⟨A, hrun⟩ := isSome_iff_exists.mp hrun
  obtain ⟨a, ha, haccumulator, -⟩ := refines_accumulator hrun
  exact ⟨.reference, A, a, hrun, ha, haccumulator⟩

end ArchivalMutatorSet

end NyksNode
