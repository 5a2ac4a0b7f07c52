import NyksNode.Archival.MmrLeafs
import NyksNode.Archival.MutatorSet
import NyksNode.MutatorSet.BatchRemoval

/-!
# The archival mutator set refines the ledger

The archival mutator set stores everything that a ledger determines: all nodes of both
ranges, the active window and every inactive chunk.  Adding, removing and removing a batch
follow the ledger as the accumulator does.
-/

namespace NyksNode

open List Function

namespace ArchivalMutatorSet
variable {D : Type} [Tip5 D] [Inhabited D] [MmrNodeIndexing]

/-- The set stores what a ledger determines. -/
structure Reflects (a : ArchivalMutatorSet D) (L : Ledger D) : Prop where
  aocl : a.aocl.Holds L.commitments
  swbfInactive : a.swbfInactive.Holds L.inactiveLeafs
  swbfActive : a.swbfActive = L.window
  chunks : a.chunks = (List.range L.batchIndex).map L.chunk

omit [MmrNodeIndexing] in
theorem Reflects.newEmpty :
    (ArchivalMutatorSet.newEmpty : ArchivalMutatorSet D).Reflects .empty where
  aocl := .new
  swbfInactive := by
    rw [Ledger.inactiveLeafs, Ledger.batchIndex_empty]
    exact .new
  swbfActive := by
    have hempty := congrArg (·.swbfActive) (Ledger.accumulator_empty (D := D))
    exact hempty.symm
  chunks := by
    rw [Ledger.batchIndex_empty]
    rfl

namespace Reflects
variable {a : ArchivalMutatorSet D} {L : Ledger D}

/-! ## Reading -/

theorem accumulator_eq (h : a.Reflects L) : a.accumulator = some L.accumulator := by
  rw [accumulator, h.aocl.toAccumulatorAsync_eq, h.swbfInactive.toAccumulatorAsync_eq, h.swbfActive]
  rfl

theorem getBatchIndexAsync_eq (h : a.Reflects L) : a.getBatchIndexAsync = some L.batchIndex := by
  rw [getBatchIndexAsync, h.aocl.numLeafs_eq]
  rfl

section
omit [MmrNodeIndexing]

theorem length_chunks (h : a.Reflects L) : a.chunks.length = L.batchIndex := by
  rw [h.chunks, length_map, length_range]

theorem getElem?_chunks (h : a.Reflects L) {c : ℕ} (hc : c < L.batchIndex) :
    a.chunks[c]? = some (L.chunk c) := by
  rw [h.chunks, getElem?_map, getElem?_range hc, Option.map_some]

end

/-! ## Adding -/

theorem add (h : a.Reflects L) (r : AdditionRecord D) (hlt : L.commitments.length + 1 < u64Bound) :
    ∃ a', a.add r = some a' ∧ a'.Reflects (L.add r.canonicalCommitment hlt) := by
  obtain ⟨aocl, haocl, hholds⟩ := h.aocl.append_eq_some r.canonicalCommitment
  cases hs : windowSlides L.commitments.length with
  | false =>
    refine ⟨{ a with aocl := aocl }, ?_, hholds, ?_, ?_, ?_⟩
    · simp [ArchivalMutatorSet.add, addHelper, h.aocl.numLeafs_eq, haocl, hs, pushChunk]
    · rw [Ledger.inactiveLeafs_add_of_not_slides _ _ hs]
      exact h.swbfInactive
    · rw [Ledger.window_add_of_not_slides _ _ hs]
      exact h.swbfActive
    · rw [Ledger.batchIndex_add, hs]
      exact h.chunks
  | true =>
    obtain ⟨swbfInactive, hinactive, hholds'⟩ :=
      h.swbfInactive.append_eq_some (L.chunk L.batchIndex).hash
    refine ⟨⟨aocl, swbfInactive, L.window.slideWindow, a.chunks ++ [L.chunk L.batchIndex]⟩,
      ?_, hholds, ?_, ?_, ?_⟩
    · simp [ArchivalMutatorSet.add, addHelper, h.aocl.numLeafs_eq, haocl, hs, pushChunk,
        h.swbfActive, Ledger.slidChunk_window, h.swbfInactive.numLeafs_eq, hinactive,
        h.length_chunks]
    · rw [Ledger.inactiveLeafs_add_of_slides _ _ hs]
      exact hholds'
    · exact Ledger.slideWindow_window _ hlt hs
    · rw [Ledger.batchIndex_add, hs, if_pos rfl, range_succ, map_append, h.chunks]
      rfl

/-! ## Writing chunks -/

omit [Tip5 D] [Inhabited D] [MmrNodeIndexing] in
theorem setMany_eq_some {chunks : List Chunk} {keyVals : List (ℕ × Chunk)}
    (hlt : ∀ kv ∈ keyVals, kv.1 < chunks.length) : setMany chunks keyVals =
      some (Merkle.applyMutations chunks (keyVals.map fun kv => ⟨kv.1, kv.2, []⟩)) := by
  induction keyVals generalizing chunks with
  | nil => rfl
  | cons kv keyVals ih =>
    rw [setMany, foldlM_cons, storageSet_of_lt _ (hlt kv mem_cons_self), some_bind]
    refine ih fun kv' hmem => ?_
    rw [length_set]
    exact hlt kv' (mem_cons_of_mem _ hmem)

theorem writeChunks [DecidableEq D] (h : a.Reflects L) (L' : Ledger D)
    (hindex : L'.batchIndex = L.batchIndex)
    {keys : List ℕ} (hnd : keys.Nodup) (hkeys : ∀ c ∈ keys, c < L.batchIndex)
    (hsame : ∀ c < L.batchIndex, c ∉ keys → L.chunk c = L'.chunk c) :
    setMany a.chunks (keys.map fun c => (c, L'.chunk c)) =
        some ((List.range L'.batchIndex).map L'.chunk) ∧
      ∃ m, a.swbfInactive.batchMutateLeafAndUpdateMps []
          (keys.map fun c => (c, (L'.chunk c).hash)) = some (m, [], []) ∧
        m.Holds L'.inactiveLeafs := by
  constructor
  · rw [setMany_eq_some, h.chunks, hindex, Merkle.applyMutations_map_range]
    · simpa [comp_def] using hnd
    · simp
    · simpa [comp_def] using hsame
    · simpa [h.length_chunks] using hkeys
  · have hnd' : ((keys.map fun c => (c, (L'.chunk c).hash (D := D))).map (·.1)).Nodup := by
      simpa [comp_def] using hnd
    obtain ⟨m, hm, hholds⟩ :=
      h.swbfInactive.batchMutateLeafAndUpdateMps_nil hnd' (by simpa using hkeys)
    refine ⟨m, hm, ?_⟩
    rwa [Ledger.inactiveLeafs, Merkle.applyMutations_map_range (g := fun c => (L'.chunk c).hash),
      ← hindex, ← Ledger.inactiveLeafs] at hholds
    · simpa [comp_def] using hnd
    · simp
    · intro c hc hnot
      rw [hsame c hc (by simpa [comp_def] using hnot)]

/-! ## Removing -/

omit [Tip5 D] [Inhabited D] [MmrNodeIndexing] in
/-- Indices are narrowed as in the accumulator, which is then given indices in the window. -/
theorem insertActive_eq_bloomIndex {start : ℕ} {w : ActiveWindow} {is : List ℕ}
    (his : ∀ i ∈ is, start ≤ bloomIndex i ∧ bloomIndex i < start + windowSize) :
    insertActive start w is = MutatorSetAccumulator.insertActive start w (is.map bloomIndex) := by
  induction is generalizing w with
  | nil => rfl
  | cons i is ih =>
    rw [forall_mem_cons] at his
    obtain ⟨⟨hle, hlt⟩, his⟩ := his
    have hsub : bloomIndex i - start < u32Bound := by
      simp only [windowSize, u32Bound] at *
      omega
    have hmod : (i - start) % u32Bound = bloomIndex i - start := by
      rw [← Nat.mod_eq_of_lt hsub]
      rw [bloomIndex_eq_mod] at hle ⊢
      simp only [u32Bound]
      omega
    have hstart : start ≤ i := hle.trans (by rw [bloomIndex_eq_mod]; exact Nat.mod_le _ _)
    have htail := @ih
    simp only [insertActive, MutatorSetAccumulator.insertActive, map_cons, foldlM_cons] at htail ⊢
    rw [if_pos hstart, hmod, if_pos ⟨hle, hsub⟩]
    cases w.insert (bloomIndex i - start) with
    | none => rfl
    | some w' => exact htail his

omit [MmrNodeIndexing] in
theorem removeChunk_removalState {keys : List ℕ} (hnd : keys.Nodup)
    (hkeys : ∀ c ∈ keys, c < L.batchIndex) {g : ℕ × List ℕ}
    (hg : ∀ i ∈ g.2, chunkIndexOf i = g.1) (hin : g.1 < L.batchIndex → g.1 ∈ keys)
    (hbits : ∀ i ∈ g.2, bloomIndex i < L.windowStart + windowSize) (s : Multiset ℕ) :
    removeChunk L.batchIndex (L.removalState keys s) g =
      some (L.removalState keys (g.2.map bloomIndex + s)) := by
  have hbloom : (g.2.map bloomIndex).map bloomIndex = g.2.map bloomIndex := by
    simp [comp_def, bloomIndex_eq_mod]
  have hactive : L.batchIndex ≤ g.1 → ∀ j ∈ g.2.map bloomIndex,
      L.windowStart ≤ j ∧ j < L.windowStart + windowSize := by
    intro hle j hj
    obtain ⟨i, hi, rfl⟩ := mem_map.mp hj
    refine ⟨?_, hbits i hi⟩
    rw [Ledger.windowStart, ← Nat.le_div_iff_mul_le chunkSize_pos, bloomIndex_div, hg i hi]
    exact hle
  have hstep := Ledger.removeChunk_removalState hnd hkeys (g := (g.1, g.2.map bloomIndex))
    (fun j hj => by
      obtain ⟨i, hi, rfl⟩ := mem_map.mp hj
      rw [← bloomIndex_div, bloomIndex_eq_mod (bloomIndex i), bloomIndex_eq_mod, Nat.mod_mod,
        ← bloomIndex_eq_mod, bloomIndex_div, hg i hi]) hin hactive s
  rw [hbloom] at hstep
  rw [← hstep, removeChunk, MutatorSetAccumulator.removeChunk]
  by_cases hle : L.batchIndex ≤ g.1
  · have hinsert := insertActive_eq_bloomIndex (w := (L.removalState keys s).1)
      fun i hi => hactive hle _ (mem_map_of_mem hi)
    rw [Ledger.windowStart] at hinsert
    rw [if_pos hle, if_pos hle, hinsert]
  · simp [hle, comp_def, bloomIndex_mod]

variable [DecidableEq D]

theorem remove (h : a.Reflects L) {rr : RemovalRecord D} (hs : L.Synced rr)
    (hnd : rr.targetChunks.allChunkIndices.Nodup) :
    ∃ a', a.remove rr = some a' ∧ a'.Reflects (L.remove rr hs) := by
  have hloop : rr.getChunkidxToIndicesDict.foldlM (removeChunk L.batchIndex)
      (L.window, rr.targetChunks) = some (L.removalState rr.targetChunks.allChunkIndices
        (rr.absoluteIndices.bloomIndices + L.bits)) := by
    refine Ledger.foldlM_removalState hs fun s g hg => ?_
    have hmem := fun i (hi : i ∈ g.2) => chunkIndexOf_of_mem_indicesToHashMap hg hi
    refine removeChunk_removalState hnd (fun c hc => hs.key_lt hc) (fun i hi => (hmem i hi).2)
      (fun hlt => ?_) (fun i hi => ?_) s
    · exact hs.mem_keys.mpr ⟨hlt, ((mem_groupByKey chunkIndexOf).mp hg).1⟩
    · exact hs.bits_lt _ (AbsoluteIndexSet.mem_bloomIndices.mpr ⟨i, (hmem i hi).1, rfl⟩)
  obtain ⟨hchunks, m, hm, hholds⟩ := h.writeChunks (L.remove rr hs) rfl hnd
    (fun c hc => hs.key_lt hc)
    (fun c hc hnot => (Ledger.chunk_remove_of_notMem hs hc hnot).symm)
  refine ⟨⟨a.aocl, m, (L.remove rr hs).window, (range L.batchIndex).map (L.remove rr hs).chunk⟩,
    ?_, h.aocl, hholds, rfl, rfl⟩
  have hleafs : (L.removalState rr.targetChunks.allChunkIndices
      (rr.absoluteIndices.bloomIndices + L.bits)).2.indicesAndLeafs =
      rr.targetChunks.allChunkIndices.map fun c => (c, ((L.remove rr hs).chunk c).hash) := by
    simp only [Ledger.removalState, ChunkDictionary.indicesAndLeafs,
      ChunkDictionary.dictionary_ofKeys, map_map]
    rfl
  have hnew : ((L.removalState rr.targetChunks.allChunkIndices
      (rr.absoluteIndices.bloomIndices + L.bits)).2.dictionary.map fun e => (e.1, e.2.2)) =
      rr.targetChunks.allChunkIndices.map fun c => (c, (L.remove rr hs).chunk c) := by
    simp only [Ledger.removalState, ChunkDictionary.dictionary_ofKeys, map_map]
    rfl
  simp only [ArchivalMutatorSet.remove, removeHelper, h.getBatchIndexAsync_eq, h.swbfActive, hloop,
    hleafs, hm, hnew, hchunks, some_bind]
  rfl

/-! ## Removing a batch -/

omit [Inhabited D] [MmrNodeIndexing] in
theorem foldlM_collectChunk {f : ℕ → MmrMembershipProof D × Chunk} {es : List (ChunkEntry D)}
    (hes : ∀ e ∈ es, e.2 = f e.1) : es.foldlM collectChunk [] =
      some ((collectKeys (es.map (·.1))).map fun c => (c, (f c).2)) := by
  have hstep : ∀ keys : List ℕ, ∀ e ∈ es, collectChunk (keys.map fun c => (c, (f c).2)) e =
        some ((e.1 :: keys.erase e.1).map fun c => (c, (f c).2)) := by
    intro keys e he
    obtain ⟨c, v⟩ := e
    obtain rfl : v = f c := hes _ he
    rw [collectChunk, lookup_map_entries]
    by_cases hc : c ∈ keys
    · simp only [if_pos hc, if_true, eraseP_map_entries]
      rfl
    · simp only [if_neg hc, erase_of_not_mem hc]
      rfl
  have hfold := foldlM_simulates (fun keys : List ℕ => keys.map fun c => (c, (f c).2))
    (fun keys (e : ChunkEntry D) => e.1 :: keys.erase e.1) hstep []
  rw [map_nil] at hfold
  rw [hfold, collectKeys, foldl_map]

theorem batchRemove (h : a.Reflects L) {rrs : List (RemovalRecord D)}
    (hs : ∀ rr ∈ rrs, L.Synced rr) (hr : L.BatchRemovable rrs) :
    ∃ a', a.batchRemove rrs = some a' ∧ a'.Reflects (L.batchRemove rrs hr) := by
  obtain ⟨w, m, hcollect, rfl, hm⟩ := Ledger.exists_collectDifferences hr
  have hpreimage := foldlM_collectChunk (Ledger.entry_of_mem_batch hs)
  have hcombine : ((Ledger.batchKeys rrs).map fun c => (c, (L.authenticatedChunk c).2)).mapM
      (combineDifference m) =
      some (((Ledger.batchKeys rrs).map fun c => (c, (L.authenticatedChunk c).2)).map fun e =>
        (e.1, (L.batchRemove rrs hr).chunk e.1)) := by
    refine mapM_eq_some fun e he => ?_
    obtain ⟨c, hc, rfl⟩ := mem_map.mp he
    obtain ⟨d, hd, hcombine⟩ := hm c hc (Ledger.lt_of_mem_batchKeys hs hc)
    rw [combineDifference, hd, Option.map_some, ← hcombine]
    rfl
  obtain ⟨hchunks, mmr, hmmr, hholds⟩ := h.writeChunks (L.batchRemove rrs hr) rfl
    (Ledger.nodup_batchKeys rrs) (fun c hc => Ledger.lt_of_mem_batchKeys hs hc)
    (fun c hc hnot => (Ledger.chunk_batchRemove_of_notMem hr hs hc hnot).symm)
  refine ⟨⟨a.aocl, mmr, (L.batchRemove rrs hr).window,
    (range L.batchIndex).map (L.batchRemove rrs hr).chunk⟩, ?_, h.aocl, hholds, rfl, rfl⟩
  have hcollect' : (rrs.flatMap fun rr => rr.absoluteIndices.toArray).foldlM
      (MutatorSetAccumulator.collectDifferences (L.batchIndex * chunkSize)) (L.window, []) =
      some ((L.batchRemove rrs hr).window, m) := hcollect
  have hcombine' : ((collectKeys ((rrs.flatMap fun rr => rr.targetChunks.dictionary).map
      (·.1))).map fun c => (c, (L.authenticatedChunk c).2)).mapM (combineDifference m) =
      some ((Ledger.batchKeys rrs).map fun c => (c, (L.batchRemove rrs hr).chunk c)) := by
    rw [show collectKeys _ = Ledger.batchKeys rrs from rfl, hcombine, map_map]
    rfl
  simp only [ArchivalMutatorSet.batchRemove, h.getBatchIndexAsync_eq, h.swbfActive, hcollect',
    hpreimage, hcombine', hchunks, map_map, comp_def, hmmr, some_bind]
  rfl

end Reflects

end ArchivalMutatorSet

end NyksNode
