import NyksNode.Archival.Refinement

/-!
# Undoing additions and removals

The archival mutator set can undo what was done last.  Undoing a removal takes the indices of
the record out of the ledger; undoing an addition drops the last commitment, and moves the
window back if it slid then.

A ledger holds no index behind its window.  So if a ledger without the last commitment exists
at all, the last chunk of the window is empty, and the window can move back.
-/

namespace NyksNode

open List SlidingFilter Ledger

namespace ArchivalMutatorSet
variable {D : Type} [Tip5 D]

/-! ## Undoing a removal -/

omit [Tip5 D] in
/-- First loop of `revert_remove`: the indices leave the window or go into the differences. -/
theorem foldlM_collectReversals {b : ℕ} {B Q : Multiset ℕ} {m : List (ℕ × Chunk)} (is : List ℕ)
    (hm : Differences Q m) (hb : b * chunkSize ≤ 2 ^ 76)
    (his : ∀ i ∈ is, i < b * chunkSize + windowSize) :
    ∃ m', is.foldlM (collectReversals (b * chunkSize))
        (⟨window chunkSize (is + B) b⟩, m) = some (⟨window chunkSize B b⟩, m') ∧
      Differences ((is : Multiset ℕ).filter (· < b * chunkSize) + Q) m' := by
  induction is generalizing Q m with
  | nil => exact ⟨m, by simp, by simpa using hm⟩
  | cons i is ih =>
    have htail := fun j hj => his j (mem_cons_of_mem i hj)
    rw [foldlM_cons, collectReversals, ← Multiset.cons_coe, Multiset.cons_add]
    by_cases hle : b * chunkSize ≤ i
    · have hlt : i - b * chunkSize < windowSize := by
        have := his i mem_cons_self
        omega
      have hmod : (i - b * chunkSize) % u32Bound = i - b * chunkSize := by
        refine Nat.mod_eq_of_lt (hlt.trans ?_)
        decide
      have hmem : i - b * chunkSize ∈
          window chunkSize (i ::ₘ (↑is + B)) b :=
        (sub_mem_window hle).mpr (Multiset.mem_cons_self i _)
      obtain ⟨m', hrun, hm'⟩ := ih hm htail
      refine ⟨m', ?_, ?_⟩
      · rw [if_pos hle, hmod, ActiveWindow.remove, if_pos ⟨hlt, hmem⟩, Option.map_some,
          reverse_erase_reverse_window hle]
        exact hrun
      · rwa [Multiset.filter_cons_of_neg (p := fun x => x < b * chunkSize) _ (not_lt.mpr hle)]
    · have hlt := not_le.mp hle
      obtain ⟨m₁, hinsert, hm₁⟩ := hm.insertDifference_eq_some (hlt.trans_le hb)
      obtain ⟨m', hrun, hm'⟩ := ih hm₁ htail
      refine ⟨m', ?_, ?_⟩
      · rw [if_neg hle, hinsert, window_cons_of_lt hlt]
        exact hrun
      · rw [Multiset.filter_cons_of_pos (p := fun x => x < b * chunkSize) _ hlt]
        rwa [Multiset.add_cons, ← Multiset.cons_add] at hm'

omit [Tip5 D] in
theorem subtract_chunk (Q B : Multiset ℕ) (c : ℕ) : Chunk.subtract ⟨chunk chunkSize (Q + B) c⟩
      ⟨chunk chunkSize Q c⟩ = some ⟨chunk chunkSize B c⟩ := by
  have hlift : ∀ (js l : List ℕ), js.foldlM (fun (c : Chunk) i =>
      if i ∈ c.relativeIndices then some (⟨c.relativeIndices.erase i⟩ : Chunk) else none) ⟨l⟩ =
      (js.foldlM (fun l i => if i ∈ l then some (l.erase i) else none) l).map Chunk.mk := by
    intro js
    induction js with
    | nil =>
      intro l
      rfl
    | cons j js ih =>
      intro l
      rw [foldlM_cons, foldlM_cons]
      by_cases hj : j ∈ l
      · simp [hj, ih]
      · simp [hj]
  rw [Chunk.subtract, hlift, foldlM_erase_chunk, Option.map_some]

variable [Inhabited D] [MmrNodeIndexing]

/-- Second loop of `revert_remove`: every chunk loses its difference. -/
theorem foldlM_subtractChunk {Q B : Multiset ℕ} {m : List (ℕ × Chunk)} {mmr : ArchivalMmr D}
    {chunks : List Chunk} (hnd : (m.map (·.1)).Nodup) (hm : ∀ e ∈ m, e.2 = ⟨chunk chunkSize Q e.1⟩)
    (hchunks : ∀ e ∈ m, chunks[e.1]? = some ⟨chunk chunkSize (Q + B) e.1⟩)
    (hmmr : mmr.Holds (chunks.map Chunk.hash)) : ∃ mmr', m.foldlM subtractChunk (mmr, chunks) =
        some (mmr', Merkle.applyMutations chunks
          (m.map fun e => ⟨e.1, ⟨chunk chunkSize B e.1⟩, []⟩)) ∧
      mmr'.Holds ((Merkle.applyMutations chunks
        (m.map fun e => ⟨e.1, ⟨chunk chunkSize B e.1⟩, []⟩)).map Chunk.hash) := by
  induction m generalizing mmr chunks with
  | nil => exact ⟨mmr, rfl, hmmr⟩
  | cons e m ih =>
    rw [map_cons, nodup_cons] at hnd
    have hget := hchunks e mem_cons_self
    have hlt := (List.getElem?_eq_some_iff.mp hget).1
    obtain ⟨mmr₁, hmutate, hmmr₁⟩ := hmmr.mutateLeaf_eq_some (i := e.1) (by simpa using hlt)
      (Chunk.hash ⟨chunk chunkSize B e.1⟩)
    rw [← map_set] at hmmr₁
    have hstep : subtractChunk (mmr, chunks) e =
        some (mmr₁, chunks.set e.1 ⟨chunk chunkSize B e.1⟩) := by
      simp [subtractChunk, hget, hm e mem_cons_self, subtract_chunk, hmutate,
        storageSet_of_lt _ hlt]
    obtain ⟨mmr', hrun, hmmr'⟩ := ih hnd.2 (fun e' he' => hm e' (mem_cons_of_mem _ he'))
      (fun e' he' => by
        have hne : e.1 ≠ e'.1 := fun heq => hnd.1 (heq ▸ mem_map_of_mem he')
        rw [getElem?_set_ne hne]
        exact hchunks e' (mem_cons_of_mem _ he')) hmmr₁
    refine ⟨mmr', ?_, hmmr'⟩
    rw [foldlM_cons, hstep]
    exact hrun

/-- The body of `revert_remove`, for any indices. -/
def revertIndices (a : ArchivalMutatorSet D) (indices : List ℕ) :
    Option (ArchivalMutatorSet D) := do
  let batchIndex ← a.getBatchIndexAsync
  let (swbfActive, differences) ←
    indices.foldlM (collectReversals (batchIndex * chunkSize)) (a.swbfActive, [])
  let (swbfInactive, chunks) ← differences.foldlM subtractChunk (a.swbfInactive, a.chunks)
  some { a with swbfInactive := swbfInactive, swbfActive := swbfActive, chunks := chunks }

omit [Inhabited D] in
theorem revertRemove_eq (a : ArchivalMutatorSet D) (rr : RemovalRecord D) :
    a.revertRemove rr = a.revertIndices rr.absoluteIndices.toArray := rfl

namespace Reflects
variable {a : ArchivalMutatorSet D} {L L' : Ledger D}

omit [MmrNodeIndexing] in
/-- The leafs of the inactive range are the digests of the chunks. -/
theorem map_hash_chunks (h : a.Reflects L) : a.chunks.map Chunk.hash = L.inactiveLeafs := by
  rw [h.chunks, map_map]
  rfl

theorem revertIndices (h : a.Reflects L) (L' : Ledger D) {is : List ℕ}
    (hcommitments : L'.commitments = L.commitments) (hbits : L.bits = (is : Multiset ℕ) + L'.bits) :
    ∃ a', a.revertIndices is = some a' ∧ a'.Reflects L' := by
  have hindex : L'.batchIndex = L.batchIndex := by rw [batchIndex, hcommitments]; rfl
  obtain ⟨m, hcollect, hm⟩ := foldlM_collectReversals (b := L.batchIndex) (B := L'.bits)
    is Differences.nil (L.windowStart_lt.le.trans (by norm_num))
    (fun i hi => L.bits_lt i (hbits ▸ Multiset.mem_add.mpr (Or.inl hi)))
  rw [Multiset.add_zero] at hm
  set Q := (is : Multiset ℕ).filter (· < L.batchIndex * chunkSize)
  -- an inactive chunk has the inactive indices only
  have hchunk : ∀ c < L.batchIndex, L.chunk c = ⟨chunk chunkSize (Q + L'.bits) c⟩ := by
    intro c hc
    ext1
    refine chunk_congr ?_
    rw [hbits, Multiset.filter_add, Multiset.filter_add, Multiset.filter_filter]
    congr 1
    apply Multiset.filter_congr
    intro i _
    constructor
    · intro hdiv
      exact ⟨hdiv, (Nat.div_lt_iff_lt_mul chunkSize_pos).mp (hdiv ▸ hc)⟩
    · exact And.left
  have hkeys : ∀ e ∈ m, e.1 < L.batchIndex := by
    intro e he
    obtain ⟨i, hi, hdiv⟩ := Multiset.mem_map.mp (hm.entry_of_mem he).1
    rw [← hdiv, Nat.div_lt_iff_lt_mul chunkSize_pos]
    exact (Multiset.mem_filter.mp hi).2
  obtain ⟨mmr, hsubtract, hholds⟩ := foldlM_subtractChunk (B := L'.bits) hm.nodup_keys
    (fun e he => (hm.entry_of_mem he).2)
    (fun e he => by rw [h.getElem?_chunks (hkeys e he), hchunk e.1 (hkeys e he)])
    (h.map_hash_chunks ▸ h.swbfInactive)
  have hnew : Merkle.applyMutations a.chunks
      (m.map fun e => ⟨e.1, ⟨chunk chunkSize L'.bits e.1⟩, []⟩) =
      (List.range L'.batchIndex).map L'.chunk := by
    rw [h.chunks, hindex]
    refine Merkle.applyMutations_map_range ?_ ?_ ?_
    · simpa [Function.comp_def] using hm.nodup_keys
    · intro x hx
      obtain ⟨e, -, rfl⟩ := mem_map.mp hx
      rfl
    · intro c hc hnot
      have hnot' : c ∉ Q.map (· / chunkSize) := by
        rw [← hm.mem_keys_iff]
        simpa [Function.comp_def] using hnot
      rw [hchunk c hc]
      ext1
      refine chunk_congr ?_
      have hnil : (Q.filter fun i => i / chunkSize = c) = 0 :=
        Multiset.filter_eq_nil.mpr fun i hi hdiv => hnot' (Multiset.mem_map.mpr ⟨i, hi, hdiv⟩)
      rw [Multiset.filter_add, hnil, Multiset.zero_add]
  rw [hnew] at hsubtract hholds
  refine ⟨⟨a.aocl, mmr, L'.window, (List.range L'.batchIndex).map L'.chunk⟩, ?_,
    hcommitments ▸ h.aocl, ?_, rfl, rfl⟩
  · have hwindow : a.swbfActive = ⟨window chunkSize
        ((is : Multiset ℕ) + L'.bits) L.batchIndex⟩ := by
      rw [h.swbfActive, Ledger.window, hbits]
    have hwindow' : L'.window = ⟨SlidingFilter.window chunkSize L'.bits L.batchIndex⟩ := by
      rw [Ledger.window, hindex]
    simp [ArchivalMutatorSet.revertIndices, h.getBatchIndexAsync_eq, hwindow, hcollect, hsubtract,
      hwindow']
  · rwa [map_map] at hholds

theorem revertRemove (h : a.Reflects L) (L' : Ledger D) {rr : RemovalRecord D}
    (hcommitments : L'.commitments = L.commitments)
    (hbits : L.bits = (rr.absoluteIndices.toArray : Multiset ℕ) + L'.bits) :
    ∃ a', a.revertRemove rr = some a' ∧ a'.Reflects L' :=
  h.revertIndices L' hcommitments hbits

/-! ## Undoing an addition -/

omit [Tip5 D] [Inhabited D] [MmrNodeIndexing] in
/-- The window of a ledger moves back to that of the ledger without the last commitment. -/
theorem slideWindowBack_window {d : D} (hcommitments : L.commitments = L'.commitments ++ [d])
    (hbits : L.bits = L'.bits) (hs : windowSlides L'.commitments.length = true) :
    L.window.slideWindowBack (L'.chunk L'.batchIndex) = some L'.window := by
  have hindex : L.batchIndex = L'.batchIndex + 1 := by
    rw [batchIndex, hcommitments, length_append, length_singleton,
      aoclToSwbfiLeafCounts_succ, if_pos hs]
    rfl
  have hempty : L.window.hasset (windowSize - chunkSize) windowSize = false := by
    rw [ActiveWindow.hasset, any_eq_false]
    intro l hl
    have hlt : l < windowSize - chunkSize := by
      refine lt_of_mem_window (b := L.batchIndex) (s := L.bits) ?_ hl
      intro i hi
      have hi' := L'.bits_lt i (hbits ▸ hi)
      have hsize : chunkSize ≤ windowSize := by decide
      rw [← batchIndex] at hi'
      rw [hindex, Nat.add_mul, Nat.one_mul]
      omega
    simp only [decide_eq_true_eq, not_and, not_lt]
    omega
  rw [ActiveWindow.slideWindowBack, hempty, if_neg Bool.false_ne_true, Ledger.window, hbits, hindex]
  exact congrArg (fun l => some (ActiveWindow.mk l)) (SlidingFilter.slide_window_back chunkSize_pos)

variable [DecidableEq D]

theorem revertAdd (h : a.Reflects L) (L' : Ledger D) {r : AdditionRecord D}
    (hcommitments : L.commitments = L'.commitments ++ [r.canonicalCommitment])
    (hbits : L.bits = L'.bits) : a.addIsReversible r = some true ∧
      ∃ a', a.revertAdd r = some a' ∧ a'.Reflects L' := by
  have hcount : a.aocl.numLeafs = some (L'.commitments.length + 1) := by
    rw [h.aocl.numLeafs_eq, hcommitments, length_append, length_singleton]
  have hlast : a.aocl.getLeafAsync L'.commitments.length = some r.canonicalCommitment := by
    rw [h.aocl.getLeafAsync_eq, hcommitments, getElem?_concat_length]
  obtain ⟨aocl, hremove, haocl⟩ := h.aocl.removeLastLeafAsync_eq_some
  rw [hcommitments, getLast?_concat] at hremove
  rw [hcommitments, dropLast_concat] at haocl
  refine ⟨by simp [addIsReversible, hcount, hlast], ?_⟩
  have hchunks : ∀ c, L.chunk c = L'.chunk c := by
    intro c
    rw [Ledger.chunk, hbits, Ledger.chunk]
  have hindex : L.batchIndex = if windowSlides L'.commitments.length then L'.batchIndex + 1
      else L'.batchIndex := by
    rw [batchIndex, hcommitments, length_append, length_singleton, aoclToSwbfiLeafCounts_succ]
    rfl
  cases hs : windowSlides L'.commitments.length with
  | false =>
    rw [hs, if_neg Bool.false_ne_true] at hindex
    refine ⟨{ a with aocl := aocl }, ?_, haocl, ?_, ?_, ?_⟩
    · simp [ArchivalMutatorSet.revertAdd, hcount, hremove, hs]
    · have hleafs : L.inactiveLeafs = L'.inactiveLeafs := by
        simp [inactiveLeafs, hindex, hchunks]
      exact hleafs ▸ h.swbfInactive
    · exact h.swbfActive.trans (by rw [Ledger.window, Ledger.window, hbits, hindex])
    · exact h.chunks.trans (by simp [hindex, funext hchunks])
  | true =>
    rw [hs, if_pos rfl] at hindex
    obtain ⟨swbfInactive, hinactive, hholds⟩ := h.swbfInactive.removeLastLeafAsync_eq_some
    have hleafs : L.inactiveLeafs.dropLast = L'.inactiveLeafs := by
      simp only [inactiveLeafs, hindex, hchunks, range_succ, map_append,
        map_singleton, dropLast_concat]
    have hpop : storagePop a.chunks = some (L'.chunk L'.batchIndex,
        (range L'.batchIndex).map L'.chunk) := by
      rw [h.chunks, hindex, range_succ, map_append, map_singleton, storagePop,
        getLast?_concat, dropLast_concat, Option.map_some, funext hchunks]
    refine ⟨⟨aocl, swbfInactive, L'.window, (range L'.batchIndex).map L'.chunk⟩, ?_, haocl,
      hleafs ▸ hholds, rfl, rfl⟩
    simp [ArchivalMutatorSet.revertAdd, hcount, hremove, hs, unslide, hinactive, hpop, h.swbfActive,
      slideWindowBack_window hcommitments hbits hs]

/-! ## Starting over -/

omit [DecidableEq D] in
theorem clear (h : a.Reflects L) : ∃ a', a.clear = some a' ∧ a'.Reflects .empty := by
  obtain ⟨aocl, haocl, hholds⟩ := h.aocl.pruneToNumLeafs_eq_some 0
  obtain ⟨swbfInactive, hinactive, hholds'⟩ := h.swbfInactive.pruneToNumLeafs_eq_some 0
  rw [take_zero] at hholds hholds'
  refine ⟨⟨aocl, swbfInactive, ⟨[]⟩, []⟩, ?_, hholds, ?_, ?_, ?_⟩
  · simp [ArchivalMutatorSet.clear, haocl, hinactive]
  · rw [inactiveLeafs, batchIndex_empty]
    exact hholds'
  · exact (newEmpty (D := D)).swbfActive
  · exact (newEmpty (D := D)).chunks

end Reflects

end ArchivalMutatorSet

end NyksNode
