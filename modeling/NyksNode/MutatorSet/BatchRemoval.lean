import NyksNode.Lib.AssocMap
import NyksNode.MutatorSet.Order

/-!
# Removing a batch refines the ledger

`batch_remove` applies several removal records at once.  All of them are in step with the
ledger before the batch, so their dictionaries agree, and the batch adds the indices of all
records to the ledger.

The source narrows the distance from the start of the active window, where `remove_helper`
narrows the chunk index: `batchBit`.
-/

namespace NyksNode

open List Option SlidingFilter ChunkDictionary Function

/-! ## The bits of a batch -/

/-- The bit that `batch_remove` sets for an absolute index. -/
def batchBit (start index : ℕ) : ℕ :=
  if start ≤ index then start + (index - start) % u32Bound else index

variable {start i : ℕ}

theorem batchBit_of_lt (hi : i < start) : batchBit start i = i := if_neg (not_le.mpr hi)

theorem batchBit_of_le (hi : start ≤ i) :
    batchBit start i = start + (i - start) % u32Bound := if_pos hi

theorem batchBit_lt_iff : batchBit start i < start ↔ i < start := by
  by_cases hi : i < start
  · rw [batchBit_of_lt hi]
  · rw [batchBit_of_le (not_lt.mp hi)]
    omega

theorem batchBit_of_lt_window (hi : i < start + windowSize) : batchBit start i = i := by
  by_cases hlt : i < start
  · exact batchBit_of_lt hlt
  · rw [batchBit_of_le (not_lt.mp hlt), Nat.mod_eq_of_lt]
    · omega
    · simp only [windowSize, u32Bound] at *
      omega

/-! ## Chunk differences -/

/-- The differences of the indices `Q`, by chunk. -/
structure Differences (Q : Multiset ℕ) (m : List (ℕ × Chunk)) : Prop where
  nodup_keys : (m.map (·.1)).Nodup
  lookup_eq : ∀ c, m.lookup c =
    if c ∈ Q.map (· / chunkSize) then some ⟨SlidingFilter.chunk chunkSize Q c⟩ else none

namespace Differences
variable {i : ℕ} {Q : Multiset ℕ} {m : List (ℕ × Chunk)}

theorem nil : Differences 0 [] := ⟨nodup_nil, by simp⟩

section
variable (hm : Differences Q m)
include hm

/-- The difference of a chunk, empty if no index lies in the chunk. -/
theorem getD_lookup (c : ℕ) : (m.lookup c).getD .emptyChunk = ⟨chunk chunkSize Q c⟩ := by
  rw [hm.lookup_eq]
  by_cases hc : c ∈ Q.map (· / chunkSize)
  · rw [if_pos hc, getD_some]
  · rw [if_neg hc, chunk_eq_nil]
    · rfl
    · intro i hi hdiv
      exact hc (Multiset.mem_map.mpr ⟨i, hi, hdiv⟩)

/-- The entries of the map are the differences of the chunks that are touched. -/
theorem entry_of_mem {e : ℕ × Chunk} (he : e ∈ m) :
    e.1 ∈ Q.map (· / chunkSize) ∧ e.2 = ⟨chunk chunkSize Q e.1⟩ := by
  have hlookup := lookup_of_mem hm.nodup_keys he
  rw [hm.lookup_eq, ite_none_right_eq_some, some_inj] at hlookup
  exact ⟨hlookup.1, hlookup.2.symm⟩

theorem mem_keys_iff {c : ℕ} : c ∈ m.map (·.1) ↔ c ∈ Q.map (· / chunkSize) := by
  constructor
  · intro hc
    obtain ⟨e, he, rfl⟩ := mem_map.mp hc
    exact (hm.entry_of_mem he).1
  · intro hc
    have hlookup := hm.lookup_eq c
    rw [if_pos hc] at hlookup
    exact mem_map_of_mem (mem_of_lookup hlookup)

theorem insertDifference_eq_some (hi : i < 2 ^ 76) :
    ∃ m', MutatorSetAccumulator.insertDifference m (chunkIndexOf i) (i % chunkSize) = some m' ∧
      Differences (i ::ₘ Q) m' := by
  rw [chunkIndexOf_of_lt hi, MutatorSetAccumulator.insertDifference, hm.getD_lookup,
    Chunk.insert_mod, insertionSort_chunk_concat rfl]
  refine ⟨_, rfl, nodup_keys_cons_eraseP hm.nodup_keys _ _, fun c => ?_⟩
  rw [lookup_cons_eraseP, Multiset.map_cons]
  by_cases hc : c = i / chunkSize
  · rw [if_pos hc, if_pos (hc ▸ Multiset.mem_cons_self _ _), hc]
  · have hmem : c ∈ i / chunkSize ::ₘ Q.map (· / chunkSize) ↔ c ∈ Q.map (· / chunkSize) := by
      rw [Multiset.mem_cons, or_iff_right hc]
    rw [if_neg hc, hm.lookup_eq, chunk_cons_of_ne (Ne.symm hc)]
    exact if_congr hmem.symm rfl rfl

end

end Differences

/-! ## The loop over the indices -/

namespace MutatorSetAccumulator
variable {b : ℕ} {bits P : Multiset ℕ} {is : List ℕ}

/-- The state of the first loop of `batch_remove` once the indices `P` are collected. -/
structure Collected (b : ℕ) (bits P : Multiset ℕ) (st : ActiveWindow × List (ℕ × Chunk)) :
    Prop where
  window_eq : st.1 = ⟨SlidingFilter.window chunkSize (P.map (batchBit (b * chunkSize)) + bits) b⟩
  differences : Differences (P.filter (· < b * chunkSize)) st.2

variable {st : ActiveWindow × List (ℕ × Chunk)}

theorem Collected.step {i : ℕ} (hst : Collected b bits P st) (hb : b * chunkSize ≤ 2 ^ 76)
    (hi : b * chunkSize ≤ i → (i - b * chunkSize) % u32Bound < windowSize) :
    ∃ st', collectDifferences (b * chunkSize) st i = some st' ∧ Collected b bits (i ::ₘ P) st' := by
  obtain ⟨w, m⟩ := st
  obtain ⟨rfl, hm⟩ := hst
  by_cases hle : b * chunkSize ≤ i
  · refine ⟨(⟨window chunkSize
      (batchBit (b * chunkSize) i ::ₘ (P.map (batchBit (b * chunkSize)) + bits)) b⟩, m), ?_, ?_, ?_⟩
    · have hsub : (i - b * chunkSize) % u32Bound = batchBit (b * chunkSize) i - b * chunkSize := by
        rw [batchBit_of_le hle, Nat.add_sub_cancel_left]
      have hge : b * chunkSize ≤ batchBit (b * chunkSize) i := by
        rw [batchBit_of_le hle]
        exact Nat.le_add_right _ _
      rw [collectDifferences, if_pos hle, ActiveWindow.insert, if_pos (hi hle), map_some,
        hsub, insertionSort_window_concat hge]
    · rw [Multiset.map_cons, Multiset.cons_add]
    · rwa [Multiset.filter_cons_of_neg (p := fun x => x < b * chunkSize) P (not_lt.mpr hle)]
  · have hlt := not_le.mp hle
    obtain ⟨m', hinsert, hm'⟩ := hm.insertDifference_eq_some (hlt.trans_le hb)
    refine ⟨(⟨window chunkSize (P.map (batchBit (b * chunkSize)) + bits) b⟩, m'),
      ?_, ?_, by rwa [Multiset.filter_cons_of_pos (p := fun x => x < b * chunkSize) P hlt]⟩
    · rw [collectDifferences, if_neg hle]
      simp [hinsert]
    · rw [Multiset.map_cons, Multiset.cons_add, window_cons_of_lt]
      exact batchBit_lt_iff.mpr (not_le.mp hle)

theorem Collected.foldlM (hst : Collected b bits P st) (is : List ℕ) (hb : b * chunkSize ≤ 2 ^ 76)
    (his : ∀ i ∈ is, b * chunkSize ≤ i → (i - b * chunkSize) % u32Bound < windowSize) :
    ∃ st', is.foldlM (collectDifferences (b * chunkSize)) st = some st' ∧
      Collected b bits (is + P) st' := by
  induction is generalizing st P with
  | nil => exact ⟨st, rfl, by simpa using hst⟩
  | cons i is ih =>
    obtain ⟨st₁, hstep, hst₁⟩ := hst.step hb (his i mem_cons_self)
    obtain ⟨st', hrun, hst'⟩ := ih hst₁ fun j hj => his j (mem_cons_of_mem _ hj)
    refine ⟨st', by rw [foldlM_cons, hstep]; exact hrun, ?_⟩
    rwa [Multiset.add_cons, ← Multiset.cons_add, Multiset.cons_coe] at hst'

/-- The loop stops at an index that is narrowed out of the window. -/
theorem bounds_of_collectDifferences {start : ℕ} {st' : ActiveWindow × List (ℕ × Chunk)}
    (hrun : is.foldlM (collectDifferences start) st = some st') :
    ∀ i ∈ is, start ≤ i → (i - start) % u32Bound < windowSize := by
  intro i hi hle
  obtain ⟨t, t', ht⟩ := exists_step_of_foldlM hrun hi
  rw [collectDifferences, if_pos hle] at ht
  obtain ⟨w, hw, -⟩ := map_eq_some_iff.mp ht
  rw [ActiveWindow.insert, ite_none_right_eq_some] at hw
  exact hw.1

end MutatorSetAccumulator

/-! ## The loop over the dictionaries -/

/-- Keys in the order in which a map that puts new entries first has them. -/
def collectKeys (cs : List ℕ) : List ℕ := cs.foldl (fun keys c => c :: keys.erase c) []

variable {cs : List ℕ}

theorem mem_foldl_collect {keys : List ℕ} {c : ℕ} :
    c ∈ cs.foldl (fun keys c => c :: keys.erase c) keys ↔ c ∈ cs ∨ c ∈ keys := by
  induction cs generalizing keys with
  | nil => simp
  | cons d cs ih =>
    rw [foldl_cons, ih, mem_cons, mem_cons]
    by_cases hcd : c = d
    · simp [hcd]
    · simp [hcd, mem_erase_of_ne hcd]

theorem mem_collectKeys {c : ℕ} : c ∈ collectKeys cs ↔ c ∈ cs := by
  simp [collectKeys, mem_foldl_collect]

theorem nodup_foldl_collect {keys : List ℕ} (hkeys : keys.Nodup) :
    (cs.foldl (fun keys c => c :: keys.erase c) keys).Nodup := by
  induction cs generalizing keys with
  | nil => exact hkeys
  | cons d cs ih =>
    exact ih (nodup_cons.mpr ⟨hkeys.not_mem_erase, hkeys.erase d⟩)

theorem nodup_collectKeys (cs : List ℕ) : (collectKeys cs).Nodup := nodup_foldl_collect nodup_nil

namespace MutatorSetAccumulator
variable {D : Type} [Tip5 D] [DecidableEq D]

theorem foldlM_collectPreimage {f : ℕ → MmrMembershipProof D × Chunk} {es : List (ChunkEntry D)}
    (hes : ∀ e ∈ es, e.2 = f e.1) : es.foldlM collectPreimage [] =
      some ((collectKeys (es.map (·.1))).map fun c => (c, f c)) := by
  have hstep : ∀ keys : List ℕ, ∀ e ∈ es, collectPreimage (keys.map fun c => (c, f c)) e =
        some ((e.1 :: keys.erase e.1).map fun c => (c, f c)) := by
    intro keys e he
    obtain ⟨c, v⟩ := e
    obtain rfl : v = f c := hes _ he
    rw [collectPreimage, lookup_map_entries]
    by_cases hc : c ∈ keys
    · simp only [if_pos hc, and_self, if_true, eraseP_map_entries]
      rfl
    · simp only [if_neg hc, erase_of_not_mem hc]
      rfl
  have hfold := foldlM_simulates (fun keys : List ℕ => keys.map fun c => (c, f c))
    (fun keys (e : ChunkEntry D) => e.1 :: keys.erase e.1) hstep []
  rw [map_nil] at hfold
  rw [hfold, collectKeys, foldl_map]

end MutatorSetAccumulator

open MutatorSetAccumulator

/-! ## Batches on ledgers -/

namespace Ledger
variable {D : Type}

def batchIndices (rrs : List (RemovalRecord D)) : List ℕ :=
  rrs.flatMap fun rr => rr.absoluteIndices.toArray

def batchKeys (rrs : List (RemovalRecord D)) : List ℕ :=
  collectKeys ((rrs.flatMap fun rr => rr.targetChunks.dictionary).map (·.1))

theorem nodup_batchKeys (rrs : List (RemovalRecord D)) : (batchKeys rrs).Nodup :=
  nodup_collectKeys _

/-- A batch whose removal does not panic: no index is narrowed out of the window, and every chunk
has an index that is taken for an inactive one. -/
structure BatchRemovable (L : Ledger D) (rrs : List (RemovalRecord D)) : Prop where
  active_bounds : ∀ i ∈ batchIndices rrs, L.windowStart ≤ i →
    (i - L.windowStart) % u32Bound < windowSize
  touched : ∀ c ∈ batchKeys rrs, ∃ i ∈ batchIndices rrs, i < L.windowStart ∧ i / chunkSize = c

def batchRemove (L : Ledger D) (rrs : List (RemovalRecord D)) (hr : L.BatchRemovable rrs) :
    Ledger D :=
  L.insertBits ((batchIndices rrs : Multiset ℕ).map (batchBit L.windowStart)) (by
    intro j hj
    obtain ⟨i, hi, rfl⟩ := Multiset.mem_map.mp hj
    by_cases hle : L.windowStart ≤ i
    · rw [batchBit_of_le hle]
      exact Nat.add_lt_add_left (hr.active_bounds i hi hle) _
    · rw [batchBit_of_lt (not_le.mp hle)]
      omega)

section
variable {L : Ledger D} {rrs : List (RemovalRecord D)} (hr : L.BatchRemovable rrs)

@[simp] theorem commitments_batchRemove : (L.batchRemove rrs hr).commitments = L.commitments := rfl

@[simp] theorem batchIndex_batchRemove : (L.batchRemove rrs hr).batchIndex = L.batchIndex := rfl

theorem bits_batchRemove : (L.batchRemove rrs hr).bits =
    (batchIndices rrs : Multiset ℕ).map (batchBit L.windowStart) + L.bits := rfl

variable {c : ℕ}

theorem chunk_batchRemove (hc : c < L.batchIndex) : (L.batchRemove rrs hr).chunk c =
    ⟨SlidingFilter.chunk chunkSize
      ((batchIndices rrs : Multiset ℕ).filter (· < L.windowStart) + L.bits) c⟩ := by
  ext1
  refine chunk_congr ?_
  rw [bits_batchRemove, Multiset.filter_add, Multiset.filter_add, Multiset.filter_map,
    Multiset.filter_filter]
  congr 1
  have hbits : ((batchIndices rrs : Multiset ℕ).filter
      ((fun i => i / chunkSize = c) ∘ batchBit L.windowStart)) =
      (batchIndices rrs : Multiset ℕ).filter fun i => i / chunkSize = c ∧ i < L.windowStart := by
    apply Multiset.filter_congr
    intro i _
    simp only [comp_apply]
    constructor
    · intro hdiv
      have hlt : batchBit L.windowStart i < L.windowStart := by
        rw [windowStart, ← Nat.div_lt_iff_lt_mul chunkSize_pos]
        exact hdiv ▸ hc
      rw [batchBit_lt_iff] at hlt
      rw [batchBit_of_lt hlt] at hdiv
      exact ⟨hdiv, hlt⟩
    · rintro ⟨hdiv, hlt⟩
      rwa [batchBit_of_lt hlt]
  rw [hbits]
  conv_rhs => rw [← Multiset.map_id (Multiset.filter _ _)]
  refine Multiset.map_congr rfl fun i hi => ?_
  exact batchBit_of_lt (Multiset.mem_filter.mp hi).2.2

variable [Tip5 D] [Inhabited D]

section
variable (hs : ∀ rr ∈ rrs, L.Synced rr)
include hs

theorem lt_of_mem_batchKeys (hc : c ∈ batchKeys rrs) : c < L.batchIndex := by
  obtain ⟨e, he, rfl⟩ := mem_map.mp (mem_collectKeys.mp hc)
  obtain ⟨rr, hrr, he⟩ := mem_flatMap.mp he
  exact (hs rr hrr).key_lt (mem_map_of_mem he)

/-- The chunk of an inactive index of a batch is one of its keys. -/
theorem div_mem_batchKeys {i : ℕ} (hi : i ∈ batchIndices rrs)
    (hlt : i < L.windowStart) : i / chunkSize ∈ batchKeys rrs := by
  obtain ⟨rr, hrr, hi⟩ := mem_flatMap.mp hi
  have hindex : chunkIndexOf i = i / chunkSize :=
    chunkIndexOf_of_lt (hlt.trans (L.windowStart_lt.trans (by norm_num)))
  have hkey := (hs rr hrr).mem_keys.mpr
    ⟨(Nat.div_lt_iff_lt_mul chunkSize_pos).mpr hlt, i, hi, hindex⟩
  obtain ⟨e, he, hkey⟩ := mem_map.mp hkey
  exact mem_collectKeys.mpr (mem_map.mpr ⟨e, mem_flatMap.mpr ⟨rr, hrr, he⟩, hkey⟩)

theorem chunk_batchRemove_of_notMem (hc : c < L.batchIndex)
    (hnot : c ∉ batchKeys rrs) : (L.batchRemove rrs hr).chunk c = L.chunk c := by
  rw [chunk_batchRemove hr hc]
  ext1
  refine SlidingFilter.chunk_congr ?_
  rw [Multiset.filter_add, Multiset.filter_filter]
  have hnil : ((batchIndices rrs : Multiset ℕ).filter
      fun i => i / chunkSize = c ∧ i < L.windowStart) = 0 := by
    refine Multiset.filter_eq_nil.mpr ?_
    rintro i hi ⟨rfl, hlt⟩
    exact hnot (div_mem_batchKeys hs hi hlt)
  rw [hnil, Multiset.zero_add]

theorem entry_of_mem_batch :
    ∀ e ∈ rrs.flatMap fun rr => rr.targetChunks.dictionary, e.2 = L.authenticatedChunk e.1 := by
  intro e he
  obtain ⟨rr, hrr, he⟩ := mem_flatMap.mp he
  rw [(hs rr hrr).chunks, dictionary, dictionary_ofKeys] at he
  obtain ⟨c, -, rfl⟩ := mem_map.mp he
  rfl

end

section
omit [Tip5 D] [Inhabited D]

theorem collected_zero (L : Ledger D) :
    MutatorSetAccumulator.Collected L.batchIndex L.bits 0 (L.window, []) :=
  ⟨by rw [Multiset.map_zero, Multiset.zero_add]; rfl, Differences.nil⟩

/-- The differences of a batch: every key has one, which leads to the new chunk. -/
theorem exists_collectDifferences : ∃ w m,
    (batchIndices rrs).foldlM (MutatorSetAccumulator.collectDifferences L.windowStart)
        (L.window, []) = some (w, m) ∧
      w = (L.batchRemove rrs hr).window ∧ ∀ c ∈ batchKeys rrs, c < L.batchIndex →
        ∃ d, m.lookup c = some d ∧ (L.chunk c).combine d = (L.batchRemove rrs hr).chunk c := by
  obtain ⟨⟨w, m⟩, hrun, hw, hm⟩ := L.collected_zero.foldlM (batchIndices rrs)
    (L.windowStart_lt.le.trans (by norm_num)) hr.active_bounds
  rw [Multiset.add_zero] at hw hm
  refine ⟨w, m, hrun, hw, fun c hc hlt => ?_⟩
  obtain ⟨i, hi, hinactive, rfl⟩ := hr.touched c hc
  have hmem : i / chunkSize ∈
      ((batchIndices rrs : Multiset ℕ).filter (· < L.windowStart)).map (· / chunkSize) :=
    Multiset.mem_map_of_mem _ (Multiset.mem_filter.mpr ⟨hi, hinactive⟩)
  refine ⟨_, (hm.lookup_eq _).trans (if_pos hmem), ?_⟩
  rw [chunk_batchRemove hr hlt]
  ext1
  exact SlidingFilter.insertionSort_chunk_append_chunk (w := chunkSize) L.bits
    ((batchIndices rrs : Multiset ℕ).filter (· < L.windowStart)) (i / chunkSize)

end

/-- The mutations of the inactive chunks that a batch removal makes. -/
def batchMutations (hr : L.BatchRemovable rrs) : List (LeafMutation D) :=
  (batchKeys rrs).map fun c =>
    ⟨c, ((L.batchRemove rrs hr).chunk c).hash, membershipProof L.inactiveLeafs c⟩

@[simp] theorem leafIndex_batchMutations :
    (batchMutations hr).map (·.leafIndex) = batchKeys rrs := by
  simp [batchMutations, comp_def]

theorem applyMutations_batchRemove (hs : ∀ rr ∈ rrs, L.Synced rr) :
    Merkle.applyMutations L.inactiveLeafs (batchMutations hr) =
      (L.batchRemove rrs hr).inactiveLeafs := by
  refine Merkle.applyMutations_map_range ?_ ?_ ?_
  · rw [leafIndex_batchMutations]
    exact nodup_batchKeys rrs
  · intro x hx
    obtain ⟨c, hc, rfl⟩ := mem_map.mp hx
    rfl
  · intro c hc hnot
    rw [leafIndex_batchMutations] at hnot
    rw [chunk_batchRemove_of_notMem hr hs hc hnot]

variable [DecidableEq D] [MmrOps D] [LawfulMmr D]

def proofFromBatchRemove (hr : L.BatchRemovable rrs) (mp : MsMembershipProof D) :
    MsMembershipProof D :=
  { mp with
    targetChunks := (L.batchRemove rrs hr).dictionary mp.targetChunks.allChunkIndices }

/-- The entries that a batch changes, with their old paths. -/
def batchEntries (hr : L.BatchRemovable rrs) : List (ChunkEntry D) :=
  (batchKeys rrs).map fun c =>
    (c, membershipProof L.inactiveLeafs c, (L.batchRemove rrs hr).chunk c)

omit [DecidableEq D] [MmrOps D] [LawfulMmr D] in
/-- The changed chunks are copied into a dictionary of the ledger. -/
theorem preserveChunks_dictionary (hs : ∀ rr ∈ rrs, L.Synced rr) {keys : List ℕ}
    (hkeys : ∀ c ∈ keys, c < L.batchIndex) : preserveChunks (batchEntries hr) (L.dictionary keys) =
      .ofKeys keys fun c =>
        (membershipProof L.inactiveLeafs c, (L.batchRemove rrs hr).chunk c) := by
  ext1
  simp only [preserveChunks, dictionary, dictionary_ofKeys, List.map_map]
  refine List.map_congr_left fun c hc => ?_
  have hlookup := lookup_map_entries (batchKeys rrs)
    (fun c => (membershipProof L.inactiveLeafs c, (L.batchRemove rrs hr).chunk c)) c
  rw [Function.comp_apply, batchEntries]
  by_cases hmem : c ∈ batchKeys rrs
  · simp only [hlookup, if_pos hmem]
    rfl
  · simp only [hlookup, if_neg hmem, chunk_batchRemove_of_notMem hr hs (hkeys c hc) hmem]
    rfl

/-- **Batch removal refines the ledger**, and preserved proofs follow it. -/
theorem batchRemove_preserved (hs : ∀ rr ∈ rrs, L.Synced rr)
    {preserved : List (MsMembershipProof D)}
    (hdict : ∀ mp ∈ preserved, mp.targetChunks = L.dictionary mp.targetChunks.allChunkIndices)
    (hkeys : ∀ mp ∈ preserved, ∀ c ∈ mp.targetChunks.allChunkIndices, c < L.batchIndex) :
    ∃ m, L.accumulator.batchRemove rrs preserved =
      some ((L.batchRemove rrs hr).accumulator, preserved.map (proofFromBatchRemove hr), m) := by
  obtain ⟨w, m, hcollect, hw, hm⟩ := exists_collectDifferences hr
  have hpreimage := foldlM_collectPreimage (entry_of_mem_batch hs)
  have hchanged : ((batchKeys rrs).map fun c => (c, L.authenticatedChunk c)).mapM
      (applyDifference m) = some (batchEntries hr) := by
    rw [List.mapM_map]
    refine mapM_eq_some fun c hc => ?_
    obtain ⟨d, hd, hcombine⟩ := hm c hc (lt_of_mem_batchKeys hs hc)
    rw [Function.comp_apply, applyDifference, hd, Option.map_some, ← hcombine]
    rfl
  -- the dictionaries of the preserved proofs, with new chunks and old paths
  set kss := preserved.map fun mp => mp.targetChunks.allChunkIndices with hkss
  have hdicts : (preserved.map fun mp =>
      preserveChunks (batchEntries hr) mp.targetChunks) = kss.map fun keys => .ofKeys keys fun c =>
        (membershipProof L.inactiveLeafs c, (L.batchRemove rrs hr).chunk c) := by
    rw [hkss, List.map_map]
    refine List.map_congr_left fun mp hmp => ?_
    rw [hdict mp hmp, preserveChunks_dictionary hr hs (hkeys mp hmp)]
    simp
  have hall : ∀ c ∈ kss.flatten, c < L.inactiveLeafs.length := by
    intro c hc
    obtain ⟨keys, hks, hc⟩ := List.mem_flatten.mp hc
    obtain ⟨mp, hmp, rfl⟩ := List.mem_map.mp hks
    simpa using hkeys mp hmp c hc
  have hbatch := LawfulMmr.batchMutateLeafAndUpdateMps_ofLeafs L.inactiveLeafs kss.flatten
    (batchMutations hr) hall (by rw [leafIndex_batchMutations]; exact nodup_batchKeys rrs)
    (by
      intro x hx
      obtain ⟨c, hc, rfl⟩ := List.mem_map.mp hx
      exact ⟨by simpa using lt_of_mem_batchKeys hs hc, rfl⟩)
  rw [applyMutations_batchRemove hr hs] at hbatch
  obtain ⟨⟨swbfInactive, paths, changed⟩, hmutate, hres⟩ := Option.map_eq_some_iff.mp hbatch
  obtain ⟨rfl, rfl⟩ := Prod.mk.inj hres
  refine ⟨m, ?_⟩
  have hmutations : (batchEntries hr).map
      (fun e : ChunkEntry D => (⟨e.1, e.2.2.hash, e.2.1⟩ : LeafMutation D)) =
      batchMutations hr := by
    simp [batchEntries, batchMutations, Function.comp_def]
  rw [MutatorSetAccumulator.batchRemove, activeWindowStart_accumulator, swbfActive_accumulator,
    swbfInactive_accumulator]
  simp only [Option.bind_eq_bind]
  rw [show (rrs.flatMap fun rr => rr.absoluteIndices.toArray) = batchIndices rrs from rfl, hcollect,
    Option.bind_some, hpreimage, Option.bind_some]
  rw [show collectKeys ((rrs.flatMap fun rr => rr.targetChunks.dictionary).map (·.1)) =
    batchKeys rrs from rfl, hchanged, Option.bind_some]
  simp only [hdicts, flatMap_authenticationPaths_ofKeys,
    flatMap_allChunkIndices_ofKeys, hmutations, hmutate, Option.bind_some, hw, writeAllPaths_ofKeys]
  rw [hkss, List.map_map, List.zipWith_map_right, List.zipWith_self]
  rfl

theorem batchRemove_accumulator (hs : ∀ rr ∈ rrs, L.Synced rr) :
    ∃ m, L.accumulator.batchRemove rrs [] = some ((L.batchRemove rrs hr).accumulator, [], m) :=
  batchRemove_preserved hr hs (by simp) (by simp)

omit hr [Tip5 D] [Inhabited D] [MmrOps D] [LawfulMmr D] [DecidableEq D] in
/-- A key whose difference is looked up successfully was touched. -/
theorem touched_of_lookup {w : ActiveWindow} {m : List (ℕ × Chunk)}
    (hcollect : (batchIndices rrs).foldlM (collectDifferences L.windowStart)
      (L.window, []) = some (w, m)) (hc : (m.lookup c).isSome = true) :
    ∃ i ∈ batchIndices rrs, i < L.windowStart ∧ i / chunkSize = c := by
  obtain ⟨⟨w', m'⟩, hrun, -, hm⟩ := L.collected_zero.foldlM (batchIndices rrs)
    (L.windowStart_lt.le.trans (by norm_num))
    (bounds_of_collectDifferences hcollect)
  obtain ⟨rfl, rfl⟩ := Prod.mk.inj (some_inj.mp (hrun.symm.trans hcollect))
  rw [Multiset.add_zero] at hm
  rw [hm.lookup_eq] at hc
  by_cases hmem : c ∈ ((batchIndices rrs : Multiset ℕ).filter
      (· < L.batchIndex * chunkSize)).map (· / chunkSize)
  · obtain ⟨i, hi, hdiv⟩ := Multiset.mem_map.mp hmem
    obtain ⟨hi, hlt⟩ := Multiset.mem_filter.mp hi
    exact ⟨i, hi, hlt, hdiv⟩
  · rw [if_neg hmem] at hc
    simp at hc

omit hr [LawfulMmr D] in
/-- A batch removal that does not panic was of a removable batch. -/
theorem batchRemovable_of_batchRemove (hs : ∀ rr ∈ rrs, L.Synced rr)
    {preserved : List (MsMembershipProof D)}
    {r : MutatorSetAccumulator D × List (MsMembershipProof D) × List (ℕ × Chunk)}
    (hrun : L.accumulator.batchRemove rrs preserved = some r) : L.BatchRemovable rrs := by
  simp only [MutatorSetAccumulator.batchRemove, bind_eq_some] at hrun
  obtain ⟨⟨w, m⟩, hcollect, preimage, hpreimage, changed, hchanged, -⟩ := hrun
  rw [foldlM_collectPreimage (entry_of_mem_batch hs), some_inj]
    at hpreimage
  refine ⟨bounds_of_collectDifferences hcollect, fun c hc => ?_⟩
  have hall := isSome_mapM_iff.mp (isSome_iff_exists.mpr ⟨_, hchanged⟩)
    (c, L.authenticatedChunk c) (hpreimage ▸ mem_map_of_mem hc)
  rw [applyDifference, isSome_map] at hall
  exact touched_of_lookup hcollect hall

omit hr [DecidableEq D] [MmrOps D] [LawfulMmr D] in
theorem batchRemovable_of_ordinary (hs : ∀ rr ∈ rrs, L.Synced rr)
    (ho : ∀ rr ∈ rrs, PendingUpdates.Ordinary rr) : L.BatchRemovable rrs := by
  constructor
  · intro i hi hle
    obtain ⟨rr, hrr, hi⟩ := mem_flatMap.mp hi
    have hbit := (hs rr hrr).bits_lt (bloomIndex i)
      (AbsoluteIndexSet.mem_bloomIndices.mpr ⟨i, hi, rfl⟩)
    rw [bloomIndex_of_lt ((ho rr hrr).2 i hi)] at hbit
    rw [Nat.mod_eq_of_lt]
    · omega
    · simp only [windowSize, u32Bound] at *
      omega
  · intro c hc
    obtain ⟨e, he, rfl⟩ := mem_map.mp (mem_collectKeys.mp hc)
    obtain ⟨rr, hrr, he⟩ := mem_flatMap.mp he
    obtain ⟨hlt, i, hi, hindex⟩ := (hs rr hrr).mem_keys.mp (mem_map_of_mem he)
    rw [chunkIndexOf_of_lt ((ho rr hrr).2 i hi)] at hindex
    refine ⟨i, mem_flatMap.mpr ⟨rr, hrr, hi⟩, ?_, hindex⟩
    rw [← div_lt_batchIndex_iff, hindex]
    exact hlt

omit [DecidableEq D] [MmrOps D] [LawfulMmr D] in
theorem bits_batchRemove_of_ordinary (hs : ∀ rr ∈ rrs, L.Synced rr)
    (ho : ∀ rr ∈ rrs, PendingUpdates.Ordinary rr) :
    (L.batchRemove rrs hr).bits = (batchIndices rrs : Multiset ℕ) + L.bits := by
  rw [bits_batchRemove]
  congr 1
  conv_rhs => rw [← Multiset.map_id (batchIndices rrs : Multiset ℕ)]
  refine Multiset.map_congr rfl fun i hi => batchBit_of_lt_window ?_
  obtain ⟨rr, hrr, hi⟩ := mem_flatMap.mp hi
  have hbit := (hs rr hrr).bits_lt (bloomIndex i)
    (AbsoluteIndexSet.mem_bloomIndices.mpr ⟨i, hi, rfl⟩)
  rwa [bloomIndex_of_lt ((ho rr hrr).2 i hi)] at hbit

end

end Ledger

end NyksNode
