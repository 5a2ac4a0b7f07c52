import Mathlib.Data.Finset.Filter
import NyksNode.Lib.Fold
import NyksNode.MutatorSet.Ledger

/-!
# Removals refine the ledger

A removal record is in step with a ledger when its dictionary holds exactly the
inactive chunks that its indices touch, as the ledger has them.  `validate` accepts
exactly these records, and removing one adds its indices to the ledger.

The source narrows chunk indices to 64 bits, so an index of 76 bits or more sets the
bit of another index: `bloomIndex`.
-/

namespace NyksNode

open List Option SlidingFilter AbsoluteIndexSet ChunkDictionary Function Nat

/-! ## The bits of an index set -/

/-- The bit that `remove_helper` sets for an absolute index. -/
def bloomIndex (index : ℕ) : ℕ := chunkIndexOf index * chunkSize + index % chunkSize

@[simp] theorem bloomIndex_div (i : ℕ) : bloomIndex i / chunkSize = chunkIndexOf i := by
  rw [bloomIndex, Nat.mul_comm, mul_add_div chunkSize_pos,
    div_eq_of_lt (mod_lt _ chunkSize_pos), Nat.add_zero]

@[simp] theorem bloomIndex_mod (i : ℕ) : bloomIndex i % chunkSize = i % chunkSize := by
  rw [bloomIndex, Nat.mul_comm, mul_add_mod, mod_mod]

theorem bloomIndex_eq_mod (i : ℕ) : bloomIndex i = i % 2 ^ 76 := by
  have hmod := mod_mul (x := i) (a := chunkSize) (b := 2 ^ 64)
  rw [bloomIndex, chunkIndexOf, Nat.add_comm, Nat.mul_comm]
  exact hmod.symm

variable {i : ℕ}

theorem bloomIndex_of_lt (hi : i < 2 ^ 76) : bloomIndex i = i := by
  have hdiv : i / chunkSize < u64Bound := by
    rw [Nat.div_lt_iff_lt_mul chunkSize_pos]
    exact hi
  rw [bloomIndex, chunkIndexOf, mod_eq_of_lt hdiv, Nat.mul_comm, div_add_mod]

theorem chunkIndexOf_of_lt (hi : i < 2 ^ 76) : chunkIndexOf i = i / chunkSize := by
  rw [← bloomIndex_div, bloomIndex_of_lt hi]

namespace AbsoluteIndexSet

/-- The bits that removing an index set sets. -/
def bloomIndices (s : AbsoluteIndexSet) : List ℕ := s.toArray.map bloomIndex

variable {s : AbsoluteIndexSet}

@[simp] theorem mem_chunkIndices {c : ℕ} :
    c ∈ s.chunkIndices ↔ ∃ i ∈ s.toArray, chunkIndexOf i = c := by
  simp [chunkIndices]

theorem mem_bloomIndices {j : ℕ} : j ∈ s.bloomIndices ↔ ∃ i ∈ s.toArray, bloomIndex i = j := by
  simp [bloomIndices]

theorem bloomIndices_of_lt (hs : ∀ i ∈ s.toArray, i < 2 ^ 76) : s.bloomIndices = s.toArray := by
  conv_rhs => rw [← map_id s.toArray]
  exact map_congr_left fun i hi => bloomIndex_of_lt (hs i hi)

end AbsoluteIndexSet

theorem coe_flatMap_indicesToHashMap (is : List ℕ) :
    (((indicesToHashMap is).flatMap (·.2)).map bloomIndex : Multiset ℕ) = is.map bloomIndex := by
  have hp := flatMap_groupByKey chunkIndexOf (fun _ => true) is
  simp only [filter_true] at hp
  exact Multiset.coe_eq_coe.mpr (hp.map bloomIndex)

theorem chunkIndexOf_of_mem_indicesToHashMap {is : List ℕ} {g : ℕ × List ℕ}
    (hg : g ∈ indicesToHashMap is) (hi : i ∈ g.2) : i ∈ is ∧ chunkIndexOf i = g.1 := by
  rw [((mem_groupByKey chunkIndexOf).mp hg).2] at hi
  simpa using hi

/-! ## Inserting into chunks and windows -/

theorem Chunk.insertAll_chunk {s : Multiset ℕ} {k : ℕ} {js : List ℕ}
    (hjs : ∀ j ∈ js, j / chunkSize = k) :
    Chunk.insertAll ⟨SlidingFilter.chunk chunkSize s k⟩ (js.map (· % chunkSize)) =
      some ⟨SlidingFilter.chunk chunkSize (js + s) k⟩ := by
  induction js generalizing s with
  | nil => simp [Chunk.insertAll]
  | cons j js ih =>
    have hj := hjs j mem_cons_self
    have htail := @ih (j ::ₘ s) fun x hx => hjs x (mem_cons_of_mem _ hx)
    rw [map_cons, Chunk.insertAll, foldlM_cons, Chunk.insert_mod,
      insertionSort_chunk_concat hj, some_bind]
    refine htail.trans ?_
    rw [Multiset.add_cons, ← Multiset.cons_coe, Multiset.cons_add]

namespace MutatorSetAccumulator

theorem insertActive_window {s : Multiset ℕ} {b : ℕ} {is : List ℕ}
    (his : ∀ i ∈ is, b * chunkSize ≤ i ∧ i < b * chunkSize + windowSize) :
    insertActive (b * chunkSize) ⟨SlidingFilter.window chunkSize s b⟩ is =
      some ⟨SlidingFilter.window chunkSize (is + s) b⟩ := by
  induction is generalizing s with
  | nil => simp [insertActive]
  | cons i is ih =>
    obtain ⟨hle, hlt⟩ := his i mem_cons_self
    have hw : i - b * chunkSize < windowSize := by omega
    have hu : i - b * chunkSize < u32Bound := by
      simp only [windowSize, u32Bound] at *
      omega
    have htail := @ih (i ::ₘ s) fun x hx => his x (mem_cons_of_mem _ hx)
    rw [insertActive, foldlM_cons, if_pos ⟨hle, hu⟩, ActiveWindow.insert, if_pos hw,
      insertionSort_window_concat hle, some_bind]
    refine htail.trans ?_
    rw [Multiset.add_cons, ← Multiset.cons_coe, Multiset.cons_add]

theorem bounds_of_insertActive {start : ℕ} {w w' : ActiveWindow} {is : List ℕ}
    (hins : insertActive start w is = some w') : ∀ i ∈ is, start ≤ i ∧ i < start + windowSize := by
  intro i hi
  obtain ⟨t, t', ht⟩ := exists_step_of_foldlM hins hi
  rw [ite_none_right_eq_some] at ht
  obtain ⟨⟨hle, -⟩, ht⟩ := ht
  rw [ActiveWindow.insert, ite_none_right_eq_some] at ht
  have := ht.1
  omega

end MutatorSetAccumulator

open MutatorSetAccumulator

namespace Ledger
variable {D : Type}

/-! ## Records in step with a ledger -/

/-- The inactive chunks that an index set touches. -/
def requiredChunks (L : Ledger D) (s : AbsoluteIndexSet) : Finset ℕ :=
  s.chunkIndices.toFinset.filter (· < L.batchIndex)

variable {L : Ledger D} {s : AbsoluteIndexSet}

theorem mem_requiredChunks {c : ℕ} :
    c ∈ L.requiredChunks s ↔ c < L.batchIndex ∧ ∃ i ∈ s.toArray, chunkIndexOf i = c := by
  simp [requiredChunks, and_comm]

variable [Tip5 D] [Inhabited D]

/-- A removal record in step with a ledger. -/
structure Synced (L : Ledger D) (rr : RemovalRecord D) : Prop where
  /-- No index lies behind the active window. -/
  bits_lt : ∀ j ∈ rr.absoluteIndices.bloomIndices, j < L.windowStart + windowSize
  /-- The dictionary has exactly the chunks that are needed. -/
  keys : rr.targetChunks.allChunkIndices.toFinset = L.requiredChunks rr.absoluteIndices
  /-- Every entry is as the ledger has it. -/
  chunks : rr.targetChunks = L.dictionary rr.targetChunks.allChunkIndices

/-- A removal record with the chunks of a ledger.  Its indices may lie behind the active window,
as those of a record that is not valid yet do. -/
structure Supplies (L : Ledger D) (rr : RemovalRecord D) : Prop where
  keys : rr.targetChunks.allChunkIndices.toFinset = L.requiredChunks rr.absoluteIndices
  chunks : rr.targetChunks = L.dictionary rr.targetChunks.allChunkIndices

section
variable {L : Ledger D} {rr : RemovalRecord D} {c : ℕ}

theorem Supplies.mem_keys (hs : L.Supplies rr) : c ∈ rr.targetChunks.allChunkIndices ↔
      c < L.batchIndex ∧ ∃ i ∈ rr.absoluteIndices.toArray, chunkIndexOf i = c := by
  rw [← mem_requiredChunks, ← hs.keys, List.mem_toFinset]

theorem Supplies.key_lt (hs : L.Supplies rr) (hc : c ∈ rr.targetChunks.allChunkIndices) :
    c < L.batchIndex := (hs.mem_keys.mp hc).1

theorem Synced.supplies (hs : L.Synced rr) : L.Supplies rr := ⟨hs.keys, hs.chunks⟩

theorem Synced.mem_keys (hs : L.Synced rr) : c ∈ rr.targetChunks.allChunkIndices ↔
      c < L.batchIndex ∧ ∃ i ∈ rr.absoluteIndices.toArray, chunkIndexOf i = c :=
  hs.supplies.mem_keys

theorem Synced.key_lt (hs : L.Synced rr) (hc : c ∈ rr.targetChunks.allChunkIndices) :
    c < L.batchIndex := hs.supplies.key_lt hc

end

/-! ## Splitting and validating -/

omit [Tip5 D] [Inhabited D] in
theorem bloomIndex_lt_iff (L : Ledger D) (i : ℕ) : bloomIndex i < L.windowStart + windowSize ↔
      chunkIndexOf i ≤ L.batchIndex + windowSize / chunkSize - 1 := by
  have hsum : L.windowStart + windowSize = (L.batchIndex + 256) * chunkSize := by
    simp only [windowStart, windowSize, chunkSize]
    omega
  have hquot : L.batchIndex + windowSize / chunkSize - 1 = L.batchIndex + 255 := by
    simp only [windowSize, chunkSize]
    omega
  rw [hsum, ← Nat.div_lt_iff_lt_mul chunkSize_pos, bloomIndex_div, hquot]
  omega

def inactiveGroups (L : Ledger D) (s : AbsoluteIndexSet) : List (ℕ × List ℕ) :=
  (indicesToHashMap s.toArray).filter fun g => decide (g.1 < L.batchIndex)

def activeIndices (L : Ledger D) (s : AbsoluteIndexSet) : List ℕ :=
  ((indicesToHashMap s.toArray).filter fun g => decide (¬ g.1 < L.batchIndex)).flatMap (·.2)

theorem splitByActivity_eq_ok (hs : ∀ j ∈ s.bloomIndices, j < L.windowStart + windowSize) :
    s.splitByActivity L.accumulator = .ok (L.inactiveGroups s, L.activeIndices s) := by
  have hnone : ((indicesToHashMap s.toArray).filter fun g => decide (¬ g.1 < L.batchIndex)).find?
      (fun g => decide (L.batchIndex + windowSize / chunkSize - 1 < g.1)) = none := by
    rw [find?_eq_none]
    intro g hg
    obtain ⟨i, hi, hig⟩ := ((mem_groupByKey chunkIndexOf).mp (mem_of_mem_filter hg)).1
    have := (bloomIndex_lt_iff L i).mp
      (hs _ (mem_bloomIndices.mpr ⟨i, hi, rfl⟩))
    simpa [← hig] using this
  change splitAtWindow L.batchIndex (L.batchIndex + windowSize / chunkSize - 1) _ = _
  simp only [splitAtWindow, hnone]
  rfl

theorem splitByActivity_eq_error {j : ℕ} (hj : j ∈ s.bloomIndices)
    (hge : L.windowStart + windowSize ≤ j) : ∃ e, s.splitByActivity L.accumulator = .error e := by
  obtain ⟨i, hi, rfl⟩ := mem_bloomIndices.mp hj
  have hfuture := mt (bloomIndex_lt_iff L i).mpr (not_lt.mpr hge)
  have hactive : ¬ chunkIndexOf i < L.batchIndex := by
    have : windowSize / chunkSize = 256 := by decide
    omega
  have hfind : ((indicesToHashMap s.toArray).filter fun g => decide (¬ g.1 < L.batchIndex)).find?
      (fun g => decide (L.batchIndex + windowSize / chunkSize - 1 < g.1)) ≠ none := by
    intro hnone
    rw [find?_eq_none] at hnone
    have hg : (chunkIndexOf i, s.toArray.filter fun a => chunkIndexOf a = chunkIndexOf i) ∈
        indicesToHashMap s.toArray :=
      (mem_groupByKey chunkIndexOf).mpr ⟨⟨i, hi, rfl⟩, rfl⟩
    exact hnone _ (mem_filter.mpr ⟨hg, by simpa using hactive⟩) (by simpa using hfuture)
  obtain ⟨g, hg⟩ := ne_none_iff_exists'.mp hfind
  refine ⟨.absoluteRemovalIndexIsFutureIndex (L.batchIndex + windowSize / chunkSize - 1) g.1, ?_⟩
  change splitAtWindow L.batchIndex (L.batchIndex + windowSize / chunkSize - 1) _ = _
  simp only [splitAtWindow, hg]

omit [Tip5 D] [Inhabited D] in
theorem mem_keys_inactiveGroups {c : ℕ} :
    c ∈ (L.inactiveGroups s).map (·.1) ↔ c ∈ L.requiredChunks s := by
  rw [mem_requiredChunks, List.mem_map]
  constructor
  · rintro ⟨g, hg, rfl⟩
    obtain ⟨hg, hlt⟩ := List.mem_filter.mp hg
    exact ⟨by simpa using hlt, ((mem_groupByKey chunkIndexOf).mp hg).1⟩
  · rintro ⟨hlt, i, hi, rfl⟩
    refine ⟨(chunkIndexOf i, s.toArray.filter fun a => chunkIndexOf a = chunkIndexOf i), ?_, rfl⟩
    exact List.mem_filter.mpr
      ⟨(mem_groupByKey chunkIndexOf).mpr ⟨⟨i, hi, rfl⟩, rfl⟩, by simpa using hlt⟩

variable [DecidableEq D] [MmrOps D] [LawfulMmr D] [Tip5.CollisionFree D]

theorem verify_entry_iff (L : Ledger D) (e : ChunkEntry D) :
    MmrOps.verify e.2.1 e.1 e.2.2.hash L.accumulator.swbfInactive.peaks
        L.accumulator.swbfInactive.numLeafs = true ↔
      e.1 < L.batchIndex ∧ e.2 = L.authenticatedChunk e.1 := by
  rw [swbfInactive_accumulator, verify_ofLeafs_iff, getElem?_inactiveLeafs]
  constructor
  · rintro ⟨hd, hp⟩
    rw [ite_none_right_eq_some, some_inj] at hd
    obtain ⟨hlt, hhash⟩ := hd
    have hchunk : L.chunk e.1 = e.2.2 :=
      Chunk.ext (Tip5.CollisionFree.hashChunk_injective hhash)
    exact ⟨hlt, Prod.ext hp hchunk.symm⟩
  · rintro ⟨hlt, he⟩
    rw [if_pos hlt, he]
    exact ⟨rfl, rfl⟩

theorem find?_invalid_eq_none_iff (L : Ledger D) (d : ChunkDictionary D) :
    (d.dictionary.find? fun e => !MmrOps.verify e.2.1 e.1 e.2.2.hash
        L.accumulator.swbfInactive.peaks L.accumulator.swbfInactive.numLeafs) = none ↔
      ∀ e ∈ d.dictionary, e.1 < L.batchIndex ∧ e.2 = L.authenticatedChunk e.1 := by
  simp only [find?_eq_none, Bool.not_eq_true', Bool.not_eq_false, verify_entry_iff]

omit [Inhabited D] [Tip5.CollisionFree D] [LawfulMmr D] [DecidableEq D] in
theorem validate_eq_true_iff (rr : RemovalRecord D) (A : MutatorSetAccumulator D) :
    rr.validate A = true ↔ rr.hasRequiredAuthenticatedChunks A = true ∧
      (rr.targetChunks.dictionary.find? fun e => !MmrOps.verify e.2.1 e.1 e.2.2.hash
        A.swbfInactive.peaks A.swbfInactive.numLeafs) = none := by
  rw [RemovalRecord.validate, RemovalRecord.validateInner]
  cases rr.hasRequiredAuthenticatedChunks A with
  | false => simp [Except.isOk, Except.toBool]
  | true =>
    simp only [Bool.not_true, Bool.false_eq_true, if_false, true_and]
    split <;> simp [Except.isOk, Except.toBool, *]

/-- **`validate` accepts exactly the records in step with the ledger.** -/
theorem validate_accumulator_iff (L : Ledger D) (rr : RemovalRecord D) :
    rr.validate L.accumulator = true ↔ L.Synced rr := by
  rw [validate_eq_true_iff, find?_invalid_eq_none_iff, RemovalRecord.hasRequiredAuthenticatedChunks]
  by_cases hall : ∀ j ∈ rr.absoluteIndices.bloomIndices, j < L.windowStart + windowSize
  · have hreq : ((L.inactiveGroups rr.absoluteIndices).map (·.1)).toFinset =
        L.requiredChunks rr.absoluteIndices := by
      ext c
      rw [List.mem_toFinset, mem_keys_inactiveGroups]
    rw [splitByActivity_eq_ok hall]
    simp only [decide_eq_true_eq, hreq]
    constructor
    · rintro ⟨hkeys, hentries⟩
      exact ⟨hall, hkeys.symm, eq_ofKeys fun e he => (hentries e he).2⟩
    · intro hs
      refine ⟨hs.keys.symm, fun e he => ?_⟩
      rw [hs.chunks, dictionary, dictionary_ofKeys, List.mem_map] at he
      obtain ⟨c, hc, rfl⟩ := he
      exact ⟨hs.key_lt hc, rfl⟩
  · have hbad := hall
    push Not at hbad
    obtain ⟨j, hj, hge⟩ := hbad
    obtain ⟨e, he⟩ := splitByActivity_eq_error hj hge
    rw [he]
    simp only [Bool.false_eq_true, false_and, false_iff]
    exact fun hs => hall hs.bits_lt

/-! ## Removing -/

section
omit [DecidableEq D] [MmrOps D] [LawfulMmr D] [Tip5.CollisionFree D]

/-- The state of the loop of `remove_helper` once the indices `s` are set: paths are still those
of the ledger, chunks and window have the new indices. -/
def removalState (L : Ledger D) (keys : List ℕ) (s : Multiset ℕ) :
    ActiveWindow × ChunkDictionary D :=
  (⟨SlidingFilter.window chunkSize s L.batchIndex⟩, .ofKeys keys fun c =>
      (membershipProof L.inactiveLeafs c, ⟨SlidingFilter.chunk chunkSize s c⟩))

theorem removalState_bits (L : Ledger D) (keys : List ℕ) :
    L.removalState keys L.bits = (L.window, L.dictionary keys) := rfl

variable {L : Ledger D} {g : ℕ × List ℕ}

theorem removeChunk_removalState {keys : List ℕ} (hnd : keys.Nodup)
    (hkeys : ∀ c ∈ keys, c < L.batchIndex) (hg : ∀ i ∈ g.2, chunkIndexOf i = g.1)
    (hin : g.1 < L.batchIndex → g.1 ∈ keys)
    (hact : L.batchIndex ≤ g.1 → ∀ i ∈ g.2, L.windowStart ≤ i ∧ i < L.windowStart + windowSize)
    (s : Multiset ℕ) : removeChunk L.batchIndex (L.removalState keys s) g =
      some (L.removalState keys (g.2.map bloomIndex + s)) := by
  have hdiv : ∀ j ∈ g.2.map bloomIndex, j / chunkSize = g.1 := by
    intro j hj
    obtain ⟨i, hi, rfl⟩ := mem_map.mp hj
    rw [bloomIndex_div, hg i hi]
  rw [removeChunk]
  split
  · -- the chunk is active: the dictionary stays as it is
    rename_i hle
    have hid : g.2.map bloomIndex = g.2 := by
      conv_rhs => rw [← map_id g.2]
      refine map_congr_left fun i hi => bloomIndex_of_lt ?_
      have hwin := (hact hle i hi).2
      have hstart := L.windowStart_lt
      simp only [windowSize] at hwin
      omega
    rw [hid] at hdiv ⊢
    have hw : insertActive (L.batchIndex * chunkSize)
        (L.removalState keys s).1 g.2 = some (L.removalState keys (g.2 + s)).1 :=
      insertActive_window (hact hle)
    rw [hw, map_some]
    congr 1
    refine Prod.ext rfl (ofKeys_congr fun c hc => ?_)
    rw [chunk_add_of_ne fun j hj heq => ?_]
    have := hkeys c hc
    rw [← heq, hdiv j hj] at this
    omega
  · -- the chunk is inactive: the window stays as it is
    rename_i hlt
    have hmem := hin (not_le.mp hlt)
    have hmod : g.2.map (· % chunkSize) = (g.2.map bloomIndex).map (· % chunkSize) := by
      simp [comp_def]
    have hwin : SlidingFilter.window chunkSize (g.2.map bloomIndex + s) L.batchIndex =
        SlidingFilter.window chunkSize s L.batchIndex := by
      refine window_add_of_lt fun j hj => ?_
      rw [← Nat.div_lt_iff_lt_mul chunkSize_pos, hdiv j hj]
      exact not_le.mp hlt
    simp only [removalState, get_ofKeys, if_pos hmem, some_bind, hmod,
      Chunk.insertAll_chunk hdiv, hwin, modify_ofKeys hnd]
    congr 2
    refine ofKeys_congr fun c hc => ?_
    by_cases hcg : c = g.1
    · rw [hcg, update_self]
    · rw [update_of_ne hcg, chunk_add_of_ne fun j hj heq => hcg ?_]
      rw [← heq, hdiv j hj]

section
omit [Tip5 D] [Inhabited D]

theorem allChunkIndices_removeChunk {b : ℕ} {st st' : ActiveWindow × ChunkDictionary D}
    (hst : removeChunk b st g = some st') : st'.2.allChunkIndices = st.2.allChunkIndices := by
  rw [removeChunk] at hst
  split at hst
  · obtain ⟨w, -, rfl⟩ := map_eq_some_iff.mp hst
    rfl
  · simp only [bind_eq_some] at hst
    obtain ⟨v, -, chunk, -, hst⟩ := hst
    cases hst
    exact allChunkIndices_modify _ _ _

theorem bounds_of_removeChunk {b : ℕ} {st st' : ActiveWindow × ChunkDictionary D}
    (hst : removeChunk b st g = some st') (hle : b ≤ g.1) :
    ∀ i ∈ g.2, b * chunkSize ≤ i ∧ i < b * chunkSize + windowSize := by
  rw [removeChunk, if_pos hle] at hst
  obtain ⟨w, hw, -⟩ := map_eq_some_iff.mp hst
  exact bounds_of_insertActive hw

end

/-- A record whose removal does not panic: its keys are distinct, and no index of its that the
source takes for an active one lies outside the window. -/
structure Removable (L : Ledger D) (rr : RemovalRecord D) : Prop where
  nodup_keys : rr.targetChunks.allChunkIndices.Nodup
  active_bounds : ∀ i ∈ rr.absoluteIndices.toArray, L.batchIndex ≤ chunkIndexOf i →
    L.windowStart ≤ i ∧ i < L.windowStart + windowSize

variable {rr : RemovalRecord D}

/-- The whole loop, for a round that sets the indices of a chunk. -/
theorem foldlM_removalState (hs : L.Synced rr)
    {round : ActiveWindow × ChunkDictionary D → ℕ × List ℕ →
      Option (ActiveWindow × ChunkDictionary D)} (hround : ∀ s, ∀ g ∈ rr.getChunkidxToIndicesDict,
      round (L.removalState rr.targetChunks.allChunkIndices s) g =
      some (L.removalState rr.targetChunks.allChunkIndices (g.2.map bloomIndex + s))) :
    rr.getChunkidxToIndicesDict.foldlM round (L.window, rr.targetChunks) =
      some (L.removalState rr.targetChunks.allChunkIndices
        (rr.absoluteIndices.bloomIndices + L.bits)) := by
  have hfold := foldlM_simulates _ _ hround L.bits
  have hsum : ∀ (gs : List (ℕ × List ℕ)) (s : Multiset ℕ),
      gs.foldl (fun s g => (g.2.map bloomIndex : Multiset ℕ) + s) s =
        ((gs.flatMap (·.2)).map bloomIndex : Multiset ℕ) + s := by
    intro gs
    induction gs with
    | nil => simp
    | cons g gs ih =>
      intro s
      rw [foldl_cons, ih, flatMap_cons, map_append, ← Multiset.coe_add]
      rw [← Multiset.add_assoc]
      congr 1
      exact Multiset.add_comm _ _
  rw [removalState_bits, ← hs.chunks] at hfold
  rw [hfold, hsum]
  congr 2
  congr 1
  exact coe_flatMap_indicesToHashMap _

theorem foldlM_removeChunk (hs : L.Synced rr) (hr : L.Removable rr) :
    rr.getChunkidxToIndicesDict.foldlM (removeChunk L.batchIndex) (L.window, rr.targetChunks) =
      some (L.removalState rr.targetChunks.allChunkIndices
        (rr.absoluteIndices.bloomIndices + L.bits)) := by
  refine foldlM_removalState hs fun s g hg => ?_
  have hmem := fun i (hi : i ∈ g.2) => chunkIndexOf_of_mem_indicesToHashMap hg hi
  refine removeChunk_removalState hr.nodup_keys (fun c hc => hs.key_lt hc)
    (fun i hi => (hmem i hi).2) (fun hlt => ?_) (fun hle i hi => ?_) s
  · exact hs.mem_keys.mpr ⟨hlt, ((mem_groupByKey chunkIndexOf).mp hg).1⟩
  · exact hr.active_bounds i (hmem i hi).1 ((hmem i hi).2 ▸ hle)

def remove (L : Ledger D) (rr : RemovalRecord D) (hs : L.Synced rr) : Ledger D :=
  L.insertBits rr.absoluteIndices.bloomIndices hs.bits_lt

section
variable {L : Ledger D} {rr : RemovalRecord D} (hs : L.Synced rr)

@[simp] theorem commitments_remove : (L.remove rr hs).commitments = L.commitments := rfl

@[simp] theorem bits_remove :
    (L.remove rr hs).bits = rr.absoluteIndices.bloomIndices + L.bits := rfl

@[simp] theorem batchIndex_remove : (L.remove rr hs).batchIndex = L.batchIndex := rfl

@[simp] theorem windowStart_remove : (L.remove rr hs).windowStart = L.windowStart := rfl

theorem chunk_remove_of_notMem {c : ℕ} (hc : c < L.batchIndex)
    (hnot : c ∉ rr.targetChunks.allChunkIndices) : (L.remove rr hs).chunk c = L.chunk c := by
  ext1
  refine chunk_add_of_ne fun j hj heq => hnot (hs.mem_keys.mpr ⟨hc, ?_⟩)
  obtain ⟨i, hi, rfl⟩ := mem_bloomIndices.mp hj
  exact ⟨i, hi, by rw [← heq, bloomIndex_div]⟩

end

/-- The batch of mutations that turns the digests before a removal into those after it. -/
theorem applyMutations_remove (hs : L.Synced rr) {ms : List (LeafMutation D)}
    (hnd : (ms.map (·.leafIndex)).Nodup)
    (hms : ∀ m ∈ ms, m.newLeaf = ((L.remove rr hs).chunk m.leafIndex).hash)
    (hkeys : ∀ c ∈ rr.targetChunks.allChunkIndices, c ∈ ms.map (·.leafIndex)) :
    Merkle.applyMutations L.inactiveLeafs ms = (L.remove rr hs).inactiveLeafs := by
  refine Merkle.applyMutations_map_range hnd hms fun c hc hnot => ?_
  rw [chunk_remove_of_notMem hs hc fun hmem => hnot (hkeys c hmem)]

end

omit [Tip5.CollisionFree D]

variable {rr : RemovalRecord D}

/-- **Removal refines the ledger.**  The accumulator of a ledger becomes that of the ledger with
the record's indices, and the new chunks are handed out. -/
theorem removeHelper_accumulator (hs : L.Synced rr) (hr : L.Removable rr) :
    L.accumulator.removeHelper rr = some ((L.remove rr hs).accumulator,
        rr.targetChunks.allChunkIndices.map fun c => (c, (L.remove rr hs).chunk c)) := by
  have hbatch := LawfulMmr.batchMutateLeafAndUpdateMps_ofLeafs L.inactiveLeafs []
    (L.removalState rr.targetChunks.allChunkIndices
      (rr.absoluteIndices.bloomIndices + L.bits)).2.leafMutations (by simp)
    (by simpa [removalState, comp_def] using hr.nodup_keys)
    (by
      intro m hm
      simp only [removalState, leafMutations_ofKeys, List.mem_map] at hm
      obtain ⟨c, hc, rfl⟩ := hm
      exact ⟨by simpa using hs.key_lt hc, rfl⟩)
  rw [applyMutations_remove hs (by simpa [removalState, comp_def] using hr.nodup_keys)
    (by
      intro m hm
      simp only [removalState, leafMutations_ofKeys, List.mem_map] at hm
      obtain ⟨c, hc, rfl⟩ := hm
      rfl)
    (by simp [removalState, comp_def])] at hbatch
  obtain ⟨r, hr', hres⟩ := Option.map_eq_some_iff.mp hbatch
  rw [removeHelper, getBatchIndex_accumulator, swbfActive_accumulator, foldlM_removeChunk hs hr]
  simp only [Option.bind_eq_bind, Option.bind_some, swbfInactive_accumulator]
  rw [List.map_nil] at hr'
  rw [hr', Option.bind_some]
  simp only [Prod.mk.injEq] at hres
  rw [hres.1]
  simp only [removalState, dictionary_ofKeys, List.map_map, comp_def]
  rfl

variable {A : MutatorSetAccumulator D} {r : MutatorSetAccumulator D × List (ℕ × Chunk)}

omit [Inhabited D] [DecidableEq D] [LawfulMmr D] in
theorem exists_of_removeHelper (hr : A.removeHelper rr = some r) :
    ∃ st m, rr.getChunkidxToIndicesDict.foldlM (removeChunk A.getBatchIndex)
        (A.swbfActive, rr.targetChunks) = some st ∧
      MmrOps.batchMutateLeafAndUpdateMps A.swbfInactive [] [] st.2.leafMutations = some m := by
  simp only [removeHelper, bind_eq_some] at hr
  obtain ⟨st, hfold, m, hbatch, -⟩ := hr
  exact ⟨st, m, hfold, hbatch⟩

/-- A removal whose record repeats a key panics, whatever the accumulator. -/
theorem nodup_of_removeHelper (hr : A.removeHelper rr = some r) :
    rr.targetChunks.allChunkIndices.Nodup := by
  obtain ⟨st, m, hfold, hbatch⟩ := exists_of_removeHelper hr
  have hkeys : st.2.allChunkIndices = rr.targetChunks.allChunkIndices :=
    foldlM_invariant
      (P := fun st : ActiveWindow × ChunkDictionary D =>
        st.2.allChunkIndices = rr.targetChunks.allChunkIndices)
      (fun s g _ s' hs hstep => (allChunkIndices_removeChunk hstep).trans hs) rfl hfold
  have hmap : st.2.leafMutations.map (·.leafIndex) = st.2.allChunkIndices := by
    simp [leafMutations, allChunkIndices, comp_def]
  by_contra hdup
  rw [← hkeys, ← hmap] at hdup
  rw [LawfulMmr.batchMutateLeafAndUpdateMps_dup _ _ _ _ hdup] at hbatch
  simp at hbatch

theorem removable_of_removeHelper (hr : L.accumulator.removeHelper rr = some r) :
    L.Removable rr := by
  refine ⟨nodup_of_removeHelper hr, fun i hi hle => ?_⟩
  obtain ⟨st, m, hfold, -⟩ := exists_of_removeHelper hr
  have hg : (chunkIndexOf i,
      rr.absoluteIndices.toArray.filter fun a => chunkIndexOf a = chunkIndexOf i) ∈
      rr.getChunkidxToIndicesDict :=
    (mem_groupByKey chunkIndexOf).mpr ⟨⟨i, hi, rfl⟩, rfl⟩
  obtain ⟨t, t', ht⟩ := exists_step_of_foldlM hfold hg
  exact bounds_of_removeChunk ht hle i (by simpa using hi)

theorem remove_accumulator (hs : L.Synced rr) (hA : L.accumulator.remove rr = some A) :
    A = (L.remove rr hs).accumulator := by
  obtain ⟨r, hr, rfl⟩ := map_eq_some_iff.mp hA
  rw [removeHelper_accumulator hs (removable_of_removeHelper hr)] at hr
  rw [← some_inj.mp hr]

end Ledger

end NyksNode
