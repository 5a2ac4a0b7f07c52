import NyksNode.Crypto.Symbolic
import NyksNode.MutatorSet.Sync

/-!
# Membership proofs

A membership proof is in step with a ledger when its commitment path and its
dictionary are those of the ledger.  Such a proof verifies exactly as long as one of
the item's indices is unset, and both update functions keep a proof in step.
-/

namespace NyksNode

open MutatorSetAccumulator MsMembershipProof

open List Option ChunkDictionary AbsoluteIndexSet MmrAccumulator

/-! ## The indices of an item -/

namespace AbsoluteIndexSet
variable {D : Type} [Tip5 D] (item senderRandomness receiverPreimage : D) {leafIndex : ℕ}

/-- The indices of an item are the sampled ones, moved to the window of its batch. -/
theorem toArray_compute (hleaf : leafIndex < u64Bound) :
    (compute item senderRandomness receiverPreimage leafIndex).toArray =
      (relativeIndices item senderRandomness receiverPreimage leafIndex).map
        (· + leafIndex / batchSize * chunkSize) := by
  simp only [toArray, compute, List.map_map]
  refine List.map_congr_left fun x hx => ?_
  have hmin : (relativeIndices item senderRandomness receiverPreimage leafIndex).min?.getD 0 ≤ x :=
    min?_getD_le_of_mem hx
  have hlt : x < windowSize := Tip5.sampleIndices_lt _ _ _ _ _ _ (by decide) x hx
  simp only [Function.comp_apply, windowSize, batchSize, chunkSize, u128Max, u64Bound] at *
  omega

section
variable (hleaf : leafIndex < u64Bound) {i : ℕ}
  (hi : i ∈ (compute item senderRandomness receiverPreimage leafIndex).toArray)
include hleaf hi

theorem bounds_of_mem_toArray_compute : leafIndex / batchSize * chunkSize ≤ i ∧
      i < leafIndex / batchSize * chunkSize + windowSize := by
  rw [toArray_compute _ _ _ hleaf] at hi
  obtain ⟨x, hx, rfl⟩ := mem_map.mp hi
  have hlt : x < windowSize := Tip5.sampleIndices_lt _ _ _ _ _ _ (by decide) x hx
  omega

theorem lt_of_mem_toArray_compute : i < 2 ^ 76 := by
  have hbounds := (bounds_of_mem_toArray_compute _ _ _ hleaf hi).2
  simp only [windowSize, batchSize, chunkSize, u64Bound] at *
  omega

end

theorem bloomIndices_compute (hleaf : leafIndex < u64Bound) :
    (compute item senderRandomness receiverPreimage leafIndex).bloomIndices =
      (compute item senderRandomness receiverPreimage leafIndex).toArray :=
  bloomIndices_of_lt fun _ => lt_of_mem_toArray_compute _ _ _ hleaf

/-! ### The leaves an index set can come from -/

theorem checkedU128_of_lt {n : ℕ} (hn : n < 2 ^ 80) : checkedU128 n = some n :=
  if_pos (Nat.le_of_lt (hn.trans (by decide)))

/-- Only the sum that gives the largest index can overflow: the check on the first leaf bounds what
comes after it. -/
theorem aoclRange_eq_ite (s : AbsoluteIndexSet) {top first last : ℕ}
    (htop : s.distances.max?.getD 0 = top)
    (hfirst : (top + s.minimum - (windowSize - 1) + (chunkSize - 1)) / chunkSize * batchSize =
      first) (hlast : s.minimum / chunkSize * batchSize + (batchSize - 1) = last) : s.aoclRange =
      if windowSize ≤ top then some (.error .absoluteIndexExceedsTheoreticalBound)
      else if u128Max < top + s.minimum then none else if u64Bound ≤ first ∨ u64Bound ≤ last then
        some (.error .absoluteIndexExceedsTheoreticalBound) else some (.ok (first, last)) := by
  rw [aoclRange, htop]
  refine ite_congr rfl (fun _ => rfl) fun hwindow => ?_
  rcases lt_or_ge u128Max (top + s.minimum) with hover | hfits
  · rw [if_pos hover, checkedU128, if_neg hover.not_ge]
    rfl
  have hlow : nextMultipleOf (top + s.minimum - (windowSize - 1)) chunkSize =
      some ((top + s.minimum - (windowSize - 1) + (chunkSize - 1)) / chunkSize * chunkSize) := by
    rw [nextMultipleOf, Nat.add_sub_assoc chunkSize_pos]
    refine if_pos ?_
    simp only [windowSize, chunkSize, u128Max] at *
    omega
  rw [if_neg hfits.not_gt, checkedU128, if_pos hfits, bind_eq_bind, bind_some, hlow, bind_some,
    Nat.mul_div_cancel _ chunkSize_pos]
  dsimp only
  rw [hfirst]
  by_cases hbound : u64Bound ≤ first
  · rw [if_pos (Or.inl hbound)]
    exact if_pos hbound
  have hsmall : s.minimum < 2 ^ 74 := by
    simp only [windowSize, chunkSize, batchSize, u64Bound] at *
    omega
  have hend : checkedU128 (s.minimum + windowSize + 1) = some (s.minimum + windowSize + 1) :=
    checkedU128_of_lt (by rw [windowSize]; omega)
  have hhigh : nextMultipleOf (s.minimum + windowSize + 1) chunkSize =
      some (s.minimum / chunkSize * chunkSize + windowSize + chunkSize) := by
    rw [nextMultipleOf, checkedU128_of_lt (by simp only [windowSize, chunkSize]; omega)]
    simp only [windowSize, chunkSize, some_inj]
    omega
  refine (if_neg hbound).trans ?_
  rw [hend, bind_some, hhigh, bind_some, Nat.add_sub_cancel, Nat.add_sub_cancel,
    Nat.mul_div_cancel _ chunkSize_pos, hlast]
  exact ite_congr (by simp [hbound]) (fun _ => rfl) fun _ => rfl

/-- Without overflow, the range is read off the largest and the smallest index. -/
theorem aoclRange_eq {s : AbsoluteIndexSet} {top : ℕ} (htop : s.distances.max? = some top)
    (hwindow : top < windowSize) (hsmall : s.minimum + windowSize < 2 ^ 73) :
    s.aoclRange = some (.ok ((top + s.minimum - (windowSize - 1) + (chunkSize - 1)) / chunkSize *
      batchSize, s.minimum / chunkSize * batchSize + (batchSize - 1))) := by
  rw [s.aoclRange_eq_ite (by rw [htop, getD_some]) rfl rfl, if_neg hwindow.not_ge, if_neg, if_neg]
  all_goals
    simp only [windowSize, chunkSize, batchSize, u64Bound, u128Max] at *
    omega

/-- The leaf lies in a window that contains all indices of the set. -/
def Covers (leaf : ℕ) (s : AbsoluteIndexSet) : Prop :=
  ∀ i ∈ s.toArray, leaf / batchSize * chunkSize ≤ i ∧ i < leaf / batchSize * chunkSize + windowSize

/-- **The range of an arbitrary index set.**  Asking for it is safe unless the largest index
overflows while the distances look sound. -/
theorem aoclRange_safe_iff (s : AbsoluteIndexSet) :
    (∃ range, s.aoclRange = some range ∧ ∀ lo hi, range = .ok (lo, hi) →
      ∀ leaf, lo ≤ leaf → leaf ≤ hi → Covers leaf s) ↔
    (s.distances.max?.getD 0 < windowSize → s.distances.max?.getD 0 + s.minimum ≤ u128Max) := by
  rw [s.aoclRange_eq_ite rfl rfl rfl]
  split_ifs with hwindow hover hbound
  · simp [hwindow.not_gt]
  · simp [not_le.mp hwindow, hover]
  · simp [not_lt.mp hover]
  · simp only [some.injEq, exists_eq_left', Except.ok.injEq, Prod.mk.injEq]
    refine iff_of_true ?_ fun _ => not_lt.mp hover
    rintro lo hi ⟨rfl, rfl⟩ leaf hlo hhi i hi
    obtain ⟨x, hx, rfl⟩ := mem_map.mp hi
    have hle : x ≤ s.distances.max?.getD 0 := by
      obtain ⟨top, htop⟩ := ne_none_iff_exists'.mp (mt max?_eq_none_iff.mp (ne_nil_of_mem hx))
      rw [htop]
      exact (max?_eq_some_iff.mp htop).2 x hx
    simp only [windowSize, chunkSize, batchSize, u64Bound, u128Max] at *
    omega

theorem aoclRange_overflows :
    aoclRange ⟨u128Max, replicate numTrials 1, length_replicate⟩ = none := by
  decide +kernel

/-- **The range is exact**: it holds the leaf itself, and precisely the leaves whose window contains
all indices of the set. -/
theorem aoclRange_compute (hleaf : leafIndex < 2 ^ 63) :
    ∃ lo hi, (compute item senderRandomness receiverPreimage leafIndex).aoclRange =
        some (.ok (lo, hi)) ∧ lo ≤ leafIndex ∧ leafIndex ≤ hi ∧ ∀ leaf, lo ≤ leaf ∧ leaf ≤ hi ↔
        ∀ i ∈ (compute item senderRandomness receiverPreimage leafIndex).toArray,
          leaf / batchSize * chunkSize ≤ i ∧ i < leaf / batchSize * chunkSize + windowSize := by
  have hu64 : leafIndex < u64Bound := hleaf.trans (by decide)
  set indices := relativeIndices item senderRandomness receiverPreimage leafIndex with hindices
  have hlt : ∀ x ∈ indices, x < windowSize :=
    fun x hx => Tip5.sampleIndices_lt _ _ _ _ _ _ (by decide) x hx
  have hne : indices ≠ [] := by
    intro hnil
    have hlen : indices.length = numTrials := Tip5.length_sampleIndices _ _ _ _ _ _
    rw [hnil] at hlen
    exact absurd hlen (by decide)
  obtain ⟨bottom, hbottom⟩ := ne_none_iff_exists'.mp (mt min?_eq_none_iff.mp hne)
  obtain ⟨top, htop⟩ := ne_none_iff_exists'.mp (mt max?_eq_none_iff.mp hne)
  obtain ⟨hbottomMem, hbottomLe⟩ := min?_eq_some_iff.mp hbottom
  obtain ⟨htopMem, htopLe⟩ := max?_eq_some_iff.mp htop
  have hspan := hbottomLe top htopMem
  have htopLt := hlt top htopMem
  have hmin : (compute item senderRandomness receiverPreimage leafIndex).minimum =
      bottom + leafIndex / batchSize * chunkSize := by
    change indices.min?.getD 0 + _ = _
    rw [hbottom, getD_some]
  have hmax : (compute item senderRandomness receiverPreimage leafIndex).distances.max? =
      some (top - bottom) := by
    change (indices.map (· - indices.min?.getD 0)).max? = _
    rw [hbottom, getD_some, max?_eq_some_iff]
    refine ⟨mem_map_of_mem htopMem, fun d hd => ?_⟩
    obtain ⟨x, hx, rfl⟩ := mem_map.mp hd
    exact Nat.sub_le_sub_right (htopLe x hx) bottom
  -- all indices lie in a window once the smallest and the largest do
  have hwindow : ∀ w, (∀ i ∈ (compute item senderRandomness receiverPreimage leafIndex).toArray,
      w ≤ i ∧ i < w + windowSize) ↔ w ≤ bottom + leafIndex / batchSize * chunkSize ∧
        top + leafIndex / batchSize * chunkSize < w + windowSize := by
    intro w
    rw [toArray_compute _ _ _ hu64, ← hindices, List.forall_mem_map]
    constructor
    · intro h
      exact ⟨(h bottom hbottomMem).1, (h top htopMem).2⟩
    · intro h x hx
      have := hbottomLe x hx
      have := htopLe x hx
      omega
  simp only [windowSize, chunkSize, batchSize] at hmin hwindow htopLt
  refine ⟨_, _, aoclRange_eq hmax (by rw [windowSize]; omega) (by rw [hmin, windowSize]; omega),
    ?_, ?_, ?_⟩
  · simp only [hmin, windowSize, chunkSize, batchSize]
    omega
  · simp only [hmin, chunkSize, batchSize]
    omega
  · intro leaf
    simp only [windowSize, chunkSize, batchSize]
    rw [hwindow, hmin]
    omega

theorem aoclRange_compute_twenty :
    ∃ lo hi, (compute SymbolicDigest.zero .zero .zero 20).aoclRange = some (.ok (lo, hi)) ∧
      lo ≤ 20 ∧ 20 ≤ hi := by
  obtain ⟨lo, hi, hrange, hlo, hhi, -⟩ :=
    aoclRange_compute SymbolicDigest.zero .zero .zero (show 20 < 2 ^ 63 by decide)
  exact ⟨lo, hi, hrange, hlo, hhi⟩

end AbsoluteIndexSet

/-- A proof verifies, and its dictionary holds exactly the chunks that its indices need, each
once. -/
structure MutatorSetAccumulator.Proves {D : Type} [Tip5 D] [MmrOps D] (A : MutatorSetAccumulator D)
    (item : D) (mp : MsMembershipProof D) : Prop where
  verify : A.verify item mp = some true
  validate : (A.drop item mp).validate A = true
  nodup_keys : mp.targetChunks.allChunkIndices.Nodup

namespace Ledger
variable {D : Type}

/-! ## Looking up an index -/

theorem contains_chunk (L : Ledger D) (i : ℕ) :
    (L.chunk (i / chunkSize)).contains (i % chunkSize) = some (decide (i ∈ L.bits)) := by
  rw [Chunk.contains_mod, some_inj, Bool.eq_iff_iff, contains_iff_mem, decide_eq_true_iff]
  exact SlidingFilter.mod_mem_chunk

theorem contains_window {L : Ledger D} {i : ℕ} (hle : L.windowStart ≤ i)
    (hlt : i < L.windowStart + windowSize) :
    L.window.contains ((i - L.windowStart) % u32Bound) = some (decide (i ∈ L.bits)) := by
  have hsub : i - L.windowStart < windowSize := by omega
  have hmod : (i - L.windowStart) % u32Bound = i - L.windowStart := by
    apply Nat.mod_eq_of_lt
    simp only [windowSize, u32Bound] at *
    omega
  rw [hmod, ActiveWindow.contains, if_pos hsub, some_inj, Bool.eq_iff_iff,
    contains_iff_mem, decide_eq_true_iff]
  exact SlidingFilter.sub_mem_window hle

theorem div_lt_batchIndex_iff (L : Ledger D) (i : ℕ) :
    i / chunkSize < L.batchIndex ↔ i < L.windowStart :=
  Nat.div_lt_iff_lt_mul chunkSize_pos

variable [Tip5 D] [Inhabited D] {L : Ledger D} {rr : RemovalRecord D}

section
variable (hs : L.Synced rr) {i : ℕ} (hi : i ∈ rr.absoluteIndices.toArray)
include hs hi

theorem get_synced (hlt : chunkIndexOf i < L.batchIndex) :
    rr.targetChunks.get (chunkIndexOf i) = some (L.authenticatedChunk (chunkIndexOf i)) := by
  rw [hs.chunks, dictionary, get_ofKeys, if_pos (hs.mem_keys.mpr ⟨hlt, i, hi, rfl⟩)]

theorem isAbsent_synced
    (hlt : i < 2 ^ 76) : L.accumulator.isAbsent rr i = some (decide (i ∉ L.bits)) := by
  have hidx := chunkIndexOf_of_lt hlt
  rw [isAbsent, activeWindowStart_accumulator, swbfActive_accumulator]
  by_cases hin : i < L.windowStart
  · have hc : chunkIndexOf i < L.batchIndex := by
      rw [hidx]
      exact (div_lt_batchIndex_iff L i).mpr hin
    rw [if_pos hin, get_synced hs hi hc]
    simp [authenticatedChunk, hidx, contains_chunk]
  · have hbit : i < L.windowStart + windowSize := by
      have := hs.bits_lt (bloomIndex i) (mem_bloomIndices.mpr ⟨i, hi, rfl⟩)
      rwa [bloomIndex_of_lt hlt] at this
    rw [if_neg hin, contains_window (not_lt.mp hin) hbit]
    simp

end

variable [DecidableEq D] [MmrOps D] [LawfulMmr D] [Tip5.CollisionFree D]

theorem synced_of_canRemove (hr : L.accumulator.canRemove rr = some true) : L.Synced rr := by
  rw [← validate_accumulator_iff]
  by_contra hv
  rw [canRemove, if_pos (by simpa using hv)] at hr
  simp at hr

/-- **What `can_remove` decides** for a record in step: whether an index is unset. -/
theorem canRemove_synced (hs : L.Synced rr)
    (hlt : ∀ i ∈ rr.absoluteIndices.toArray, i < 2 ^ 76) : L.accumulator.canRemove rr =
      some (rr.absoluteIndices.toArray.any fun i => decide (i ∉ L.bits)) := by
  rw [canRemove, (validate_accumulator_iff L rr).mpr hs]
  exact anyM_eq_some fun i hi => isAbsent_synced hs hi (hlt i hi)

/-! ## Proofs in step with a ledger -/

/-- A membership proof in step with a ledger. -/
structure Tracks (L : Ledger D) (item : D) (mp : MsMembershipProof D) : Prop where
  /-- The item's commitment has the leaf index of the proof. -/
  leaf : L.commitments[mp.aoclLeafIndex]? = some (mp.additionRecord item).canonicalCommitment
  authPath : mp.authPathAocl = membershipProof L.commitments mp.aoclLeafIndex
  /-- The removal record of the item is in step. -/
  synced : L.Synced ⟨mp.computeIndices item, mp.targetChunks⟩
  nodup_keys : mp.targetChunks.allChunkIndices.Nodup

section
variable {item : D} {mp : MsMembershipProof D}
omit [DecidableEq D] [MmrOps D] [LawfulMmr D] [Tip5.CollisionFree D]

section
variable (ht : L.Tracks item mp)
include ht

theorem Tracks.leafIndex_lt_length : mp.aoclLeafIndex < L.commitments.length :=
  (List.getElem?_eq_some_iff.mp ht.leaf).1

theorem Tracks.leafIndex_lt : mp.aoclLeafIndex < u64Bound :=
  ht.leafIndex_lt_length.trans L.length_lt

theorem Tracks.lt_of_mem {i : ℕ} (hi : i ∈ (mp.computeIndices item).toArray) : i < 2 ^ 76 :=
  lt_of_mem_toArray_compute _ _ _ ht.leafIndex_lt hi

end

section
omit [Tip5 D] [Inhabited D]

theorem mem_toArray_iff {s : AbsoluteIndexSet} {i : ℕ} :
    i ∈ s.toArray ↔ (∃ g ∈ L.inactiveGroups s, i ∈ g.2) ∨ i ∈ L.activeIndices s := by
  constructor
  · intro hi
    have hg : (chunkIndexOf i, s.toArray.filter fun a => chunkIndexOf a = chunkIndexOf i) ∈
        indicesToHashMap s.toArray :=
      (mem_groupByKey chunkIndexOf).mpr ⟨⟨i, hi, rfl⟩, rfl⟩
    have hmem : i ∈ s.toArray.filter fun a => chunkIndexOf a = chunkIndexOf i := by simpa using hi
    by_cases hlt : chunkIndexOf i < L.batchIndex
    · exact .inl ⟨_, mem_filter.mpr ⟨hg, by simpa using hlt⟩, hmem⟩
    · exact .inr (mem_flatMap.mpr ⟨_, mem_filter.mpr ⟨hg, by simpa using hlt⟩, hmem⟩)
  · rintro (⟨g, hg, hi⟩ | hi)
    · exact (chunkIndexOf_of_mem_indicesToHashMap (mem_of_mem_filter hg) hi).1
    · obtain ⟨g, hg, hi⟩ := mem_flatMap.mp hi
      exact (chunkIndexOf_of_mem_indicesToHashMap (mem_of_mem_filter hg) hi).1

theorem chunkIndexOf_of_mem_activeIndices {s : AbsoluteIndexSet} {i : ℕ}
    (hi : i ∈ L.activeIndices s) : L.batchIndex ≤ chunkIndexOf i := by
  obtain ⟨g, hg, hi⟩ := mem_flatMap.mp hi
  obtain ⟨hg, hge⟩ := mem_filter.mp hg
  rw [(chunkIndexOf_of_mem_indicesToHashMap hg hi).2]
  simpa using hge

end

end

variable {item : D} {mp : MsMembershipProof D}

/-- The loop of `verify` over the inactive chunks of a proof in step. -/
theorem verifyInactive_tracks (ht : L.Tracks item mp) {gs : List (ℕ × List ℕ)}
    (hgs : ∀ g ∈ gs, g ∈ L.inactiveGroups (mp.computeIndices item)) (absent valid : Bool) :
    L.accumulator.verifyInactive mp gs absent valid =
      some (absent || gs.any fun g => g.2.any fun i => decide (i ∉ L.bits), true, valid) := by
  induction gs generalizing absent valid with
  | nil => simp [verifyInactive]
  | cons g gs ih =>
    obtain ⟨hg, hlt⟩ := mem_filter.mp (hgs g mem_cons_self)
    replace hlt : g.1 < L.batchIndex := by simpa using hlt
    obtain ⟨i, hi, hig⟩ := ((mem_groupByKey chunkIndexOf).mp hg).1
    have hget : mp.targetChunks.get g.1 = some (L.authenticatedChunk g.1) :=
      hig ▸ get_synced ht.synced hi (hig.symm ▸ hlt)
    have hvalid : MmrOps.verify (L.authenticatedChunk g.1).1 g.1
        (L.authenticatedChunk g.1).2.hash L.accumulator.swbfInactive.peaks
        L.accumulator.swbfInactive.numLeafs = true :=
      (verify_entry_iff L (g.1, L.authenticatedChunk g.1)).mpr ⟨hlt, rfl⟩
    have hany : (g.2.anyM fun i => ((L.chunk g.1).contains (i % chunkSize)).map not) =
        some (g.2.any fun i => decide (i ∉ L.bits)) := by
      refine anyM_eq_some fun j hj => ?_
      obtain ⟨hmem, hjg⟩ := chunkIndexOf_of_mem_indicesToHashMap hg hj
      rw [← hjg, chunkIndexOf_of_lt (ht.lt_of_mem hmem), contains_chunk, map_some, decide_not]
    rw [verifyInactive, hget]
    simp only [hvalid, Bool.and_true]
    simp only [authenticatedChunk, hany, some_bind]
    rw [ih fun x hx => hgs x (mem_cons_of_mem _ hx), any_cons, Bool.or_assoc]

/-- **What `verify` decides** for a proof in step: whether an index of the item is unset. -/
theorem verify_tracks (ht : L.Tracks item mp) : L.accumulator.verify item mp =
      some ((mp.computeIndices item).toArray.any fun i => decide (i ∉ L.bits)) := by
  have hcommit : MmrOps.verify mp.authPathAocl mp.aoclLeafIndex
      (Tip5.hashPair (Tip5.hashPair item mp.senderRandomness)
        (Tip5.hashPair mp.receiverPreimage Tip5.zeroDigest))
      L.accumulator.aocl.peaks L.accumulator.aocl.numLeafs = true := by
    rw [aocl_accumulator, verify_ofLeafs_iff]
    exact ⟨ht.leaf, ht.authPath⟩
  have hactive : (L.activeIndices (mp.computeIndices item)).anyM (fun i =>
      (L.window.contains ((i - L.windowStart) % u32Bound)).map not) =
      some ((L.activeIndices (mp.computeIndices item)).any fun i => decide (i ∉ L.bits)) := by
    refine anyM_eq_some fun i hi => ?_
    have hmem : i ∈ (mp.computeIndices item).toArray := mem_toArray_iff.mpr (.inr hi)
    have hlt := ht.lt_of_mem hmem
    have hle : L.windowStart ≤ i := by
      rw [← not_lt, ← div_lt_batchIndex_iff, ← chunkIndexOf_of_lt hlt, not_lt]
      exact chunkIndexOf_of_mem_activeIndices hi
    have hbit := ht.synced.bits_lt (bloomIndex i)
      (mem_bloomIndices.mpr ⟨i, hmem, rfl⟩)
    rw [bloomIndex_of_lt hlt] at hbit
    rw [contains_window hle hbit, map_some, decide_not]
  have hor : (((L.inactiveGroups (mp.computeIndices item)).any fun g =>
        g.2.any fun i => decide (i ∉ L.bits)) ||
      (L.activeIndices (mp.computeIndices item)).any fun i => decide (i ∉ L.bits)) =
      (mp.computeIndices item).toArray.any fun i => decide (i ∉ L.bits) := by
    rw [Bool.eq_iff_iff, Bool.or_eq_true]
    simp only [List.any_eq_true, decide_eq_true_eq]
    constructor
    · rintro (⟨g, hg, i, hi, hbit⟩ | ⟨i, hi, hbit⟩)
      · exact ⟨i, mem_toArray_iff.mpr (.inl ⟨g, hg, hi⟩), hbit⟩
      · exact ⟨i, mem_toArray_iff.mpr (.inr hi), hbit⟩
    · rintro ⟨i, hi, hbit⟩
      rcases (mem_toArray_iff (L := L)).mp hi with ⟨g, hg, hi⟩ | hi
      · exact .inl ⟨g, hg, i, hi, hbit⟩
      · exact .inr ⟨i, hi, hbit⟩
  have hcount : ¬ L.accumulator.aocl.numLeafs ≤ mp.aoclLeafIndex :=
    not_le.mpr ht.leafIndex_lt_length
  rw [verify]
  simp only [if_neg hcount, hcommit, Bool.not_true, Bool.false_eq_true, if_false,
    splitByActivity_eq_ok ht.synced.bits_lt, verifyInactive_tracks ht (fun g hg => hg),
    some_bind, activeWindowStart_accumulator, swbfActive_accumulator,
    hactive, Bool.false_or, Bool.true_and, hor]

/-- A proof that verifies, and whose removal record validates, is in step. -/
theorem tracks_of_verify (hverify : L.accumulator.verify item mp = some true)
    (hvalid : (L.accumulator.drop item mp).validate L.accumulator = true)
    (hnodup : mp.targetChunks.allChunkIndices.Nodup) : L.Tracks item mp := by
  have hsynced := (validate_accumulator_iff L _).mp hvalid
  have hmember : MmrOps.verify mp.authPathAocl mp.aoclLeafIndex
      (mp.additionRecord item).canonicalCommitment L.accumulator.aocl.peaks
      L.accumulator.aocl.numLeafs = true := by
    rw [verify] at hverify
    by_cases hcount : L.accumulator.aocl.numLeafs ≤ mp.aoclLeafIndex
    · simp only [if_pos hcount] at hverify
      cases hverify
    · by_contra hnot
      rw [Bool.not_eq_true] at hnot
      simp only [if_neg hcount] at hverify
      rw [if_pos (by rw [Bool.not_eq_true']; exact hnot)] at hverify
      cases hverify
  rw [aocl_accumulator, verify_ofLeafs_iff] at hmember
  exact ⟨hmember.1, hmember.2, hsynced, hnodup⟩

theorem tracks_of_proves (h : L.accumulator.Proves item mp) : L.Tracks item mp :=
  tracks_of_verify h.verify h.validate h.nodup_keys

/-! ## Making a proof -/

omit [Tip5.CollisionFree D] in
/-- A proof made just before its item is added is in step from then on: none of the item's
indices is inactive yet. -/
theorem tracks_prove {sr rp : D} (hmp : L.accumulator.prove item sr rp = some mp)
    (hlt : L.commitments.length + 1 < u64Bound) :
    mp.senderRandomness = sr ∧ mp.receiverPreimage = rp ∧
      (L.add (commit item sr (digestHash rp)).canonicalCommitment hlt).Tracks item mp := by
  have happ := LawfulMmr.append_ofLeafs L.commitments (Tip5.hashPair item sr) hlt
  rw [prove, aocl_accumulator, happ, some_bind] at hmp
  cases hmp
  refine ⟨rfl, rfl, ?_⟩
  set L' := L.add (commit item sr (digestHash rp)).canonicalCommitment hlt
  have hbounds := fun i hi => bounds_of_mem_toArray_compute
    item sr rp L.length_lt (i := i) hi
  have hstart : L'.windowStart = L.commitments.length / batchSize * chunkSize :=
    windowStart_add L _ hlt
  refine ⟨?_, ?_, ?_, by simp [ChunkDictionary.empty, ChunkDictionary.allChunkIndices]⟩
  · change (L.commitments ++ [_])[L.commitments.length]? = _
    rw [getElem?_concat_length]
    rfl
  · exact membershipProof_concat_last _ _ _
  · refine ⟨fun j hj => ?_, ?_, rfl⟩
    · rw [computeIndices, numLeafs_ofLeafs, bloomIndices_compute _ _ _ L.length_lt] at hj
      rw [hstart]
      exact (hbounds j hj).2
    · ext c
      rw [mem_requiredChunks, List.mem_toFinset]
      simp only [ChunkDictionary.empty, ChunkDictionary.allChunkIndices, map_nil,
        not_mem_nil, false_iff, not_and, not_exists]
      rintro hc i hi rfl
      rw [chunkIndexOf_of_lt (lt_of_mem_toArray_compute _ _ _ L.length_lt hi),
        div_lt_batchIndex_iff, hstart] at hc
      have := (hbounds i hi).1
      omega

/-! ## Keeping a proof in step -/

section
omit [DecidableEq D] [MmrOps D] [LawfulMmr D] [Tip5.CollisionFree D]

def proofFromRemove (hs : L.Synced rr) (mp : MsMembershipProof D) : MsMembershipProof D :=
  { mp with targetChunks := (L.remove rr hs).dictionary mp.targetChunks.allChunkIndices }

def proofFromAdd (L : Ledger D) (d : D) (hlt : L.commitments.length + 1 < u64Bound) (item : D)
    (mp : MsMembershipProof D) : MsMembershipProof D :=
  { mp with
    authPathAocl := membershipProof (L.add d hlt).commitments mp.aoclLeafIndex
    targetChunks := (L.add d hlt).dictionary
      (L.keysAfterAdd ⟨mp.computeIndices item, mp.targetChunks⟩) }

theorem Tracks.proofFromRemove (ht : L.Tracks item mp) (hs : L.Synced rr) :
    (L.remove rr hs).Tracks item (proofFromRemove hs mp) := by
  refine ⟨ht.leaf, ht.authPath, hs.refreshFromRemove ht.synced, ?_⟩
  simpa [Ledger.proofFromRemove, dictionary] using ht.nodup_keys

theorem Tracks.proofFromAdd (ht : L.Tracks item mp) (d : D)
    (hlt : L.commitments.length + 1 < u64Bound) :
    (L.add d hlt).Tracks item (L.proofFromAdd d hlt item mp) := by
  refine ⟨?_, rfl, ht.synced.refreshFromAdd d hlt, ?_⟩
  · exact (getElem?_append_left ht.leafIndex_lt_length).trans ht.leaf
  · rw [Ledger.proofFromAdd, dictionary, allChunkIndices_ofKeys]
    exact nodup_keysAfterAdd ht.synced.supplies ht.nodup_keys

end

omit [Tip5.CollisionFree D] in
theorem updateFromRemove_tracks (ht : L.Tracks item mp) (hs : L.Synced rr) :
    ∃ b, mp.updateFromRemove rr = some (proofFromRemove hs mp, b) ∧
      (L.remove rr hs).Tracks item (proofFromRemove hs mp) := by
  obtain ⟨r, hr⟩ := updateDictionariesFromRemove_dictionary hs
    [mp.targetChunks.allChunkIndices] (by simpa using ht.nodup_keys)
    (by simpa using fun c hc => ht.synced.key_lt hc)
  rw [map_singleton, map_singleton, ← ht.synced.chunks] at hr
  exact ⟨_, by rw [updateFromRemove, hr]; rfl, ht.proofFromRemove hs⟩

/-- The dictionary of a proof while `update_from_addition` goes through its chunks: those of
`done` are as in the longer ledger, and the new chunk has its entry once it is done. -/
def additionState (L L' : Ledger D) (keys done : List ℕ) : ChunkDictionary D :=
  .ofKeys (if L.batchIndex ∈ done then keys ++ [L.batchIndex] else keys)
    fun c => if c ∈ done then L'.authenticatedChunk c else L.authenticatedChunk c

section
omit [DecidableEq D] [MmrOps D] [LawfulMmr D] [Tip5.CollisionFree D]
variable {keys done : List ℕ} {L' : Ledger D}

theorem additionState_nil : additionState L L' keys [] = L.dictionary keys := by
  simp only [additionState, not_mem_nil, if_false]
  rfl

end

section
variable {r : AdditionRecord D} (hlt : L.commitments.length + 1 < u64Bound)
  (hslides : windowSlides L.commitments.length = true)
include hslides
omit [Tip5.CollisionFree D]

/-- One round of the loop of `update_from_addition`. -/
theorem updateChunkFromAddition_additionState {keys done : List ℕ} (hnd : keys.Nodup)
    (hkeys : ∀ c ∈ keys, c < L.batchIndex) {c : ℕ} (hc : c < L.batchIndex → c ∈ keys)
    (hdone : c ∉ done) (b : Bool) : ∃ b', updateChunkFromAddition L.accumulator
        ((L.add r.canonicalCommitment hlt).authenticatedChunk L.batchIndex)
        (additionState L (L.add r.canonicalCommitment hlt) keys done, b) c =
      .ok (additionState L (L.add r.canonicalCommitment hlt) keys (c :: done), b') := by
  set L' := L.add r.canonicalCommitment hlt with hL'
  have hnot : L.batchIndex ∉ keys := fun hmem => lt_irrefl _ (hkeys _ hmem)
  rw [updateChunkFromAddition]
  simp only [swbfInactive_accumulator, numLeafs_ofLeafs, length_inactiveLeafs]
  rcases lt_trichotomy c L.batchIndex with hclt | rfl | hgt
  · -- an inactive chunk: its path is updated
    have hmem : c ∈ if L.batchIndex ∈ done then keys ++ [L.batchIndex] else keys := by
      split
      · exact mem_append_left _ (hc hclt)
      · exact hc hclt
    have hnd' : (if L.batchIndex ∈ done then keys ++ [L.batchIndex] else keys).Nodup := by
      split
      · rw [nodup_append']
        exact ⟨hnd, by simp, by simpa [disjoint_singleton] using hnot⟩
      · exact hnd
    have hget : (additionState L L' keys done).get c = some (L.authenticatedChunk c) := by
      rw [additionState, get_ofKeys, if_pos hmem, if_neg hdone]
    have hpath := LawfulMmr.updateFromAppend_ofLeafs L.inactiveLeafs
      (L.chunk L.batchIndex).hash c (by simpa using hclt)
    rw [← inactiveLeafs_add_of_slides r.canonicalCommitment hlt hslides,
      length_inactiveLeafs] at hpath
    refine ⟨b || (MmrOps.updateFromAppend (L.authenticatedChunk c).1 c L.batchIndex
      (L.chunk L.batchIndex).hash (ofLeafs L.inactiveLeafs).peaks).2, ?_⟩
    rw [if_pos hclt, hget]
    simp only [authenticatedChunk, hL', chunk_add, hpath]
    congr 2
    rw [additionState, modify_ofKeys hnd', additionState]
    simp only [mem_cons, hclt.ne', false_or]
    refine ofKeys_congr fun x _ => ?_
    by_cases hx : x = c
    · subst hx
      simp [hdone, authenticatedChunk]
    · simp [hx]
  · -- the chunk that becomes inactive: it gets an entry
    have hcontains : (additionState L L' keys done).containsKey L.batchIndex = false := by
      rw [additionState, containsKey_ofKeys, if_neg hdone]
      simpa using hnot
    refine ⟨true, ?_⟩
    rw [if_neg (lt_irrefl _), if_pos rfl, hcontains, if_neg Bool.false_ne_true]
    congr 2
    rw [additionState, if_neg hdone, insert_ofKeys_last hkeys, additionState, if_pos mem_cons_self]
    refine ofKeys_congr fun x _ => ?_
    by_cases hx : x = L.batchIndex
    · subst hx
      simp
    · simp [hx]
  · -- an active chunk: nothing happens
    refine ⟨b, ?_⟩
    rw [if_neg (not_lt.mpr hgt.le), if_neg hgt.ne']
    congr 2
    simp only [additionState, mem_cons, hgt.ne, false_or]
    refine ofKeys_congr fun x hx => ?_
    have hne : x ≠ c := by
      rintro rfl
      split at hx
      · rcases mem_append.mp hx with hx | hx
        · exact absurd (hkeys x hx) (not_lt.mpr hgt.le)
        · exact hgt.ne' (mem_singleton.mp hx)
      · exact absurd (hkeys x hx) (not_lt.mpr hgt.le)
    simp [hne]

/-- The whole loop of `update_from_addition`. -/
theorem foldlM_updateChunkFromAddition {keys : List ℕ} (hnd : keys.Nodup)
    (hkeys : ∀ c ∈ keys, c < L.batchIndex) (cs done : List ℕ)
    (hcs : ∀ c ∈ cs, c < L.batchIndex → c ∈ keys) (hcsnd : cs.Nodup)
    (hdone : ∀ c ∈ cs, c ∉ done) (b : Bool) : ∃ b', cs.foldlM (updateChunkFromAddition L.accumulator
          ((L.add r.canonicalCommitment hlt).authenticatedChunk L.batchIndex))
        (additionState L (L.add r.canonicalCommitment hlt) keys done, b) =
      .ok (additionState L (L.add r.canonicalCommitment hlt) keys (cs.reverse ++ done), b') := by
  induction cs generalizing done b with
  | nil => exact ⟨b, rfl⟩
  | cons c cs ih =>
    rw [nodup_cons] at hcsnd
    obtain ⟨b₁, h₁⟩ := updateChunkFromAddition_additionState (r := r) hlt hslides hnd hkeys
      (hcs c mem_cons_self) (hdone c mem_cons_self) b
    obtain ⟨b₂, h₂⟩ := ih (c :: done) (fun x hx => hcs x (mem_cons_of_mem _ hx))
      hcsnd.2 (fun x hx hmem => by
        rcases mem_cons.mp hmem with rfl | hmem
        · exact hcsnd.1 hx
        · exact hdone x (mem_cons_of_mem _ hx) hmem) b₁
    refine ⟨b₂, ?_⟩
    rw [foldlM_cons, h₁]
    refine h₂.trans ?_
    simp

end

def pathFromAdd (L : Ledger D) (d : D) (mp : MsMembershipProof D) : MsMembershipProof D :=
  { mp with authPathAocl := membershipProof (L.commitments ++ [d]) mp.aoclLeafIndex }

section
omit [Tip5.CollisionFree D]

theorem updateFromAppend_commitments (ht : L.Tracks item mp) (d : D) :
    (MmrOps.updateFromAppend mp.authPathAocl mp.aoclLeafIndex
      L.accumulator.aocl.numLeafs d L.accumulator.aocl.peaks).1 =
      membershipProof (L.commitments ++ [d]) mp.aoclLeafIndex := by
  rw [aocl_accumulator, numLeafs_ofLeafs, ht.authPath,
    LawfulMmr.updateFromAppend_ofLeafs _ _ _ ht.leafIndex_lt_length]

/-- If the window stays, an addition changes the path of the commitment only. -/
theorem updateFromAddition_of_not_slides (ht : L.Tracks item mp) (r : AdditionRecord D)
    (hs : windowSlides L.commitments.length = false) :
    ∃ b, mp.updateFromAddition item L.accumulator r =
      some (.ok (L.pathFromAdd r.canonicalCommitment mp, b)) := by
  apply Exists.intro
  rw [updateFromAddition, if_neg (by simpa using ht.leafIndex_lt_length)]
  simp only [updateFromAppend_commitments ht]
  rw [if_pos (by simpa using hs)]
  rfl

end

omit [DecidableEq D] [MmrOps D] [LawfulMmr D] [Tip5.CollisionFree D] in
theorem proofFromAdd_of_not_slides (ht : L.Tracks item mp) (d : D)
    (hlt : L.commitments.length + 1 < u64Bound) (hs : windowSlides L.commitments.length = false) :
    L.proofFromAdd d hlt item mp = L.pathFromAdd d mp := by
  have hdict : mp.targetChunks =
      (L.add d hlt).dictionary (L.keysAfterAdd ⟨mp.computeIndices item, mp.targetChunks⟩) := by
    rw [keysAfterAdd, if_neg (by simp [hs]), dictionary,
      authenticatedChunk_add_of_not_slides _ hlt hs]
    exact ht.synced.chunks
  rw [proofFromAdd, pathFromAdd, ← hdict, commitments_add]

omit [Tip5.CollisionFree D] in
theorem updateFromAddition_tracks (ht : L.Tracks item mp) (r : AdditionRecord D)
    (hlt : L.commitments.length + 1 < u64Bound) : ∃ b, mp.updateFromAddition item L.accumulator r =
        some (.ok (L.proofFromAdd r.canonicalCommitment hlt item mp, b)) ∧
      (L.add r.canonicalCommitment hlt).Tracks item
        (L.proofFromAdd r.canonicalCommitment hlt item mp) := by
  set L' := L.add r.canonicalCommitment hlt with hL'
  set rec : RemovalRecord D := ⟨mp.computeIndices item, mp.targetChunks⟩ with hrec
  have htracks := ht.proofFromAdd r.canonicalCommitment hlt
  cases hs : windowSlides L.commitments.length with
  | false =>
    obtain ⟨b, hb⟩ := updateFromAddition_of_not_slides ht r hs
    rw [← proofFromAdd_of_not_slides ht _ hlt hs] at hb
    exact ⟨b, hb, htracks⟩
  | true =>
    obtain ⟨b, hfold⟩ := foldlM_updateChunkFromAddition (r := r) hlt hs ht.nodup_keys
      (fun c hc => ht.synced.key_lt hc) (mp.computeIndices item).chunkIndices []
      (fun c hc hlt' => ht.synced.mem_keys.mpr ⟨hlt', mem_chunkIndices.mp hc⟩)
      (nodup_dedup _) (by simp) false
    have hfinal : additionState L L' mp.targetChunks.allChunkIndices
        ((mp.computeIndices item).chunkIndices.reverse ++ []) =
        L'.dictionary (L.keysAfterAdd rec) := by
      rw [append_nil, additionState, keysAfterAdd, dictionary]
      simp only [mem_reverse, hs, true_and]
      refine ofKeys_congr fun c hc => ?_
      have hmem : c ∈ (mp.computeIndices item).chunkIndices := by
        split at hc
        · rename_i hb
          rcases mem_append.mp hc with hc | hc
          · exact mem_chunkIndices.mpr (ht.synced.mem_keys.mp hc).2
          · exact mem_singleton.mp hc ▸ hb
        · exact mem_chunkIndices.mpr (ht.synced.mem_keys.mp hc).2
      rw [if_pos hmem]
    rw [additionState_nil, ← ht.synced.chunks, hfinal] at hfold
    refine exists_and_right.mpr ⟨?_, htracks⟩
    apply Exists.intro
    rw [updateFromAddition, if_neg (by simpa using ht.leafIndex_lt_length)]
    simp only [updateFromAppend_commitments ht]
    rw [if_neg (by simpa using hs), slidingChunk_accumulator r.canonicalCommitment hlt hs,
      some_bind]
    have hsame : ({ mp with
        authPathAocl := membershipProof (L.commitments ++ [r.canonicalCommitment])
          mp.aoclLeafIndex } : MsMembershipProof D).computeIndices item =
        mp.computeIndices item := rfl
    simp only [hsame, hfold]
    rfl

end Ledger

end NyksNode
