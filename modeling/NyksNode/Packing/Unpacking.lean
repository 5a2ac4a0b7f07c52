import Mathlib.Data.List.Destutter
import NyksNode.Lib.LeafCount
import NyksNode.Packing.Conversion

/-!
# Unpacking untrusted removal records

`try_unpack` reads entries and index sets, estimates how many leafs there are, checks
the list for consistency, and converts it.  Reading reports errors.  The estimate
asserts what reading has only partly checked, and the conversion what the consistency
check has only partly checked.
-/

namespace NyksNode.RemovalRecordList

open List Option Nat

open Merkle (peakHeights authStructure withTree)

variable {D : Type}

/-! ## The loop over the entries -/

/-- What holds of the loop variables after every entry. -/
structure Decoding.Valid (s : Decoding D) : Prop where
  heights_lt : ∀ t ∈ s.treeHeights, t < encodingTreeHeightOffset
  nodup_heights : s.treeHeights.Nodup

variable {s s' : Decoding D}

theorem checkTreeHeights_eq_ok (h : checkTreeHeights s = .ok s') :
    s' = s ∧ s.treeHeights.Nodup := by
  rw [checkTreeHeights] at h
  split at h
  · cases h
  · rename_i hlen
    cases h
    refine ⟨rfl, ?_⟩
    rw [← (dedup_sublist s.treeHeights).eq_of_length (not_not.mp hlen).symm]
    exact nodup_dedup _

theorem exists_decodeChunk (s : Decoding D) (chunk : Chunk) :
    ∃ r, decodeChunk s chunk = some r := by
  obtain ⟨r, hr⟩ := isSome_iff_exists.mp chunk.tryUnpack_isSome
  exact ⟨_, by rw [decodeChunk, hr, map_some]⟩

theorem treeHeights_decodeChunk {chunk : Chunk} (h : decodeChunk s chunk = some (.ok s')) :
    s'.treeHeights = s.treeHeights := by
  rw [decodeChunk, map_eq_some_iff] at h
  obtain ⟨r, -, hr⟩ := h
  cases r with
  | error e => cases hr
  | ok c => cases hr; rfl

theorem exists_decodeEntry (s : Decoding D) (e : ChunkEntry D) : ∃ r, decodeEntry s e = some r := by
  have hmap : ∀ (s : Decoding D) (chunk : Chunk),
      ∃ r, (decodeChunk s chunk).map (· >>= checkTreeHeights) = some r := by
    intro s chunk
    obtain ⟨r, hr⟩ := exists_decodeChunk s chunk
    exact ⟨_, by rw [hr, map_some]⟩
  rw [decodeEntry]
  split_ifs
  · exact ⟨_, rfl⟩
  · exact hmap _ _
  · exact ⟨_, rfl⟩
  · exact hmap _ _
  · exact ⟨_, rfl⟩

/-- What is left of an entry with a chunk: the heights are as before, and distinct. -/
theorem decodeChunk_check_eq_ok {chunk : Chunk}
    (h : (decodeChunk s chunk).map (· >>= checkTreeHeights) = some (.ok s')) :
    s'.treeHeights = s.treeHeights ∧ s'.treeHeights.Nodup := by
  obtain ⟨r, hr, hcheck⟩ := map_eq_some_iff.mp h
  cases r with
  | error e => cases hcheck
  | ok s₁ =>
    obtain ⟨rfl, hnd⟩ := checkTreeHeights_eq_ok hcheck
    exact ⟨treeHeights_decodeChunk hr, hnd⟩

theorem Decoding.Valid.decodeEntry {e : ChunkEntry D} (hs : s.Valid)
    (h : decodeEntry s e = some (.ok s')) : s'.Valid := by
  have hconcat : ∀ t < encodingTreeHeightOffset, ∀ u ∈ s.treeHeights ++ [t],
      u < encodingTreeHeightOffset := by
    intro t ht
    exact forall_mem_append.mpr ⟨hs.heights_lt, forall_mem_singleton.mpr ht⟩
  rw [RemovalRecordList.decodeEntry] at h
  split_ifs at h with hlow hlast hoffset hdelim
  · cases h
  · obtain ⟨heq, hnd⟩ := decodeChunk_check_eq_ok h
    refine ⟨?_, hnd⟩
    rw [heq]
    exact hconcat _ hlow
  · obtain ⟨rfl, hnd⟩ := checkTreeHeights_eq_ok (some_inj.mp h)
    exact ⟨hconcat _ (by omega), hnd⟩
  · obtain ⟨heq, hnd⟩ := decodeChunk_check_eq_ok h
    exact ⟨by rw [heq]; exact hs.heights_lt, hnd⟩
  · cases h

/-- **Reading the entries never panics.** -/
theorem exists_decodeEntries (s : Decoding D) (es : List (ChunkEntry D)) :
    ∃ r, decodeEntries s es = some r := by
  induction es generalizing s with
  | nil => exact ⟨_, rfl⟩
  | cons e es ih =>
    obtain ⟨r, hr⟩ := exists_decodeEntry s e
    rw [decodeEntries, hr, some_bind]
    cases r with
    | error err => exact ⟨_, rfl⟩
    | ok s₁ => exact ih s₁

theorem Decoding.Valid.decodeEntries {es : List (ChunkEntry D)} (hs : s.Valid)
    (h : decodeEntries s es = some (.ok s')) : s'.Valid := by
  induction es generalizing s with
  | nil =>
    cases h
    exact hs
  | cons e es ih =>
    rw [decodeEntries, bind_eq_some] at h
    obtain ⟨r, hr, hrest⟩ := h
    cases r with
    | error err => cases hrest
    | ok s₁ => exact ih (hs.decodeEntry hr) hrest

/-! ## The estimate -/

/-- The estimated number of inactive chunks. -/
def leafEstimate (observed treeHeights : List ℕ) : ℕ :=
  treeHeights.reverse.foldl withTree (observed.max?.getD 0)

variable {estimate : ℕ}

theorem setTree_eq {t : ℕ} (he : estimate < u64Bound) (ht : t < 64) :
    setTree estimate t = some (withTree estimate t) := by
  have hbit : estimate &&& 1 <<< t = 0 ↔ estimate / 2 ^ t % 2 ≠ 1 := by
    rw [one_shiftLeft, and_two_pow, testBit_eq_decide_div_mod_eq]
    by_cases h : estimate / 2 ^ t % 2 = 1 <;> simp [h]
  rw [setTree, if_pos ht]
  dsimp only
  split
  · rename_i hzero
    rw [one_shiftLeft]
    exact congrArg some (Merkle.or_and_eq_withTree he ht (hbit.mp hzero))
  · rename_i hone
    rw [withTree, if_pos (not_not.mp fun h => hone (hbit.mpr h))]

theorem foldlM_setTree {ts : List ℕ} (he : estimate < u64Bound) (hts : ∀ t ∈ ts, t < 64) :
    ts.foldlM setTree estimate = some (ts.foldl withTree estimate) := by
  induction ts generalizing estimate with
  | nil => rfl
  | cons t ts ih =>
    have ht := hts t mem_cons_self
    rw [foldlM_cons, setTree_eq he ht, some_bind,
      ih (Merkle.withTree_lt he ht) fun u hu => hts u (mem_cons_of_mem _ hu), foldl_cons]

/-- The estimate goes through exactly if the heights ascend and the result is a word. -/
theorem estimateNumLeafsAocl_eq {observed ts : List ℕ} (hobs : ∀ c ∈ observed, c < u64Bound)
    (hts : ∀ t ∈ ts, t < 64) (hnd : ts.Nodup) : estimateNumLeafsAocl observed ts.reverse =
      if h : ts.Pairwise (· ≤ ·) ∧ leafEstimate observed ts * batchSize + 1 < u64Bound then
        some ⟨_, h.2⟩ else none := by
  have hmax : observed.max?.getD 0 < u64Bound := by
    cases hm : observed.max? with
    | none => decide
    | some c => exact hobs c (max?_mem hm)
  have hchain : (ts.reverse.destutter (· ≠ ·)).length = ts.reverse.length := by
    rw [destutter_of_isChain _ _ (nodup_reverse.mpr hnd).isChain]
  rw [estimateNumLeafsAocl, reverse_reverse, if_neg (not_not.mpr hchain),
    foldlM_setTree hmax fun t ht => hts t (mem_reverse.mp ht), some_bind]
  by_cases hsorted : ts.Pairwise (· ≤ ·)
  · simp only [hsorted, not_true_eq_false, if_false, true_and]
    rfl
  · rw [if_pos hsorted, dif_neg fun h => hsorted h.1]

/-! ## Unpacking -/

/-- The list that decoded entries and index sets make, with an estimated number of chunks. -/
def Decoding.toList (s : Decoding D) (indexSets : List AbsoluteIndexSet) {estimate : ℕ}
    (h : estimate * batchSize + 1 < u64Bound) : RemovalRecordList D :=
  ⟨indexSets, s.authenticationStructures, s.chunks, estimate * batchSize + 1, h⟩

theorem Decoding.swbfiLeafs_toList (s : Decoding D) (indexSets : List AbsoluteIndexSet)
    (h : estimate * batchSize + 1 < u64Bound) : (s.toList indexSets h).swbfiLeafs = estimate := by
  change (estimate * batchSize + 1 - 1) / batchSize = estimate
  rw [Nat.add_sub_cancel, Nat.mul_div_cancel _ (by decide)]

/-- With an estimated number of leafs, check and conversion agree about the active window. -/
theorem Decoding.activeWindowStart_toList (s : Decoding D) (indexSets : List AbsoluteIndexSet)
    (h : estimate * batchSize + 1 < u64Bound) :
    (s.toList indexSets h).activeWindowStart = estimate * chunkSize := by
  change (estimate * batchSize + 1) / batchSize * chunkSize = _
  rw [Nat.add_comm, add_mul_div_right _ _ (by decide), show 1 / batchSize = 0 from rfl,
    Nat.zero_add]

section
variable [Tip5 D]

/-- What estimate and conversion assert of entries and index sets that have been read. -/
structure Decoding.Unpackable (s : Decoding D) (indexSets : List AbsoluteIndexSet)
    (observed : List ℕ) : Prop where
  sorted : s.treeHeights.Pairwise (· ≤ ·)
  fits : leafEstimate observed s.treeHeights * batchSize + 1 < u64Bound
  /-- Each structure has the length of its own tree. -/
  lengths : (s.toList indexSets fits).Consistent → (s.toList indexSets fits).LengthsMatch
  unmarked_chunks : (s.toList indexSets fits).Consistent →
    ∀ chunk ∈ s.chunks, isMarked (chunk.hash : D) = false
  unmarked_structures : (s.toList indexSets fits).Consistent →
    ∀ ds ∈ s.authenticationStructures, ∀ d ∈ ds, isMarked d = false

variable [MmrIndexing] {rrs : List (RemovalRecord D)} {s : Decoding D} {observed : List ℕ}

omit [MmrIndexing] in
/-- A decoded list is converted exactly if its structures fit and no digest is marked. -/
theorem convertible_toList_iff {indexSets : List AbsoluteIndexSet} {estimate : ℕ}
    (h : estimate * batchSize + 1 < u64Bound) :
    (s.toList indexSets h).Convertible ↔ (s.toList indexSets h).LengthsMatch ∧
      (∀ chunk ∈ s.chunks, isMarked (chunk.hash : D) = false) ∧
      ∀ ds ∈ s.authenticationStructures, ∀ d ∈ ds, isMarked d = false := by
  constructor
  · intro hc
    exact ⟨hc.lengths, hc.unmarked_chunks, hc.unmarked_structures⟩
  · rintro ⟨hlengths, hchunks, hstructures⟩
    refine ⟨hlengths, hchunks, hstructures, ?_⟩
    intro set _ i _ hi
    rwa [s.activeWindowStart_toList, ← s.swbfiLeafs_toList indexSets h] at hi

section
variable (hs : decodeEntries ⟨[], [], []⟩ (rrs.flatMap fun rr => rr.targetChunks.dictionary) =
    some (.ok s))
  (hobs : observedChunkIndicesFromIndexSets (rrs.map (·.absoluteIndices)) s.chunks.length =
    .ok observed)
include hs hobs

omit [Tip5 D] in
theorem decodeFromVec_eq : decodeFromVec rrs = if h : s.treeHeights.Pairwise (· ≤ ·) ∧
          leafEstimate observed s.treeHeights * batchSize + 1 < u64Bound then
        (s.toList (rrs.map (·.absoluteIndices)) h.2).validateConsistency.map fun
          | .error e => .error (.inconsistency e)
          | .ok () => .ok (s.toList (rrs.map (·.absoluteIndices)) h.2)
      else none := by
  have hvalid : s.Valid := Decoding.Valid.decodeEntries ⟨by simp, by simp⟩ hs
  have hlt : ∀ c ∈ observed, c < u64Bound := by
    rw [observedChunkIndicesFromIndexSets] at hobs
    split at hobs
    · rename_i hall
      cases hobs
      exact fun c hc => hall c (mem_ascending.mp (mem_of_mem_take hc))
    · cases hobs
  rw [decodeFromVec, hs, some_bind]
  simp only [hobs, estimateNumLeafsAocl_eq hlt hvalid.heights_lt hvalid.nodup_heights]
  split
  · rename_i h
    rw [some_bind]
    obtain ⟨r, hr⟩ : ∃ r,
        (s.toList (rrs.map (·.absoluteIndices)) h.2).validateConsistency = some r :=
      ⟨_, validateConsistency_eq _⟩
    change Option.bind (s.toList (rrs.map (·.absoluteIndices)) h.2).validateConsistency _ = _
    rw [hr, bind_some, map_some]
    cases r <;> rfl
  · rfl

omit [Tip5 D] in
/-- Decoding goes through when the estimate is right and the list consistent. -/
theorem decodeFromVec_eq_ok {estimate : ℕ} (hsorted : s.treeHeights.Pairwise (· ≤ ·))
    (hest : leafEstimate observed s.treeHeights = estimate)
    (h : estimate * batchSize + 1 < u64Bound)
    (hcons : (s.toList (rrs.map (·.absoluteIndices)) h).Consistent) :
    decodeFromVec rrs = some (.ok (s.toList (rrs.map (·.absoluteIndices)) h)) := by
  subst hest
  rw [decodeFromVec_eq hs hobs, dif_pos ⟨hsorted, h⟩,
    (validateConsistency_eq_ok_iff _).mpr hcons, map_some]

theorem isSome_tryUnpack_iff :
    (∃ r, tryUnpack rrs = some r) ↔ s.Unpackable (rrs.map (·.absoluteIndices)) observed := by
  rw [tryUnpack, decodeFromVec_eq hs hobs]
  split
  · rename_i h
    set l := s.toList (rrs.map (·.absoluteIndices)) h.2 with hl
    obtain ⟨r, hr⟩ : ∃ r, l.validateConsistency = some r := ⟨_, validateConsistency_eq _⟩
    rw [hr, map_some, some_bind]
    have hiff := l.validateConsistency_eq_ok_iff
    rw [hr] at hiff
    cases r with
    | error e =>
      -- nothing is asserted of an inconsistent list
      have hnot : ¬ l.Consistent := fun hc => by cases some_inj.mp (hiff.mpr hc)
      constructor
      · intro _
        exact ⟨h.1, h.2, fun hc => absurd hc hnot, fun hc => absurd hc hnot,
          fun hc => absurd hc hnot⟩
      · intro _
        exact ⟨_, rfl⟩
    | ok u =>
      have hc : l.Consistent := hiff.mp rfl
      have hconv : (∃ r, l.convertToVec.map Except.ok = some
          (r : Except RemovalRecordListUnpackError _)) ↔ l.Convertible := by
        rw [← isSome_convertToVec_iff hc, ← isSome_iff_exists, isSome_map]
      refine hconv.trans ((convertible_toList_iff h.2).trans ?_)
      constructor
      · rintro ⟨hlengths, hchunks, hstructures⟩
        exact ⟨h.1, h.2, fun _ => hlengths, fun _ => hchunks, fun _ => hstructures⟩
      · intro hu
        exact ⟨hu.lengths hc, hu.unmarked_chunks hc, hu.unmarked_structures hc⟩
  · rename_i h
    constructor
    · rintro ⟨r, hr⟩
      cases hr
    · intro hu
      exact absurd ⟨hu.sorted, hu.fits⟩ h

end

/-- **Unpacking returns, with records or with an error, exactly if what it asserts of the entries
it has read is true.** -/
theorem tryUnpack_returns_iff (rrs : List (RemovalRecord D)) : (∃ r, tryUnpack rrs = some r) ↔
      ∀ s observed, decodeEntries ⟨[], [], []⟩ (rrs.flatMap fun rr => rr.targetChunks.dictionary) =
          some (.ok s) →
        observedChunkIndicesFromIndexSets (rrs.map (·.absoluteIndices)) s.chunks.length =
          .ok observed → s.Unpackable (rrs.map (·.absoluteIndices)) observed := by
  constructor
  · intro h s observed hs hobs
    exact (isSome_tryUnpack_iff hs hobs).mp h
  · intro h
    obtain ⟨r, hr⟩ := exists_decodeEntries ⟨[], [], []⟩
      (rrs.flatMap fun rr => rr.targetChunks.dictionary)
    cases r with
    | error e => exact ⟨_, by rw [tryUnpack, decodeFromVec, hr]; rfl⟩
    | ok s =>
      cases hobs : observedChunkIndicesFromIndexSets (rrs.map (·.absoluteIndices))
          s.chunks.length with
      | error e =>
        refine ⟨.error e, ?_⟩
        rw [tryUnpack, decodeFromVec, hr]
        simp [hobs]
      | ok observed => exact (isSome_tryUnpack_iff hr hobs).mpr (h s observed hr hobs)

end

/-! ## Two trees in either order -/

/-- One record of the first chunk, with an entry for a tree of height zero and one for a tree of
height one. -/
def orderedTrees : List (RemovalRecord SymbolicDigest) :=
  [⟨zeroIndexSet, ⟨[(0, [], .emptyChunk), (65, [.zero], .emptyChunk)]⟩⟩]

theorem orderedTrees_unpacks : @tryUnpack _ _ MmrIndexing.reference orderedTrees =
      some (.ok [⟨zeroIndexSet, ⟨[(0, [.zero], .emptyChunk)]⟩⟩]) ∧ ∀ s observed,
      decodeEntries ⟨[], [], []⟩ (orderedTrees.flatMap fun rr => rr.targetChunks.dictionary) =
        some (.ok s) →
      observedChunkIndicesFromIndexSets (orderedTrees.map (·.absoluteIndices)) s.chunks.length =
        .ok observed → s.Unpackable (orderedTrees.map (·.absoluteIndices)) observed := by
  let _ := MmrIndexing.reference
  have hrun : tryUnpack orderedTrees =
      some (.ok [⟨zeroIndexSet, ⟨[(0, [.zero], .emptyChunk)]⟩⟩]) := by decide +kernel
  exact ⟨hrun, (tryUnpack_returns_iff orderedTrees).mp ⟨_, hrun⟩⟩

/-- Heights moved up by the offset are not compared with the one before. -/
def misorderedTrees : List (RemovalRecord SymbolicDigest) :=
  [⟨zeroIndexSet, ⟨[(65, [], .emptyChunk), (64, [], .emptyChunk)]⟩⟩]

theorem misorderedTrees_panics : @tryUnpack _ _ MmrIndexing.reference misorderedTrees = none := by
  decide +kernel

end NyksNode.RemovalRecordList
