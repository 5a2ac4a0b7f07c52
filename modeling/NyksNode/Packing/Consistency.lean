import NyksNode.Lib.Fold
import NyksNode.Packing.SparseMmr

/-!
# Consistent lists of removal records

`validate_consistency` is the only check between a decoded list and `convert_to_vec`.
This module says exactly what it accepts.
-/

namespace NyksNode.RemovalRecordList

open List Option Merkle MmrIndexing Nat

/-! ## Chunks and the leafs of trees -/

/-- The chunks of the indices below a bound. -/
def chunksBelow (start : ℕ) (indices : List ℕ) : List ℕ :=
  ascending ((indices.filter (· < start)).map (· / chunkSize))

theorem mem_chunksBelow {start c : ℕ} {is : List ℕ} :
    c ∈ chunksBelow start is ↔ ∃ i ∈ is, i < start ∧ i / chunkSize = c := by
  simp [chunksBelow, and_assoc]

theorem pairwise_chunksBelow (start : ℕ) (is : List ℕ) : (chunksBelow start is).Pairwise (· < ·) :=
  pairwise_ascending _

theorem chunkIndicesBelow_eq {start : ℕ} (hstart : start ≤ u64Bound * chunkSize) (is : List ℕ) :
    chunkIndicesBelow start is = some (chunksBelow start is) := by
  have hmap : (is.filter (· < start)).mapM (fun i => toU64 (i / chunkSize)) =
      some ((is.filter (· < start)).map (· / chunkSize)) := by
    apply mapM_eq_some
    intro i hi
    have hlt : i < start := by simpa using (mem_filter.mp hi).2
    rw [toU64, if_pos]
    rw [Nat.div_lt_iff_lt_mul chunkSize_pos]
    omega
  rw [chunkIndicesBelow, hmap, map_some, chunksBelow]

/-- The node of a chunk's leaf: the height of its tree, and its index there. -/
def leafNode (m c : ℕ) : ℕ × ℕ := (height c m, 2 ^ height c m + c % 2 ^ height c m)

/-- The leafs that lie in the tree of height `t`. -/
def treeLeafs (m : ℕ) (cs : List ℕ) (t : ℕ) : List ℕ :=
  (cs.filter fun c => height c m = t).map (· % 2 ^ t)

theorem mem_treeLeafs {m t j : ℕ} {cs : List ℕ} :
    j ∈ treeLeafs m cs t ↔ ∃ c ∈ cs, height c m = t ∧ c % 2 ^ t = j := by
  simp [treeLeafs, and_assoc]

theorem lt_of_mem_treeLeafs {m t : ℕ} {cs : List ℕ} : ∀ j ∈ treeLeafs m cs t, j < 2 ^ t := by
  intro j hj
  obtain ⟨c, -, -, rfl⟩ := mem_treeLeafs.mp hj
  exact mod_lt _ (by positivity)

/-- A node of a structure is the sibling of a node on the path of a chunk. -/
theorem exists_of_mem_authStructure {m t x : ℕ} {cs : List ℕ}
    (hx : x ∈ authStructure t (treeLeafs m cs t)) :
    ∃ c ∈ cs, height c m = t ∧ ∃ i < t, x = sibling ((leafNode m c).2 / 2 ^ i) := by
  obtain ⟨htwo, ⟨j, hj, i, hi, hpath⟩, -⟩ := (mem_authStructure lt_of_mem_treeLeafs).mp hx
  obtain ⟨c, hc, rfl, rfl⟩ := mem_treeLeafs.mp hj
  -- the root has no sibling
  have hit : i ≠ height c m := by
    rintro rfl
    rw [div_pow_self (mod_lt _ (by positivity))] at hpath
    have := two_le_sibling htwo
    omega
  refine ⟨c, hc, rfl, i, lt_of_le_of_ne hi hit, ?_⟩
  rw [← sibling_sibling x, hpath]
  rfl

theorem leafNode_injective {m c c' : ℕ} (hc : c < m) (hc' : c' < m)
    (h : leafNode m c = leafNode m c') : c = c' := by
  rw [leafNode, leafNode, Prod.mk.injEq] at h
  obtain ⟨ht, hx⟩ := h
  rw [← ht] at hx
  have hd : c / 2 ^ height c m = c' / 2 ^ height c m := by
    have h₁ := (height_spec hc).1
    have h₂ := (height_spec hc').1
    rw [← ht] at h₂
    omega
  rw [← div_add_mod c (2 ^ height c m), hd, Nat.add_left_cancel hx, div_add_mod]

theorem height_lt {m c : ℕ} (hm : m < u64Bound) (hc : c < m) : height c m < 64 := by
  have hle := two_pow_le_of_mem_peakHeights (height_mem_peakHeights hc)
  exact (Nat.pow_lt_pow_iff_right (by decide : 1 < 2)).mp (lt_of_le_of_lt hle hm)

/-- The length of the authentication structure of each tree, highest tree first. -/
def expectedLengths (m : ℕ) (cs : List ℕ) : List ℕ :=
  (peakHeights m).map fun t => (authStructure t (treeLeafs m cs t)).length

/-! ## What the check accepts -/

section
variable {D : Type} [MmrIndexing]

theorem peakHeight_eq {m c : ℕ} (hc : c < m) :
    (MmrIndexing.getPeakHeights m)[peakIndex c m]? = some (height c m) := by
  rw [getPeakHeights_eq]
  exact getElem?_peakHeights_peakIndex hc

theorem mmrLeaf_eq {m c : ℕ} (hm : m < u64Bound) (hc : c < m) :
    mmrLeaf m c = some (peakIndex c m, c % 2 ^ height c m) := by
  have hclear : (2 ^ height c m + c % 2 ^ height c m) &&&
      ((u64Bound - 1) ^^^ (1 <<< height c m)) = c % 2 ^ height c m := by
    have hmod : c % 2 ^ height c m < 2 ^ height c m := mod_lt _ (by positivity)
    have h := and_complement_of_lt (a := 2 ^ height c m + c % 2 ^ height c m) (s := height c m)
      (w := 1) (n := 64) (by rw [pow_succ]; omega) (height_lt hm hc)
    rw [add_mod_left, mod_mod] at h
    exact h
  rw [mmrLeaf, leafIndexToMtIndexAndPeakIndex_eq hc, some_bind]
  simp [peakHeight_eq hc, hclear]

/-- The length of the structure of a tree, from any list of its leafs. -/
theorem structureLength_eq {m t : ℕ} {cs leafs : List ℕ}
    (h : ∀ j, j ∈ leafs ↔ j ∈ treeLeafs m cs t) :
    structureLength t leafs = some (authStructure t (treeLeafs m cs t)).length := by
  have hlt : ∀ j ∈ leafs, j < 2 ^ t := fun j hj => lt_of_mem_treeLeafs j ((h j).mp hj)
  rw [structureLength, one_shiftLeft, authenticationStructureNodeIndices_eq hlt,
    map_some, authStructure_congr h]

omit [MmrIndexing] in
theorem leafsOfTree_eq {m : ℕ} {cs : List ℕ} (hcs : ∀ c ∈ cs, c < m) (peak : ℕ × ℕ)
    (hpeak : peak ∈ (peakHeights m).zipIdx) :
    ∃ leafs, leafsOfTree (cs.map fun c => (peakIndex c m, c % 2 ^ height c m)).dedup peak =
        some leafs ∧ ∀ j, j ∈ leafs ↔ j ∈ treeLeafs m cs peak.1 := by
  obtain ⟨t, i⟩ := peak
  rw [mem_zipIdx_iff_getElem?] at hpeak
  -- a chunk lies in the tree at this position exactly if its tree has this height
  have hiff : ∀ c, c < m → (peakIndex c m = i ↔ height c m = t) := by
    intro c hc
    have hp := getElem?_peakHeights_peakIndex hc
    constructor
    · rintro rfl
      exact some_inj.mp (hp.symm.trans hpeak)
    · rintro rfl
      exact (getElem?_inj (peakIndex_lt hc) (nodup_peakHeights m)).mp (hp.trans hpeak.symm)
  set leafs := ((cs.map fun c => (peakIndex c m, c % 2 ^ height c m)).dedup.filter
    fun x => x.1 = i).map (·.2) with hleafs
  have hmem : ∀ j, j ∈ leafs ↔ j ∈ treeLeafs m cs t := by
    intro j
    rw [mem_treeLeafs, hleafs, List.mem_map]
    constructor
    · rintro ⟨x, hx, rfl⟩
      obtain ⟨hx, hi⟩ := mem_filter.mp hx
      obtain ⟨c, hc, rfl⟩ := mem_map.mp (mem_dedup.mp hx)
      have ht := (hiff c (hcs c hc)).mp (by simpa using hi)
      exact ⟨c, hc, ht, by rw [ht]⟩
    · rintro ⟨c, hc, ht, rfl⟩
      refine ⟨(peakIndex c m, c % 2 ^ height c m), mem_filter.mpr ⟨?_, ?_⟩, by rw [ht]⟩
      · exact mem_dedup.mpr (mem_map.mpr ⟨c, hc, rfl⟩)
      · simpa using (hiff c (hcs c hc)).mpr ht
  refine ⟨leafs, ?_, hmem⟩
  rw [leafsOfTree, ← hleafs, if_pos]
  intro j hj
  rw [Nat.one_shiftLeft]
  exact lt_of_mem_treeLeafs j ((hmem j).mp hj)

theorem lengths_eq {m : ℕ} {cs : List ℕ} (hcs : ∀ c ∈ cs, c < m) :
    ∃ trees, (peakHeights m).zipIdx.mapM
        (leafsOfTree (cs.map fun c => (peakIndex c m, c % 2 ^ height c m)).dedup) = some trees ∧
      ((peakHeights m).zip trees).mapM (fun x => structureLength x.1 x.2) =
        some (expectedLengths m cs) := by
  choose! leafs hleafs hmem using leafsOfTree_eq hcs
  refine ⟨_, mapM_eq_some hleafs, ?_⟩
  have hzip : (peakHeights m).zip ((peakHeights m).zipIdx.map leafs) =
      (peakHeights m).zipIdx.map fun x => (x.1, leafs x) := by
    apply List.ext_getElem
    · simp
    · intro i h₁ h₂
      simp
  rw [hzip, expectedLengths]
  have hmap := mapM_eq_some (l := (peakHeights m).zipIdx)
    (f := fun x => structureLength x.1 (leafs x))
    fun x hx => structureLength_eq (hmem x hx)
  rw [List.mapM_map]
  refine hmap.trans (congrArg some ?_)
  conv_rhs => rw [← List.zipIdx_map_fst 0 (peakHeights m)]
  rw [List.map_map]
  rfl

def swbfiLeafs (l : RemovalRecordList D) : ℕ := aoclToSwbfiLeafCounts l.numLeafsAocl

/-- The inactive chunks that the index sets touch. -/
def observed (l : RemovalRecordList D) : List ℕ :=
  chunksBelow (l.swbfiLeafs * chunkSize) (l.indexSets.flatMap (·.toArray))

section
omit [MmrIndexing]

theorem swbfiLeafs_lt (l : RemovalRecordList D) : l.swbfiLeafs < u64Bound := by
  have := l.numLeafsAocl_lt
  have hle : l.swbfiLeafs ≤ l.numLeafsAocl := by
    rw [swbfiLeafs, aoclToSwbfiLeafCounts]
    exact (Nat.div_le_self _ _).trans (sub_le _ _)
  exact lt_of_le_of_lt hle this

theorem observedChunkIndices_eq (l : RemovalRecordList D) :
    l.observedChunkIndices = some l.observed :=
  chunkIndicesBelow_eq (Nat.mul_le_mul_right _ l.swbfiLeafs_lt.le) _

theorem lt_of_mem_observed {l : RemovalRecordList D} : ∀ c ∈ l.observed, c < l.swbfiLeafs := by
  intro c hc
  obtain ⟨i, -, hi, rfl⟩ := mem_chunksBelow.mp hc
  rwa [Nat.div_lt_iff_lt_mul chunkSize_pos]

end

/-- **The check never panics**, and these are its three conditions. -/
theorem validateConsistency_eq (l : RemovalRecordList D) : l.validateConsistency = some
      (if l.observed.length ≠ l.chunks.length then
        .error (.chunks l.observed.length l.chunks.length)
      else if l.authenticationStructures.length ≠ (peakHeights l.swbfiLeafs).length then
        .error (.authenticationStructureCount l.authenticationStructures.length
          (peakHeights l.swbfiLeafs).length)
      else if (expectedLengths l.swbfiLeafs l.observed).insertionSort (· ≤ ·) ≠
          (l.authenticationStructures.map List.length).insertionSort (· ≤ ·) then
        .error (.authenticationStructureLength
          ((expectedLengths l.swbfiLeafs l.observed).insertionSort (· ≤ ·))
          ((l.authenticationStructures.map List.length).insertionSort (· ≤ ·))) else .ok ()) := by
  have hcs : ∀ c ∈ l.observed, c < l.swbfiLeafs := lt_of_mem_observed
  have hview : l.observed.mapM (mmrLeaf l.swbfiLeafs) = some (l.observed.map fun c =>
        (peakIndex c l.swbfiLeafs, c % 2 ^ height c l.swbfiLeafs)) :=
    mapM_eq_some fun c hc => mmrLeaf_eq l.swbfiLeafs_lt (hcs c hc)
  obtain ⟨trees, htrees, hlengths⟩ := lengths_eq hcs
  -- as many trees are active as there are different positions
  have hactive : ¬ (peakHeights l.swbfiLeafs).length < ((l.observed.map fun c =>
        (peakIndex c l.swbfiLeafs, c % 2 ^ height c l.swbfiLeafs)).map (·.1)).dedup.length := by
    rw [not_lt, List.map_map]
    have hsub : (l.observed.map ((·.1) ∘ fun c =>
        (peakIndex c l.swbfiLeafs, c % 2 ^ height c l.swbfiLeafs))).dedup ⊆
        range (peakHeights l.swbfiLeafs).length := by
      intro i hi
      obtain ⟨c, hc, rfl⟩ := mem_map.mp (mem_dedup.mp hi)
      exact mem_range.mpr (peakIndex_lt (hcs c hc))
    have := (nodup_dedup _).subperm hsub |>.length_le
    rwa [length_range] at this
  rw [validateConsistency, observedChunkIndices_eq, some_bind]
  split
  · rfl
  · have hm : aoclToSwbfiLeafCounts l.numLeafsAocl = l.swbfiLeafs := rfl
    simp only [hm, getPeakHeights_eq, hview, some_bind, htrees, if_neg hactive, hlengths]
    split
    · rfl
    · split <;> rfl

/-- What `validate_consistency` accepts.  The lengths of the structures are compared without regard
to the trees they belong to. -/
structure Consistent (l : RemovalRecordList D) : Prop where
  length_chunks : l.observed.length = l.chunks.length
  length_structures : l.authenticationStructures.length = (peakHeights l.swbfiLeafs).length
  lengths : (expectedLengths l.swbfiLeafs l.observed).Perm
    (l.authenticationStructures.map List.length)

theorem validateConsistency_eq_ok_iff (l : RemovalRecordList D) :
    l.validateConsistency = some (.ok ()) ↔ l.Consistent := by
  rw [validateConsistency_eq, some_inj]
  constructor
  · intro h
    split at h
    · cases h
    · rename_i hchunks
      split at h
      · cases h
      · rename_i hcount
        split at h
        · cases h
        · rename_i hlengths
          refine ⟨not_not.mp hchunks, not_not.mp hcount, ?_⟩
          have hperm := perm_insertionSort (· ≤ ·) (expectedLengths l.swbfiLeafs l.observed)
          rw [not_not.mp hlengths] at hperm
          exact hperm.symm.trans (perm_insertionSort _ _)
  · intro h
    have hsorted : (expectedLengths l.swbfiLeafs l.observed).insertionSort (· ≤ ·) =
        (l.authenticationStructures.map length).insertionSort (· ≤ ·) := by
      apply Perm.eq_of_pairwise' (pairwise_insertionSort _ _) (pairwise_insertionSort _ _)
      exact (perm_insertionSort _ _).trans (h.lengths.trans (perm_insertionSort _ _).symm)
    rw [if_neg (by simpa using h.length_chunks), if_neg (by simpa using h.length_structures),
      if_neg (by simpa using hsorted)]

end

end NyksNode.RemovalRecordList
