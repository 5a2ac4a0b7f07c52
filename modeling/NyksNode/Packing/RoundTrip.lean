import NyksNode.Packing.Encoding
import NyksNode.Packing.Gathering

/-!
# Packing and unpacking authentic records

Authentic records are packed, and unpacking gives them back.  Neither side knows how
many chunks there are: both estimate it, the one from the chunk indices and the lengths
of the paths, the other from the chunk indices and the heights of the trees.  The two
estimates agree, and none of the chunks moves to another tree.
-/

namespace NyksNode.RemovalRecordList

open List Option Function

open Merkle (sibling height peakHeights authStructure OnPath combine truncated)

/-! ## The two estimates -/

/-- The number of chunks without the trees lower than all those that hold a chunk of `cs`. -/
def explained (m : ℕ) (cs : List ℕ) : ℕ :=
  match cs.max? with
  | none => 0
  | some c => truncated m (height c m)

section Estimates
variable {m : ℕ} {cs : List ℕ}

theorem explained_le (m : ℕ) (cs : List ℕ) : explained m cs ≤ m := by
  rw [explained]
  split
  · exact Nat.zero_le _
  · exact Nat.div_mul_le_self _ _

theorem explained_fits (cs : List ℕ) (h : m * batchSize + 1 < u64Bound) :
    explained m cs * batchSize + 1 < u64Bound := by
  have := Nat.mul_le_mul_right batchSize (explained_le m cs)
  omega

section
variable (hcs : ∀ c ∈ cs, c < m)
include hcs

/-- The largest chunk index decides, and no chunk lies in a lower tree. -/
theorem exists_explained_eq (hne : cs ≠ []) :
    ∃ c ∈ cs, cs.max?.getD 0 = c ∧ explained m cs = truncated m (height c m) ∧
      ∀ d ∈ cs, height c m ≤ height d m := by
  cases hmax : cs.max? with
  | none => exact absurd (max?_eq_none_iff.mp hmax) hne
  | some c =>
    have hc := max?_mem hmax
    refine ⟨c, hc, rfl, by rw [explained, hmax], ?_⟩
    intro d hd
    exact Merkle.height_antitone ((max?_le_iff hmax).mp le_rfl d hd) (hcs c hc)

theorem height_explained {c : ℕ} (hc : c ∈ cs) :
    c < explained m cs ∧ height c (explained m cs) = height c m := by
  obtain ⟨d, -, -, heq, hle⟩ := exists_explained_eq hcs (ne_nil_of_mem hc)
  rw [heq]
  exact ⟨Merkle.lt_truncated (hcs c hc) (hle c hc), Merkle.height_truncated (hcs c hc) (hle c hc)⟩

theorem leafNode_explained {c : ℕ} (hc : c ∈ cs) : leafNode (explained m cs) c = leafNode m c := by
  rw [leafNode, leafNode, (height_explained hcs hc).2]

/-- **The estimate of `pack`**, from the lengths of the paths. -/
theorem leafEstimate_pathLengths :
    leafEstimate cs (ascending (cs.map fun c => height c m)) = explained m cs := by
  rcases eq_or_ne cs [] with rfl | hne
  · rfl
  · obtain ⟨c, hc, hmax, heq, hle⟩ := exists_explained_eq hcs hne
    rw [leafEstimate, hmax, heq]
    apply Merkle.foldl_withTree (hcs c hc) (pairwise_ascending _)
    · exact mem_ascending.mpr (mem_map.mpr ⟨c, hc, rfl⟩)
    · intro t ht
      obtain ⟨d, hd, rfl⟩ := mem_map.mp (mem_ascending.mp ht)
      exact ⟨Merkle.height_mem_peakHeights (hcs d hd), hle d hd⟩

/-- **The estimate of `try_unpack`**, from the heights of the trees. -/
theorem leafEstimate_peakHeights :
    leafEstimate cs (peakHeights (explained m cs)).reverse = explained m cs := by
  rcases eq_or_ne cs [] with rfl | hne
  · rfl
  · obtain ⟨c, hc, hmax, heq, hle⟩ := exists_explained_eq hcs hne
    obtain ⟨hlt, hheight⟩ := height_explained hcs hc
    have hpairwise : (peakHeights (explained m cs)).reverse.Pairwise (· < ·) :=
      pairwise_reverse.mpr (Merkle.pairwise_peakHeights _)
    rw [leafEstimate, hmax, Merkle.foldl_withTree hlt hpairwise]
    · rw [hheight, heq, Merkle.truncated_truncated]
    · exact mem_reverse.mpr (Merkle.height_mem_peakHeights hlt)
    · intro t ht
      have ht := mem_reverse.mp ht
      refine ⟨ht, ?_⟩
      rw [heq] at ht
      rw [hheight]
      exact Merkle.le_of_mem_peakHeights_truncated ht

theorem explained_explained : explained (explained m cs) cs = explained m cs := by
  rcases eq_or_ne cs [] with rfl | hne
  · rfl
  · obtain ⟨c, hc, hmax, heq, -⟩ := exists_explained_eq hcs hne
    obtain ⟨d, -, hmax', heq', -⟩ :=
      exists_explained_eq (fun d hd => (height_explained hcs hd).1) hne
    rw [heq', ← hmax', hmax, (height_explained hcs hc).2, heq, Merkle.truncated_truncated]

theorem explained_isLeast :
    IsLeast {k | ∀ c ∈ cs, c < k ∧ height c k = height c m} (explained m cs) := by
  refine ⟨fun c hc => height_explained hcs hc, fun k hk => ?_⟩
  rcases eq_or_ne cs [] with rfl | hne
  · exact Nat.zero_le k
  · obtain ⟨c, hc, -, heq, -⟩ := exists_explained_eq hcs hne
    obtain ⟨hlt, hheight⟩ := hk c hc
    have hspec := (Merkle.height_spec hlt).1
    -- the leaf counts agree down to the tree of the last leaf seen
    rw [hheight, ← (Merkle.height_spec (hcs c hc)).1] at hspec
    rw [heq, truncated, ← hspec]
    exact Nat.div_mul_le_self _ _

theorem pathLengths_lt (hm : m < u64Bound) :
    ∀ t ∈ ascending (cs.map fun c => height c m), t < 64 := by
  intro t ht
  obtain ⟨c, hc, rfl⟩ := mem_map.mp (mem_ascending.mp ht)
  exact height_lt hm (hcs c hc)

end

/-- **The estimate is the least number of chunks.**  The function returns a number of commitments
that comes with it. -/
theorem estimateNumLeafsAocl_least {n : ℕ} {observed : List ℕ} (hn : n < u64Bound)
    (hlt : ∀ c ∈ observed, c < n) :
    ∃ m, IsLeast {k | ∀ c ∈ observed, c < k ∧ height c k = height c n} m ∧
      (∀ c ∈ observed, height c m = height c n ∧ leafNode m c = leafNode n c) ∧
      (estimateNumLeafsAocl observed
          (ascending (observed.map fun c => height c n)).reverse).map (·.1) =
        if m * batchSize + 1 < u64Bound then some (m * batchSize + 1) else none := by
  refine ⟨_, explained_isLeast hlt,
    fun c hc => ⟨(height_explained hlt hc).2, leafNode_explained hlt hc⟩, ?_⟩
  rw [estimateNumLeafsAocl_eq (fun c hc => (hlt c hc).trans hn) (pathLengths_lt hlt hn)
    (nodup_ascending _)]
  simp only [(pairwise_ascending _).imp le_of_lt, true_and, leafEstimate_pathLengths hlt]
  split_ifs <;> rfl

/-- Three chunks in two of the three mountains over seven leafs. -/
theorem estimateNumLeafsAocl_least_three : ∃ m,
    IsLeast {k | ∀ c ∈ [0, 3, 5], c < k ∧ height c k = height c 7} m ∧
      (∀ c ∈ [0, 3, 5], height c m = height c 7 ∧ leafNode m c = leafNode 7 c) ∧
      (estimateNumLeafsAocl [0, 3, 5]
          (ascending ([0, 3, 5].map fun c => height c 7)).reverse).map (·.1) =
        if m * batchSize + 1 < u64Bound then some (m * batchSize + 1) else none :=
  estimateNumLeafsAocl_least (by decide) (by decide)

/-- A single chunk needs one leaf, and nine commitments. -/
theorem estimateNumLeafsAocl_one : ¬ ∃ k,
    (estimateNumLeafsAocl [0] (ascending ([0].map fun c => height c 1)).reverse).map (·.1) =
      some k ∧ IsLeast {k | ∀ c ∈ [0], c < k ∧ height c k = height c 1} k := by
  have hresult : (estimateNumLeafsAocl [0]
      (ascending ([0].map fun c => height c 1)).reverse).map (·.1) = some 9 := by decide +kernel
  rintro ⟨k, hk, hleast⟩
  rw [hresult] at hk
  cases hk
  exact absurd (hleast.1 0 (by decide)).2 (by decide)

/-- Chunks that are all below a smaller bound are the same for that bound. -/
theorem chunksBelow_eq_of_lt {m' : ℕ} {is : List ℕ} (hle : m' ≤ m)
    (hlt : ∀ c ∈ chunksBelow (m * chunkSize) is, c < m') :
    chunksBelow (m' * chunkSize) is = chunksBelow (m * chunkSize) is := by
  apply eq_of_pairwise_lt (pairwise_chunksBelow _ _) (pairwise_chunksBelow _ _)
  intro c
  constructor
  · intro hc
    obtain ⟨i, hi, hilt, rfl⟩ := mem_chunksBelow.mp hc
    exact mem_chunksBelow.mpr ⟨i, hi, lt_of_lt_of_le hilt (Nat.mul_le_mul_right _ hle), rfl⟩
  · intro hc
    have hcm := hlt c hc
    obtain ⟨i, hi, -, rfl⟩ := mem_chunksBelow.mp hc
    exact mem_chunksBelow.mpr ⟨i, hi, (Nat.div_lt_iff_lt_mul chunkSize_pos).mp hcm, rfl⟩

end Estimates

/-! ## Authentic nodes -/

section Authentic
variable {D : Type} [Tip5 D] {m : ℕ} {nodes : ℕ → ℕ → D} {chunkOf : ℕ → Chunk} {cs ks : List ℕ}

theorem Authentic.mono (ha : Authentic m nodes chunkOf cs) (hks : ∀ c ∈ ks, c ∈ cs) :
    Authentic m nodes chunkOf ks :=
  ⟨fun c hc => ha.lt c (hks c hc), fun c hc => ha.leaf c (hks c hc),
    fun c hc => ha.parent c (hks c hc)⟩

theorem Authentic.explained (ha : Authentic m nodes chunkOf cs) :
    Authentic (explained m cs) nodes chunkOf cs where
  lt c hc := (height_explained ha.lt hc).1
  leaf c hc := by rw [leafNode_explained ha.lt hc, ha.leaf c hc]
  parent c hc := by
    rw [leafNode_explained ha.lt hc, (height_explained ha.lt hc).2]
    exact ha.parent c hc

omit [Tip5 D] in
theorem entryOf_explained (hcs : ∀ c ∈ cs, c < m) {c : ℕ} (hc : c ∈ cs) :
    entryOf (explained m cs) nodes chunkOf c = entryOf m nodes chunkOf c := by
  rw [entryOf, entryOf, leafNode_explained hcs hc, (height_explained hcs hc).2]

theorem Authentic.combine_eq (ha : Authentic m nodes chunkOf cs) {t x : ℕ}
    (hx : OnPath t (treeLeafs m cs t) x) (htwo : 2 ≤ x) :
    nodes t (x / 2) = combine Tip5.hashPair x (nodes t x) (nodes t (sibling x)) := by
  obtain ⟨j, hj, i, hi, rfl⟩ := hx
  obtain ⟨c, hc, rfl, rfl⟩ := mem_treeLeafs.mp hj
  have hit : i ≠ height c m := by
    rintro rfl
    rw [Merkle.div_pow_self (Nat.mod_lt _ (by positivity))] at htwo
    omega
  exact ha.parent c hc i (lt_of_le_of_ne hi hit)

/-- Two siblings that are on a path or in the structure hash to a node on a path. -/
theorem Authentic.hashPair_eq (ha : Authentic m nodes chunkOf cs) {t p : ℕ}
    (hl : OnPath t (treeLeafs m cs t) (2 * p) ∨ 2 * p ∈ authStructure t (treeLeafs m cs t))
    (hr : OnPath t (treeLeafs m cs t) (2 * p + 1) ∨
      2 * p + 1 ∈ authStructure t (treeLeafs m cs t)) : OnPath t (treeLeafs m cs t) p ∧
      nodes t p = Tip5.hashPair (nodes t (2 * p)) (nodes t (2 * p + 1)) := by
  have hjs : ∀ j ∈ treeLeafs m cs t, j < 2 ^ t := lt_of_mem_treeLeafs
  have hsib : sibling (2 * p) = 2 * p + 1 := Merkle.sibling_of_even (by omega)
  have htwo : 2 ≤ 2 * p := by
    rcases hl with ⟨j, -, i, hi, hx⟩ | hl
    · have : 1 ≤ (2 ^ t + j) / 2 ^ i := by
        rw [Nat.one_le_div_iff (by positivity)]
        exact (Nat.pow_le_pow_right (by decide) hi).trans (Nat.le_add_right _ _)
      omega
    · exact ((Merkle.mem_authStructure hjs).mp hl).1
  have hparent := Merkle.onPath_parent_of_siblings hjs htwo hl (by rwa [hsib])
  rw [show 2 * p / 2 = p by omega] at hparent
  refine ⟨hparent, ?_⟩
  -- one of the two is on a path
  rcases hl with hl | hl
  · have h := ha.combine_eq hl htwo
    rwa [hsib, show 2 * p / 2 = p by omega, combine, if_pos (by omega)] at h
  · have hon : OnPath t (treeLeafs m cs t) (2 * p + 1) := by
      rw [← hsib]
      exact ((Merkle.mem_authStructure hjs).mp hl).2.1
    have h := ha.combine_eq hon (by omega)
    rwa [Merkle.sibling_of_odd (by omega), show (2 * p + 1) / 2 = p by omega,
      show 2 * p + 1 - 1 = 2 * p by omega, combine, if_neg (by omega)] at h

end Authentic

/-! ## Converting -/

section Convert
variable {D : Type} [Tip5 D] {m : ℕ} {nodes : ℕ → ℕ → D} {chunkOf : ℕ → Chunk}

/-- The chunks that records touch. -/
def touched (m : ℕ) (rrs : List (RemovalRecord D)) : List ℕ :=
  chunksBelow (m * chunkSize) (rrs.flatMap fun rr => rr.absoluteIndices.toArray)

/-- Records made against one mountain range of `m` chunks. -/
structure AuthenticRecords (m : ℕ) (nodes : ℕ → ℕ → D) (chunkOf : ℕ → Chunk)
    (rrs : List (RemovalRecord D)) : Prop where
  authentic : Authentic m nodes chunkOf (touched m rrs)
  dictionary : ∀ rr ∈ rrs, rr.targetChunks.dictionary =
    (chunksBelow (m * chunkSize) rr.absoluteIndices.toArray).map (entryOf m nodes chunkOf)

/-- What decoding finds in packed authentic records. -/
def decoded (m : ℕ) (nodes : ℕ → ℕ → D) (chunkOf : ℕ → Chunk) (rrs : List (RemovalRecord D)) :
    Decoding D :=
  ⟨(peakHeights m).reverse, structuresOf m nodes (touched m rrs), (touched m rrs).map chunkOf⟩

/-- The list in between. -/
def listOf (nodes : ℕ → ℕ → D) (chunkOf : ℕ → Chunk) (rrs : List (RemovalRecord D))
    (h : m * batchSize + 1 < u64Bound) : RemovalRecordList D :=
  (decoded m nodes chunkOf rrs).toList (rrs.map (·.absoluteIndices)) h

variable {rrs : List (RemovalRecord D)} (h : m * batchSize + 1 < u64Bound)

section
omit [Tip5 D]

theorem swbfiLeafs_listOf : (listOf nodes chunkOf rrs h).swbfiLeafs = m :=
  Decoding.swbfiLeafs_toList _ _ h

theorem observed_listOf : (listOf nodes chunkOf rrs h).observed = touched m rrs := by
  rw [observed, swbfiLeafs_listOf, touched]
  congr 1
  exact flatMap_map _ _ _

theorem consistent_listOf : (listOf nodes chunkOf rrs h).Consistent where
  length_chunks := by
    rw [observed_listOf]
    exact (List.length_map _).symm
  length_structures := by
    rw [swbfiLeafs_listOf]
    change (structuresOf m nodes (touched m rrs)).length = _
    rw [structuresOf, List.length_map, List.length_reverse]
  lengths := by
    rw [swbfiLeafs_listOf, observed_listOf]
    change (expectedLengths m (touched m rrs)).Perm
      ((structuresOf m nodes (touched m rrs)).map List.length)
    rw [structuresOf, List.map_map, List.map_reverse, expectedLengths]
    refine List.Perm.trans (List.Perm.of_eq ?_) (List.reverse_perm _).symm
    refine List.map_congr_left fun t _ => ?_
    rw [Function.comp_apply, length_map]

/-- Each tree has the values of the nodes that its structure calls for. -/
theorem trees_listOf : (listOf nodes chunkOf rrs h).trees = (peakHeights m).reverse.map fun t =>
    (t, (authStructure t (treeLeafs m (touched m rrs) t)).map (nodes t)) := by
  rw [trees, swbfiLeafs_listOf]
  change (peakHeights m).reverse.zip (structuresOf m nodes (touched m rrs)) = _
  apply ext_getElem
  · simp [structuresOf]
  · intro i h₁ h₂
    simp [structuresOf]

theorem mem_trees_listOf {tree : ℕ × List D} (htree : tree ∈ (listOf nodes chunkOf rrs h).trees) :
    tree.2 = (authStructure tree.1 (treeLeafs m (touched m rrs) tree.1)).map (nodes tree.1) := by
  rw [trees_listOf, List.mem_map] at htree
  obtain ⟨t, -, rfl⟩ := htree
  rfl

theorem heights_listOf_lt :
    ∀ tree ∈ (listOf nodes chunkOf rrs h).trees, tree.1 < encodingTreeHeightOffset := by
  intro tree htree
  rw [trees_listOf, List.mem_map] at htree
  obtain ⟨t, ht, rfl⟩ := htree
  have hle := Merkle.two_pow_le_of_mem_peakHeights (List.mem_reverse.mp ht)
  refine (Nat.pow_lt_pow_iff_right (by decide : 1 < 2)).mp (lt_of_le_of_lt hle ?_)
  change m < u64Bound
  rw [batchSize] at h
  omega

theorem lengthsMatch_listOf : (listOf nodes chunkOf rrs h).LengthsMatch := by
  intro tree htree
  rw [swbfiLeafs_listOf, observed_listOf, mem_trees_listOf h htree, length_map]

end

theorem agrees_completed (ha : Authentic m nodes chunkOf (touched m rrs))
    {s' : AssocMap (ℕ × ℕ) D} {t : ℕ}
    (hs' : Completes t (listOf nodes chunkOf rrs h).sparseMmr s') {x : ℕ} {d : D}
    (hd : s'.get? (t, x) = some d) : d = nodes t x := by
  set js := treeLeafs m (touched m rrs) t with hjs
  refine (hs'.generated
    (fun x d => d = nodes t x ∧ (OnPath t js x ∨ x ∈ authStructure t js)) ?_ ?_ x d hd).1
  · intro x d hx
    have hwhere := onPath_or_mem (present_iff.mpr ⟨d, hx⟩)
    rw [swbfiLeafs_listOf, observed_listOf] at hwhere
    refine ⟨?_, hwhere⟩
    have hentry := (get?_sparseMmr _).mp hx
    rw [swbfiLeafs_listOf, observed_listOf] at hentry
    rcases hentry with ⟨⟨c, chunk⟩, he, hnode, rfl⟩ | ⟨ds, htree, hzip⟩
    · obtain ⟨hc, hchunk⟩ := mem_zip_map.mp he
      rw [hchunk, ha.leaf c hc, hnode]
    · have hds : ds = (authStructure t js).map (nodes t) := mem_trees_listOf h htree
      rw [hds] at hzip
      exact (mem_zip_map.mp hzip).2
  · rintro p l r ⟨rfl, hl⟩ ⟨rfl, hr⟩
    obtain ⟨hon, heq⟩ := ha.hashPair_eq hl hr
    exact ⟨heq.symm, .inl hon⟩

omit [Tip5 D] in
theorem mem_touched {rr : RemovalRecord D} (hrr : rr ∈ rrs) {c : ℕ}
    (hc : c ∈ chunksBelow (m * chunkSize) rr.absoluteIndices.toArray) : c ∈ touched m rrs := by
  obtain ⟨i, hi, hlt, rfl⟩ := mem_chunksBelow.mp hc
  exact mem_chunksBelow.mpr ⟨i, mem_flatMap.mpr ⟨rr, hrr, hi⟩, hlt, rfl⟩

/-- The nodes that a structure calls for lie next to the paths of chunks. -/
theorem convertible_listOf (hchunks : ∀ c ∈ touched m rrs, isMarked ((chunkOf c).hash : D) = false)
    (hpaths : ∀ c ∈ touched m rrs, ∀ d ∈ (entryOf m nodes chunkOf c).2.1, isMarked d = false) :
    (listOf nodes chunkOf rrs h).Convertible := by
  refine (convertible_toList_iff h).mpr ⟨lengthsMatch_listOf h, ?_, ?_⟩
  · intro chunk hchunk
    obtain ⟨c, hc, rfl⟩ := mem_map.mp hchunk
    exact hchunks c hc
  · intro ds hds d hd
    obtain ⟨t, -, rfl⟩ := mem_map.mp hds
    rw [List.mem_map] at hd
    obtain ⟨x, hx, rfl⟩ := hd
    obtain ⟨c, hc, rfl, i, hi, rfl⟩ := exists_of_mem_authStructure hx
    exact hpaths c hc _ (mem_map.mpr ⟨i, mem_range.mpr hi, rfl⟩)

omit [Tip5 D] in
theorem new_map_entryOf {cs : List ℕ} (hcs : cs.Pairwise (· < ·)) :
    ChunkDictionary.new (cs.map (entryOf m nodes chunkOf)) =
      ⟨cs.map (entryOf m nodes chunkOf)⟩ := by
  rw [ChunkDictionary.new]
  congr 1
  apply List.Pairwise.insertionSort_eq
  exact pairwise_map.mpr (hcs.imp fun hlt => le_of_lt hlt)

section
variable [MmrIndexing] (hr : AuthenticRecords m nodes chunkOf rrs)
include hr

/-- **Converting the list in between gives the records back**, if it gets past the assertion. -/
theorem convertToVec_listOf_of_unmarked
    (hunmarked : (listOf nodes chunkOf rrs h).sparseMmr.values.any isMarked = false) :
    (listOf nodes chunkOf rrs h).convertToVec = some rrs := by
  set l := listOf nodes chunkOf rrs h with hl
  have hcons : l.Consistent := consistent_listOf h
  have hlen : l.LengthsMatch := lengthsMatch_listOf h
  obtain ⟨s', hrun, hs'⟩ := exists_completed l
  rw [convertToVec_eq hcons, if_pos hlen, hunmarked, if_neg Bool.false_ne_true, hrun, some_bind]
  have hm : l.swbfiLeafs = m := swbfiLeafs_listOf h
  have hobs : l.observed = touched m rrs := observed_listOf h
  have hstart : l.activeWindowStart = m * chunkSize := Decoding.activeWindowStart_toList _ _ h
  have hentry : ∀ c ∈ touched m rrs,
      restoreEntry l.swbfiLeafs (.ofList (l.observed.zip l.chunks)) s' c =
        some (entryOf m nodes chunkOf c) := by
    intro c hc
    have hmem : (c, chunkOf c) ∈ l.observed.zip l.chunks := by
      rw [hobs]
      exact mem_zip_map.mpr ⟨hc, rfl⟩
    have hval : ∀ i < height c l.swbfiLeafs,
        s'.get? (height c l.swbfiLeafs, sibling ((leafNode l.swbfiLeafs c).2 / 2 ^ i)) =
          some (nodes (height c m) (sibling ((leafNode l.swbfiLeafs c).2 / 2 ^ i))) := by
      intro i hi
      have hc' : c ∈ l.observed := by rwa [hobs]
      obtain ⟨d, hd⟩ := present_iff.mp (present_sibling hcons hlen hs' hc' hi)
      have ht := Merkle.height_mem_peakHeights (lt_of_mem_observed c hc')
      rw [hd, agrees_completed h hr.authentic (hs' _ ht) hd, hm]
    rw [restoreEntry_eq_some hmem _ hval, hm]
    rfl
  have hrecord : ∀ rr ∈ rrs, restoreRecord l.swbfiLeafs l.activeWindowStart
      (.ofList (l.observed.zip l.chunks)) s' rr.absoluteIndices = some rr := by
    intro rr hrr
    rw [restoreRecord, chunkIndicesBelow_eq l.activeWindowStart_le, some_bind, hstart,
      mapM_eq_some fun c hc => hentry c (mem_touched hrr hc), some_bind,
      new_map_entryOf (pairwise_chunksBelow _ _), ← hr.dictionary rr hrr]
  change (rrs.map (·.absoluteIndices)).mapM _ = some rrs
  rw [mapM_map]
  exact (mapM_eq_some hrecord).trans (by rw [List.map_id'])

theorem convertToVec_listOf (hchunks : ∀ c ∈ touched m rrs, isMarked ((chunkOf c).hash : D) = false)
    (hpaths : ∀ c ∈ touched m rrs, ∀ d ∈ (entryOf m nodes chunkOf c).2.1, isMarked d = false) :
    (listOf nodes chunkOf rrs h).convertToVec = some rrs := by
  have hconv := convertible_listOf h hchunks hpaths
  refine convertToVec_listOf_of_unmarked h hr ?_
  exact (any_isMarked_iff (consistent_listOf h) (lengthsMatch_listOf h)).mpr
    ⟨hconv.unmarked_chunks, hconv.unmarked_structures⟩

theorem eq_of_convertToVec_listOf
    {r : List (RemovalRecord D)} (hrun : (listOf nodes chunkOf rrs h).convertToVec = some r) :
    r = rrs := by
  cases hmarked : (listOf nodes chunkOf rrs h).sparseMmr.values.any isMarked with
  | true =>
    rw [convertToVec_eq (consistent_listOf h), if_pos (lengthsMatch_listOf h), hmarked, if_pos rfl]
      at hrun
    cases hrun
  | false =>
    rw [convertToVec_listOf_of_unmarked h hr hmarked] at hrun
    exact (some_inj.mp hrun).symm

end

end Convert

/-! ## Packing -/

section Pack
variable {D : Type} {m : ℕ} {nodes : ℕ → ℕ → D} {chunkOf : ℕ → Chunk}
  {rrs : List (RemovalRecord D)}

section Touched
variable [Tip5 D]

section
variable (hr : AuthenticRecords m nodes chunkOf rrs)
include hr

theorem AuthenticRecords.touched_explained :
    touched (explained m (touched m rrs)) rrs = touched m rrs :=
  chunksBelow_eq_of_lt (explained_le _ _)
    fun _ hc => (height_explained hr.authentic.lt hc).1

theorem AuthenticRecords.explained :
    AuthenticRecords (explained m (touched m rrs)) nodes chunkOf rrs where
  authentic := by
    rw [hr.touched_explained]
    exact hr.authentic.explained
  dictionary := by
    intro rr hrr
    have hlt : ∀ c ∈ chunksBelow (m * chunkSize) rr.absoluteIndices.toArray,
        c < RemovalRecordList.explained m (touched m rrs) :=
      fun c hc => (height_explained hr.authentic.lt (mem_touched hrr hc)).1
    rw [hr.dictionary rr hrr, chunksBelow_eq_of_lt (explained_le _ _) hlt]
    exact map_congr_left fun c hc =>
      (entryOf_explained hr.authentic.lt (mem_touched hrr hc)).symm

theorem AuthenticRecords.allChunkIndices {rr} (hrr : rr ∈ rrs) : rr.targetChunks.allChunkIndices =
      chunksBelow (m * chunkSize) rr.absoluteIndices.toArray := by
  rw [ChunkDictionary.allChunkIndices, hr.dictionary rr hrr, List.map_map]
  exact List.map_id' _

theorem AuthenticRecords.mem_allChunkIndices {c : ℕ} :
    c ∈ (rrs.flatMap fun rr => rr.targetChunks.allChunkIndices) ↔ c ∈ touched m rrs := by
  rw [mem_flatMap]
  constructor
  · rintro ⟨rr, hrr, hc⟩
    rw [hr.allChunkIndices hrr] at hc
    exact mem_touched hrr hc
  · intro hc
    obtain ⟨i, hi, hlt, rfl⟩ := mem_chunksBelow.mp hc
    obtain ⟨rr, hrr, hi⟩ := mem_flatMap.mp hi
    refine ⟨rr, hrr, ?_⟩
    rw [hr.allChunkIndices hrr]
    exact mem_chunksBelow.mpr ⟨i, hi, hlt, rfl⟩

theorem AuthenticRecords.entries_eq : (rrs.flatMap fun rr => rr.targetChunks.dictionary) =
      (rrs.flatMap fun rr => rr.targetChunks.allChunkIndices).map (entryOf m nodes chunkOf) := by
  rw [map_flatMap]
  apply flatMap_congr
  intro rr hrr
  rw [hr.allChunkIndices hrr]
  exact hr.dictionary rr hrr

theorem AuthenticRecords.mem_pathLengths {t : ℕ} :
    t ∈ (rrs.flatMap fun rr => rr.targetChunks.authenticationPaths.map List.length) ↔
      t ∈ (touched m rrs).map fun c => height c m := by
  have hlength : ∀ c, (entryOf m nodes chunkOf c).2.1.length = height c m := by
    intro c
    rw [entryOf, siblingsFrom, length_map, length_range]
  have hflat : (rrs.flatMap fun rr => rr.targetChunks.authenticationPaths.map length) =
      (rrs.flatMap fun rr => rr.targetChunks.allChunkIndices).map fun c => height c m := by
    rw [map_flatMap]
    apply flatMap_congr
    intro rr hrr
    rw [ChunkDictionary.authenticationPaths, hr.dictionary rr hrr, hr.allChunkIndices hrr,
      List.map_map, List.map_map]
    exact map_congr_left fun c _ => hlength c
  rw [hflat]
  simp [hr.mem_allChunkIndices]

end

/-- **Packing makes the list in between**, when nothing is hidden. -/
theorem AuthenticRecords.convertFromVec_eq [DecidableEq D] [MmrIndexing]
    (hr : AuthenticRecords m nodes chunkOf rrs) (h : m * batchSize + 1 < u64Bound)
    (hm : RemovalRecordList.explained m (touched m rrs) = m) :
    convertFromVec rrs = some (listOf nodes chunkOf rrs h) := by
  have hmlt : m < u64Bound := by
    rw [batchSize] at h
    omega
  have hlt := hr.authentic.lt
  have hobs : ascending (rrs.flatMap fun rr => rr.targetChunks.allChunkIndices) = touched m rrs :=
    ascending_eq (pairwise_chunksBelow _ _) fun c => hr.mem_allChunkIndices
  have hlengths : ascending (rrs.flatMap fun rr =>
      rr.targetChunks.authenticationPaths.map length) =
        ascending ((touched m rrs).map fun c => height c m) :=
    ascending_congr fun t => hr.mem_pathLengths
  have hest := leafEstimate_pathLengths hlt
  rw [hm] at hest
  rw [convertFromVec, hobs, hlengths,
    estimateNumLeafsAocl_eq (fun c hc => (hlt c hc).trans hmlt) (pathLengths_lt hlt hmlt)
      (nodup_ascending _),
    dif_pos ⟨(pairwise_ascending _).imp le_of_lt, by rwa [hest]⟩, some_bind]
  simp only [hest]
  rw [fromRemovalRecords_eq (m := m) ?_ ?_ hr.entries_eq, hobs]
  · rfl
  · change (m * batchSize + 1 - 1) / batchSize = m
    rw [Nat.add_sub_cancel, Nat.mul_div_cancel _ (by decide)]
  · exact hr.authentic.mono fun c hc => hr.mem_allChunkIndices.mp hc

end Touched

/-- Reading as many chunk indices as there are chunks finds those that are touched. -/
theorem observedChunkIndicesFromIndexSets_eq (chunkOf : ℕ → Chunk)
    (hindices : ∀ rr ∈ rrs, ∀ i ∈ rr.absoluteIndices.toArray, i / chunkSize < u64Bound) :
    observedChunkIndicesFromIndexSets (rrs.map (·.absoluteIndices))
      ((touched m rrs).map chunkOf).length = .ok (touched m rrs) := by
  set is := rrs.flatMap fun rr => rr.absoluteIndices.toArray with his
  have hflat : ((rrs.map (·.absoluteIndices)).flatMap (·.toArray)) = is := List.flatMap_map _ _ _
  have hfilter : (ascending (is.map (· / chunkSize))).filter (· < m) = touched m rrs := by
    apply eq_of_pairwise_lt ((pairwise_ascending _).filter _) (pairwise_chunksBelow _ _)
    intro c
    rw [mem_chunksBelow]
    simp only [List.mem_filter, mem_ascending, List.mem_map, decide_eq_true_eq]
    constructor
    · rintro ⟨⟨i, hi, rfl⟩, hlt⟩
      exact ⟨i, hi, (Nat.div_lt_iff_lt_mul chunkSize_pos).mp hlt, rfl⟩
    · rintro ⟨i, hi, hlt, rfl⟩
      exact ⟨⟨i, hi, rfl⟩, (Nat.div_lt_iff_lt_mul chunkSize_pos).mpr hlt⟩
  have hall : ∀ c ∈ is.map (· / chunkSize), c < u64Bound := by
    intro c hc
    obtain ⟨i, hi, rfl⟩ := List.mem_map.mp hc
    obtain ⟨rr, hrr, hi⟩ := List.mem_flatMap.mp hi
    exact hindices rr hrr i hi
  rw [observedChunkIndicesFromIndexSets, hflat, if_pos hall, List.length_map, ← hfilter,
    take_length_filter_lt (pairwise_ascending _)]

variable [MmrIndexing]

theorem decodeFromVec_recordsOf {packed : List Chunk} (h : m * batchSize + 1 < u64Bound)
    (hm : RemovalRecordList.explained m (touched m rrs) = m) (hlt : ∀ c ∈ touched m rrs, c < m)
    (hindices : ∀ rr ∈ rrs, ∀ i ∈ rr.absoluteIndices.toArray, i / chunkSize < u64Bound)
    (hpacked : PackedChunks packed ((touched m rrs).map chunkOf)) :
    decodeFromVec (recordsOf (rrs.map (·.absoluteIndices))
        ⟨zipTreesWithChunks (listOf nodes chunkOf rrs h).trees packed⟩) =
      some (.ok (listOf nodes chunkOf rrs h)) := by
  set dictionary : ChunkDictionary D :=
    ⟨zipTreesWithChunks (listOf nodes chunkOf rrs h).trees packed⟩ with hdictionary
  have hsets := map_absoluteIndices_recordsOf (rrs.map (·.absoluteIndices)) dictionary
  have hpairwise : ((peakHeights m).reverse).Pairwise (· < ·) :=
    pairwise_reverse.mpr (Merkle.pairwise_peakHeights _)
  -- without index sets there are no trees and no chunks
  have hnil : rrs.map (·.absoluteIndices) = [] → dictionary.dictionary = [] := by
    intro hrrs
    obtain rfl := map_eq_nil_iff.mp hrrs
    have hm0 : m = 0 := hm.symm
    subst hm0
    obtain rfl := forall₂_nil_right_iff.mp hpacked
    simp [hdictionary, trees_listOf, peakHeights, zipTreesWithChunks]
  have hentries : decodeEntries ⟨[], [], []⟩
      ((recordsOf (rrs.map (·.absoluteIndices)) dictionary).flatMap
        fun rr => rr.targetChunks.dictionary) = some (.ok (decoded m nodes chunkOf rrs)) := by
    rw [flatMap_dictionary_recordsOf hnil, hdictionary,
      decodeEntries_zipTreesWithChunks (heights_listOf_lt h) ?_ hpacked]
    · simp [trees_listOf, decoded, structuresOf, comp_def]
    · simpa [trees_listOf, comp_def] using hpairwise
  have hest : leafEstimate (touched m rrs) (peakHeights m).reverse = m := by
    have := leafEstimate_peakHeights hlt
    rwa [hm] at this
  have hobs := observedChunkIndicesFromIndexSets_eq (m := m) chunkOf hindices
  rw [← hsets] at hobs
  have hrun := decodeFromVec_eq_ok hentries hobs (hpairwise.imp le_of_lt) hest h
  rw [hsets] at hrun
  exact hrun (consistent_listOf h)

variable [Tip5 D] [DecidableEq D]

section
variable (hr : AuthenticRecords m nodes chunkOf rrs) (h : m * batchSize + 1 < u64Bound)
include hr h

variable (hindices : ∀ rr ∈ rrs, ∀ i ∈ rr.absoluteIndices.toArray, i / chunkSize < u64Bound)
include hindices

section
variable (hpack : ∀ c ∈ touched m rrs, ∃ p, (chunkOf c).pack = some p ∧
    p.tryUnpack = some (.ok (chunkOf c)))
  (hchunks : ∀ c ∈ touched m rrs, isMarked ((chunkOf c).hash : D) = false)
  (hpaths : ∀ c ∈ touched m rrs, ∀ d ∈ (entryOf m nodes chunkOf c).2.1, isMarked d = false)
include hpack hchunks hpaths

/-- **The round trip**, when nothing is hidden. -/
theorem AuthenticRecords.pack_tryUnpack_of_explained
    (hm : RemovalRecordList.explained m (touched m rrs) = m) :
    ∃ packed, pack rrs = some packed ∧ tryUnpack packed = some (.ok rrs) := by
  choose! packOf hpackOf hunpack using hpack
  have hmap : (listOf nodes chunkOf rrs h).chunks.mapM Chunk.pack =
      some ((touched m rrs).map packOf) := by
    change ((touched m rrs).map chunkOf).mapM Chunk.pack = _
    rw [mapM_map]
    exact mapM_eq_some hpackOf
  have hpacked : PackedChunks ((touched m rrs).map packOf) ((touched m rrs).map chunkOf) := by
    rw [PackedChunks, forall₂_map_left_iff, forall₂_map_right_iff, forall₂_same]
    exact hunpack
  refine ⟨recordsOf (rrs.map (·.absoluteIndices))
    ⟨zipTreesWithChunks (listOf nodes chunkOf rrs h).trees ((touched m rrs).map packOf)⟩, ?_, ?_⟩
  · rw [pack, hr.convertFromVec_eq h hm, some_bind,
      encodeAsVec_eq (consistent_listOf h), hmap, map_some]
    rfl
  · rw [tryUnpack, decodeFromVec_recordsOf h hm hr.authentic.lt hindices hpacked, some_bind]
    simp [convertToVec_listOf h hr hchunks hpaths]

/-- **The round trip.**  Leaving out the trees that nothing is seen of changes neither the records
nor their chunks. -/
theorem AuthenticRecords.pack_tryUnpack :
    ∃ packed, pack rrs = some packed ∧ tryUnpack packed = some (.ok rrs) := by
  have htouched := hr.touched_explained
  refine hr.explained.pack_tryUnpack_of_explained (explained_fits _ h) hindices ?_ ?_ ?_ ?_
  · rwa [htouched]
  · rwa [htouched]
  · rw [htouched]
    intro c hc d hd
    rw [entryOf_explained hr.authentic.lt hc] at hd
    exact hpaths c hc d hd
  · rw [htouched, explained_explained hr.authentic.lt]

end

variable {packed r : List (RemovalRecord D)} (hpack : pack rrs = some packed)
  (hunpack : tryUnpack packed = some (.ok r))
include hpack hunpack

theorem AuthenticRecords.eq_of_tryUnpack_of_explained
    (hm : RemovalRecordList.explained m (touched m rrs) = m) : r = rrs := by
  rw [pack, hr.convertFromVec_eq h hm, some_bind,
    encodeAsVec_eq (consistent_listOf h), map_eq_some_iff] at hpack
  obtain ⟨packs, hpacks, rfl⟩ := hpack
  have hpacked : PackedChunks packs ((touched m rrs).map chunkOf) :=
    (forall₂_of_mapM hpacks).flip.imp fun _ _ hc => Chunk.tryUnpack_of_pack hc
  change tryUnpack (recordsOf (rrs.map (·.absoluteIndices)) _) = _ at hunpack
  rw [tryUnpack, decodeFromVec_recordsOf h hm hr.authentic.lt hindices hpacked,
    some_bind] at hunpack
  simp only [map_eq_some_iff, Except.ok.injEq, exists_eq_right] at hunpack
  exact eq_of_convertToVec_listOf h hr hunpack

/-- **The round trip, if nothing panics.** -/
theorem AuthenticRecords.eq_of_tryUnpack : r = rrs := by
  have htouched := hr.touched_explained
  refine hr.explained.eq_of_tryUnpack_of_explained (explained_fits _ h) hindices hpack hunpack ?_
  rw [htouched, explained_explained hr.authentic.lt]

end

end Pack

end NyksNode.RemovalRecordList
