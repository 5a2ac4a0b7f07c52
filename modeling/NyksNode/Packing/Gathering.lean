import NyksNode.Packing.Consistency

/-!
# Gathering authentic removal records

When all records were made against one mountain range, they agree about its nodes and
its chunks.  `from_removal_records` then meets no contradiction, and the list that it
makes holds the values of the nodes that the structures call for.
-/

namespace NyksNode.RemovalRecordList

open List Option Merkle AssocMap MmrIndexing Nat

variable {D : Type} [Tip5 D] {m : ℕ} {nodes : ℕ → ℕ → D} {chunkOf : ℕ → Chunk} {cs : List ℕ}

/-! ## Authentic chunks -/

/-- The nodes on the paths of the chunks `cs` are hashed from their children, and the leafs from
the chunks. -/
structure Authentic (m : ℕ) (nodes : ℕ → ℕ → D) (chunkOf : ℕ → Chunk) (cs : List ℕ) : Prop where
  lt : ∀ c ∈ cs, c < m
  leaf : ∀ c ∈ cs, (chunkOf c).hash = nodes (leafNode m c).1 (leafNode m c).2
  parent : ∀ c ∈ cs, ∀ i < height c m, nodes (height c m) ((leafNode m c).2 / 2 ^ i / 2) =
      combine Tip5.hashPair ((leafNode m c).2 / 2 ^ i)
        (nodes (height c m) ((leafNode m c).2 / 2 ^ i))
        (nodes (height c m) (sibling ((leafNode m c).2 / 2 ^ i)))

/-- The authentication path from a node: the values of the siblings on the way up. -/
def siblingsFrom (nodes : ℕ → ℕ → D) (t n x : ℕ) : List D :=
  (List.range n).map fun i => nodes t (sibling (x / 2 ^ i))

omit [Tip5 D] in
theorem siblingsFrom_succ (t n x : ℕ) :
    siblingsFrom nodes t (n + 1) x = nodes t (sibling x) :: siblingsFrom nodes t n (x / 2) := by
  rw [siblingsFrom, List.range_succ_eq_map, List.map_cons, pow_zero, Nat.div_one, List.map_map]
  congr 1
  exact List.map_congr_left fun i _ => by
    rw [Function.comp_apply, Nat.succ_eq_add_one, ← div_two_div_pow]

def entryOf (m : ℕ) (nodes : ℕ → ℕ → D) (chunkOf : ℕ → Chunk) (c : ℕ) : ChunkEntry D :=
  (c, siblingsFrom nodes (height c m) (height c m) (leafNode m c).2, chunkOf c)

/-! ## The nodes of a path -/

/-- Every node that is present has its authentic value. -/
def Agrees (nodes : ℕ → ℕ → D) (s : AssocMap (ℕ × ℕ) D) : Prop :=
  ∀ t x d, s.get? (t, x) = some d → d = nodes t x

/-- A map that differs from another one by further nodes. -/
def Keeps (s s' : AssocMap (ℕ × ℕ) D) : Prop := ∀ t x, Present s t x → Present s' t x

section
variable [DecidableEq D] {s : AssocMap (ℕ × ℕ) D}

omit [Tip5 D] in
theorem exists_insertNode (hs : Agrees nodes s) (t x : ℕ) :
    ∃ s', insertNode s (t, x) (nodes t x) = some s' ∧ Agrees nodes s' ∧ Keeps s s' ∧
      Present s' t x := by
  refine ⟨s.insert (t, x) (nodes t x), ?_, ?_, ?_, ?_⟩
  · rw [insertNode, if_neg]
    cases hget : s.get? (t, x) with
    | none => simp
    | some d => simp [hs t x d hget]
  · intro u y d hd
    rw [get?_insert] at hd
    split at hd
    · rename_i heq
      cases heq
      exact (some_inj.mp hd).symm
    · exact hs u y d hd
  · intro u y hy
    rw [Present, get?_insert]
    split
    · rfl
    · exact hy
  · rw [Present, get?_insert, if_pos rfl]
    rfl

theorem exists_insertPath {t n x : ℕ} (hs : Agrees nodes s)
    (hparent : ∀ i < n, nodes t (x / 2 ^ i / 2) =
      combine Tip5.hashPair (x / 2 ^ i) (nodes t (x / 2 ^ i)) (nodes t (sibling (x / 2 ^ i)))) :
    ∃ s', insertPath t s x (nodes t x) (siblingsFrom nodes t n x) = some s' ∧ Agrees nodes s' ∧
      Keeps s s' ∧ ∀ i < n, Present s' t (sibling (x / 2 ^ i)) := by
  induction n generalizing s x with
  | zero =>
    obtain ⟨s', hrun, hagrees, hkeeps, -⟩ := exists_insertNode hs t x
    exact ⟨s', hrun, hagrees, hkeeps, by simp⟩
  | succ n ih =>
    obtain ⟨s₁, hrun₁, hagrees₁, hkeeps₁, -⟩ := exists_insertNode hs t x
    obtain ⟨s₂, hrun₂, hagrees₂, hkeeps₂, hpresent⟩ := exists_insertNode hagrees₁ t (sibling x)
    have hup : ∀ i < n, nodes t (x / 2 / 2 ^ i / 2) = combine Tip5.hashPair (x / 2 / 2 ^ i)
        (nodes t (x / 2 / 2 ^ i)) (nodes t (sibling (x / 2 / 2 ^ i))) := by
      intro i hi
      rw [div_two_div_pow]
      exact hparent (i + 1) (by omega)
    obtain ⟨s₃, hrun₃, hagrees₃, hkeeps₃, hsiblings⟩ := ih hagrees₂ hup
    refine ⟨s₃, ?_, hagrees₃, fun u y hy => hkeeps₃ u y (hkeeps₂ u y (hkeeps₁ u y hy)), ?_⟩
    · have hrunning : (if x &&& 1 = 0 then Tip5.hashPair (nodes t x) (nodes t (sibling x))
          else Tip5.hashPair (nodes t (sibling x)) (nodes t x)) = nodes t (x / 2) := by
        have h0 := hparent 0 (by omega)
        rw [pow_zero, Nat.div_one, combine] at h0
        rw [h0, and_one_is_mod]
      rw [siblingsFrom_succ, insertPath, hrun₁, some_bind]
      change Option.bind (insertNode s₁ (t, sibling x) (nodes t (sibling x))) _ = _
      rw [hrun₂, bind_some, hrunning, shiftRight_one]
      exact hrun₃
    · intro i hi
      cases i with
      | zero =>
        rw [pow_zero, Nat.div_one]
        exact hkeeps₃ _ _ hpresent
      | succ i =>
        rw [← div_two_div_pow]
        exact hsiblings i (by omega)

variable [MmrIndexing]

/-- The second loop of `from_removal_records` puts in the siblings of all chunks. -/
theorem exists_foldlM_insertOpening (ha : Authentic m nodes chunkOf cs) (hs : Agrees nodes s) :
    ∃ s', (cs.map (entryOf m nodes chunkOf)).foldlM (insertOpening m) s = some s' ∧
      Agrees nodes s' ∧ Keeps s s' ∧ ∀ c ∈ cs, ∀ i < height c m,
        Present s' (height c m) (sibling ((leafNode m c).2 / 2 ^ i)) := by
  induction cs generalizing s with
  | nil => exact ⟨s, rfl, hs, fun _ _ h => h, by simp⟩
  | cons c cs ih =>
    have hmem : c ∈ c :: cs := mem_cons_self
    obtain ⟨s₁, hrun₁, hagrees₁, hkeeps₁, hsiblings₁⟩ :=
      exists_insertPath hs (ha.parent c hmem)
    have htail : Authentic m nodes chunkOf cs :=
      ⟨fun d hd => ha.lt d (mem_cons_of_mem _ hd), fun d hd => ha.leaf d (mem_cons_of_mem _ hd),
        fun d hd => ha.parent d (mem_cons_of_mem _ hd)⟩
    obtain ⟨s₂, hrun₂, hagrees₂, hkeeps₂, hsiblings₂⟩ := ih htail hagrees₁
    refine ⟨s₂, ?_, hagrees₂, fun u y hy => hkeeps₂ u y (hkeeps₁ u y hy), ?_⟩
    · have hstep : insertOpening m s (entryOf m nodes chunkOf c) = some s₁ := by
        rw [insertOpening, entryOf, leafIndexToMtIndexAndPeakIndex_eq (ha.lt c hmem), some_bind]
        dsimp only
        rw [ha.leaf c hmem, siblingsFrom, length_map, length_range]
        exact hrun₁
      rw [map_cons, foldlM_cons_of hstep, hrun₂]
    · intro d hd i hi
      rcases mem_cons.mp hd with rfl | hd
      · exact hkeeps₂ _ _ (hsiblings₁ i hi)
      · exact hsiblings₂ d hd i hi

end

/-! ## Leafs and chunks -/

section
variable [MmrIndexing]

omit [Tip5 D] in
/-- The first loop of `from_removal_records` remembers the tree of each chunk, and the chunk. -/
theorem exists_foldlM_collectChunk (nodes : ℕ → ℕ → D) (chunkOf : ℕ → Chunk)
    (hlt : ∀ c ∈ cs, c < m) {s : List (ℕ × ℕ) × AssocMap ℕ Chunk}
    (hs : ∀ c chunk, s.2.get? c = some chunk → chunk = chunkOf c) :
    ∃ s', (cs.map (entryOf m nodes chunkOf)).foldlM (collectChunk m) s = some s' ∧
      (∀ t c, (t, c) ∈ s'.1 ↔ (c ∈ cs ∧ t = height c m) ∨ (t, c) ∈ s.1) ∧
      (∀ c chunk, s'.2.get? c = some chunk → chunk = chunkOf c) ∧
      ∀ c, (s'.2.get? c).isSome = true ↔ c ∈ cs ∨ (s.2.get? c).isSome = true := by
  induction cs generalizing s with
  | nil => exact ⟨s, rfl, by simp, hs, by simp⟩
  | cons c cs ih =>
    have hc := hlt c mem_cons_self
    have hstep : collectChunk m s (entryOf m nodes chunkOf c) =
        some (s.1.insert (height c m, c), s.2.insert c (chunkOf c)) := by
      have hagree : ¬ ((s.2.get? c).any (· ≠ chunkOf c)) = true := by
        cases hget : s.2.get? c with
        | none => simp
        | some chunk => simp [hs c chunk hget]
      rw [collectChunk, entryOf, if_neg hagree, leafIndexToMtIndexAndPeakIndex_eq hc, some_bind]
      simp only [peakHeight_eq hc, some_bind]
      rw [if_neg]
      simp [siblingsFrom]
    have hs₁ : ∀ d chunk, (s.2.insert c (chunkOf c)).get? d = some chunk → chunk = chunkOf d := by
      intro d chunk hd
      exact of_get?_insert hd rfl fun _ => hs d chunk
    obtain ⟨s', hrun, hleafs, hchunks, hkeys⟩ :=
      ih (fun d hd => hlt d (mem_cons_of_mem _ hd))
        (s := (s.1.insert (height c m, c), s.2.insert c (chunkOf c))) hs₁
    refine ⟨s', ?_, ?_, hchunks, ?_⟩
    · rw [map_cons, foldlM_cons_of hstep, hrun]
    · intro t d
      rw [hleafs, mem_insert_iff, mem_cons, Prod.mk.injEq]
      constructor
      · rintro (⟨hd, ht⟩ | ⟨ht, rfl⟩ | hold)
        · exact .inl ⟨.inr hd, ht⟩
        · exact .inl ⟨.inl rfl, ht⟩
        · exact .inr hold
      · rintro (⟨rfl | hd, ht⟩ | hold)
        · exact .inr (.inl ⟨ht, rfl⟩)
        · exact .inl ⟨hd, ht⟩
        · exact .inr (.inr hold)
    · intro d
      rw [hkeys, get?_insert, mem_cons]
      split
      · rename_i heq
        simp [heq]
      · rename_i hne
        simp [hne]

omit [Tip5 D] [MmrIndexing] in
theorem sorted_values_eq (cs : List ℕ) {chunks : AssocMap ℕ Chunk}
    (hchunks : ∀ c chunk, chunks.get? c = some chunk → chunk = chunkOf c)
    (hkeys : ∀ c, (chunks.get? c).isSome = true ↔ c ∈ cs) :
    (chunks.entries.insertionSort fun a b => a.1 ≤ b.1).map (·.2) = (ascending cs).map chunkOf := by
  set sorted := chunks.entries.insertionSort fun a b => a.1 ≤ b.1 with hsorted
  have hperm : sorted.Perm chunks.entries := List.perm_insertionSort _ _
  have hpairwise : sorted.Pairwise fun a b => a.1 ≤ b.1 := List.pairwise_insertionSort _ _
  have hfst : sorted.map (·.1) = ascending cs := by
    have hnd : (sorted.map (·.1)).Nodup := (hperm.map _).nodup_iff.mpr chunks.nodup_keys
    have hle : (sorted.map (·.1)).Pairwise (· ≤ ·) := List.pairwise_map.mpr hpairwise
    refine (ascending_eq ((hle.and hnd).imp fun h => lt_of_le_of_ne h.1 h.2) ?_).symm
    intro c
    rw [(hperm.map (·.1)).mem_iff, ← hkeys, ← AssocMap.mem_keys]
    rfl
  rw [← hfst, List.map_map]
  apply List.map_congr_left
  intro e he
  exact hchunks e.1 e.2 (get?_eq_some_iff.mpr (hperm.mem_iff.mp he))

omit [Tip5 D] in
/-- The structure of one tree, from a sparse range that has the siblings of all chunks. -/
theorem extractStructure_eq (cs : List ℕ) {leafs : List (ℕ × ℕ)} {s : AssocMap (ℕ × ℕ) D}
    (hleafs : ∀ t c, (t, c) ∈ leafs ↔ c ∈ cs ∧ t = height c m) (hs : Agrees nodes s)
    (hsiblings : ∀ c ∈ cs, ∀ i < height c m,
      Present s (height c m) (sibling ((leafNode m c).2 / 2 ^ i))) (t : ℕ) :
    extractStructure leafs s t = some ((authStructure t (treeLeafs m cs t)).map (nodes t)) := by
  have hmem : ∀ j, j ∈ (leafs.filter fun x => x.1 = t).map (fun x => x.2 % 2 ^ t) ↔
      j ∈ treeLeafs m cs t := by
    intro j
    rw [mem_treeLeafs, List.mem_map]
    constructor
    · rintro ⟨⟨u, c⟩, hx, rfl⟩
      obtain ⟨hleaf, hu⟩ := mem_filter.mp hx
      obtain rfl : u = t := by simpa using hu
      obtain ⟨hc, rfl⟩ := (hleafs _ _).mp hleaf
      exact ⟨c, hc, rfl, rfl⟩
    · rintro ⟨c, hc, rfl, rfl⟩
      exact ⟨(height c m, c), mem_filter.mpr ⟨(hleafs _ _).mpr ⟨hc, rfl⟩, by simp⟩, rfl⟩
  have hlt : ∀ j ∈ (leafs.filter fun x => x.1 = t).map (fun x => x.2 % 2 ^ t), j < 2 ^ t :=
    fun j hj => lt_of_mem_treeLeafs j ((hmem j).mp hj)
  rw [extractStructure]
  simp only [Nat.one_shiftLeft, Nat.and_two_pow_sub_one_eq_mod]
  rw [authenticationStructureNodeIndices_eq hlt, some_bind, authStructure_congr hmem]
  apply mapM_eq_some
  intro x hx
  obtain ⟨c, hc, rfl, i, hi, rfl⟩ := exists_of_mem_authStructure hx
  obtain ⟨d, hd⟩ := present_iff.mp (hsiblings c hc i hi)
  rw [hd, hs _ _ _ hd]

end

/-! ## The list -/

/-- The structures of all trees, smallest tree first. -/
def structuresOf (m : ℕ) (nodes : ℕ → ℕ → D) (cs : List ℕ) : List (List D) :=
  (peakHeights m).reverse.map fun t => (authStructure t (treeLeafs m cs t)).map (nodes t)

/-- **Authentic records are gathered** without a contradiction. -/
theorem fromRemovalRecords_eq [DecidableEq D] [MmrIndexing] {rrs : List (RemovalRecord D)}
    {n : { n : ℕ // n < u64Bound }} (hm : aoclToSwbfiLeafCounts n = m)
    (ha : Authentic m nodes chunkOf cs)
    (hentries : (rrs.flatMap fun rr => rr.targetChunks.dictionary) =
      cs.map (entryOf m nodes chunkOf)) : fromRemovalRecords rrs n =
      some ⟨rrs.map (·.absoluteIndices), structuresOf m nodes (ascending cs),
        (ascending cs).map chunkOf, n, n.2⟩ := by
  obtain ⟨⟨leafs, chunks⟩, hcollect, hleafs, hchunks, hkeys⟩ :=
    exists_foldlM_collectChunk nodes chunkOf ha.lt (s := ([], .empty)) (by simp)
  obtain ⟨s, hinsert, hagrees, -, hsiblings⟩ :=
    exists_foldlM_insertOpening (s := .empty) ha (by simp [Agrees])
  have hstructures : ∀ t, extractStructure leafs s t =
      some ((authStructure t (treeLeafs m (ascending cs) t)).map (nodes t)) := by
    intro t
    exact extractStructure_eq (ascending cs) (by simpa using hleafs) hagrees
      (by simpa using hsiblings) t
  rw [fromRemovalRecords]
  simp only [hm, hentries, hcollect, hinsert, bind_eq_bind, bind_some,
    getPeakHeights_eq, insertionSort_peakHeights]
  rw [mapM_eq_some fun t _ => hstructures t, bind_some,
    sorted_values_eq cs hchunks (by simpa using hkeys)]
  rfl

end NyksNode.RemovalRecordList
