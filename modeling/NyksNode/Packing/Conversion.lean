import NyksNode.Crypto.Symbolic
import NyksNode.Packing.Consistency

/-!
# Converting lists back to removal records

`convert_to_vec` rebuilds every authentication path from the structures.  On a list
that passed the consistency check it goes through exactly if the structures have the
right lengths tree by tree, no digest is one of those it asserts not to meet, and its
own idea of where the active window starts agrees with the one of the check.
-/

namespace NyksNode.RemovalRecordList

open List Option MmrIndexing Merkle AssocMap

variable {D : Type} [Tip5 D]

/-! ## The leafs and structures as entries -/

def leafEntries (m : ℕ) (cs : List (ℕ × Chunk)) : List ((ℕ × ℕ) × D) :=
  cs.map fun e => (leafNode m e.1, e.2.hash)

/-- The nodes of one authentication structure. -/
def treeEntries (m : ℕ) (cs : List ℕ) (tree : ℕ × List D) : List ((ℕ × ℕ) × D) :=
  ((authStructure tree.1 (treeLeafs m cs tree.1)).zip tree.2).map fun x => ((tree.1, x.1), x.2)

def insertEntries (s : AssocMap (ℕ × ℕ) D) (es : List ((ℕ × ℕ) × D)) : AssocMap (ℕ × ℕ) D :=
  es.foldl (fun s e => s.insert e.1 e.2) s

variable {m : ℕ}

theorem foldlM_insertChunkHash [MmrIndexing] {cs : List (ℕ × Chunk)} (hcs : ∀ e ∈ cs, e.1 < m)
    (s : AssocMap (ℕ × ℕ) D) :
    cs.foldlM (insertChunkHash m) s = some (insertEntries s (leafEntries m cs)) := by
  induction cs generalizing s with
  | nil => rfl
  | cons e cs ih =>
    have he := hcs e mem_cons_self
    have hstep : insertChunkHash m s e = some (s.insert (leafNode m e.1) e.2.hash) := by
      rw [insertChunkHash, leafIndexToMtIndexAndPeakIndex_eq he, some_bind]
      simp only [peakHeight_eq he, some_bind]
      rfl
    rw [foldlM_cons_of hstep, ih fun x hx => hcs x (mem_cons_of_mem _ hx)]
    rfl

variable {t : ℕ}

theorem two_pow_add_xor {j : ℕ} (hj : j < 2 ^ t) : (2 ^ t + j) ^^^ 2 ^ t = j := by
  have hor : 2 ^ t + j = 1 <<< t ||| j := by
    rw [shiftLeft_or_of_lt hj, Nat.one_mul]
  rw [hor]
  apply Nat.eq_of_testBit_eq
  intro i
  rw [Nat.testBit_xor, Nat.testBit_or, Nat.one_shiftLeft, Nat.testBit_two_pow]
  by_cases hi : t = i
  · subst hi
    simp [Nat.testBit_lt_two_pow hj]
  · simp [hi]

variable {s : AssocMap (ℕ × ℕ) D}

omit [Tip5 D] in
/-- The structure of a tree goes in exactly if it has the right length. -/
theorem insertStructure_eq [MmrIndexing] {cs : List ℕ}
    (hs : ∀ x, Present s t x ↔ ∃ j ∈ treeLeafs m cs t, x = 2 ^ t + j) (ds : List D) :
    insertStructure s (t, ds) = if ds.length = (authStructure t (treeLeafs m cs t)).length then
        some (insertEntries s (treeEntries m cs (t, ds))) else none := by
  have hleafs : ∀ j, j ∈ (nodesOfTree s t).map (fun node => node ^^^ (1 <<< t)) ↔
      j ∈ treeLeafs m cs t := by
    intro j
    rw [List.mem_map]
    constructor
    · rintro ⟨x, hx, rfl⟩
      obtain ⟨j, hj, rfl⟩ := (hs x).mp (mem_nodesOfTree.mp hx)
      rwa [Nat.one_shiftLeft, two_pow_add_xor (lt_of_mem_treeLeafs j hj)]
    · intro hj
      refine ⟨2 ^ t + j, mem_nodesOfTree.mpr ((hs _).mpr ⟨j, hj, rfl⟩), ?_⟩
      rw [Nat.one_shiftLeft, two_pow_add_xor (lt_of_mem_treeLeafs j hj)]
  have hlt : ∀ j ∈ (nodesOfTree s t).map (fun node => node ^^^ (1 <<< t)), j < 2 ^ t :=
    fun j hj => lt_of_mem_treeLeafs j ((hleafs j).mp hj)
  rw [insertStructure]
  simp only [Nat.one_shiftLeft] at hleafs hlt ⊢
  rw [authenticationStructureNodeIndices_eq hlt, some_bind, authStructure_congr hleafs]
  by_cases hlen : ds.length = (authStructure t (treeLeafs m cs t)).length
  · rw [if_neg (by simpa using hlen), if_pos hlen, insertEntries, treeEntries, foldl_map]
  · rw [if_pos hlen, if_neg hlen]

variable {x : ℕ}

omit [Tip5 D] in
theorem present_insertEntries {es : List ((ℕ × ℕ) × D)} :
    Present (insertEntries s es) t x ↔ (∃ d, ((t, x), d) ∈ es) ∨ Present s t x := by
  induction es generalizing s with
  | nil => simp [insertEntries]
  | cons e es ih =>
    have hcons : insertEntries s (e :: es) = insertEntries (s.insert e.1 e.2) es := rfl
    rw [hcons, ih, Present, get?_insert]
    constructor
    · rintro (⟨d, hd⟩ | hp)
      · exact .inl ⟨d, mem_cons_of_mem _ hd⟩
      · split at hp
        · rename_i heq
          exact .inl ⟨e.2, by rw [heq]; exact mem_cons_self⟩
        · exact .inr hp
    · rintro (⟨d, hd⟩ | hp)
      · rcases mem_cons.mp hd with rfl | hd
        · exact .inr (by simp)
        · exact .inl ⟨d, hd⟩
      · right
        split
        · rfl
        · exact hp

omit [Tip5 D] in
/-- The structures of all trees go in exactly if each has the right length. -/
theorem foldlM_insertStructure [MmrIndexing] {cs : List ℕ} {trees : List (ℕ × List D)}
    (hnd : (trees.map (·.1)).Nodup)
    (hs : ∀ t ∈ trees.map (·.1), ∀ x, Present s t x ↔ ∃ j ∈ treeLeafs m cs t, x = 2 ^ t + j) :
    trees.foldlM insertStructure s =
      if ∀ tree ∈ trees, tree.2.length = (authStructure tree.1 (treeLeafs m cs tree.1)).length then
        some (insertEntries s (trees.flatMap (treeEntries m cs))) else none := by
  induction trees generalizing s with
  | nil => simp [insertEntries]
  | cons tree trees ih =>
    obtain ⟨t, ds⟩ := tree
    rw [map_cons, nodup_cons] at hnd
    rw [foldlM_cons, insertStructure_eq (hs t (by simp)) ds]
    by_cases hlen : ds.length = (authStructure t (treeLeafs m cs t)).length
    · -- the other trees do not see the nodes of this one
      have hs' : ∀ u ∈ trees.map (·.1), ∀ x,
          Present (insertEntries s (treeEntries m cs (t, ds))) u x ↔
            ∃ j ∈ treeLeafs m cs u, x = 2 ^ u + j := by
        intro u hu x
        rw [present_insertEntries, ← hs u (mem_cons_of_mem _ hu) x]
        constructor
        · rintro (⟨d, hd⟩ | hp)
          · obtain ⟨y, -, hy⟩ := mem_map.mp hd
            have htu : t = u := by simpa using congrArg (·.1.1) hy
            exact absurd (htu ▸ hu) hnd.1
          · exact hp
        · exact .inr
      rw [if_pos hlen, some_bind, ih hnd.2 hs']
      simp only [forall_mem_cons, hlen, true_and, flatMap_cons]
      congr 2
      rw [insertEntries, insertEntries, insertEntries, foldl_append]
    · rw [if_neg hlen, if_neg (fun h => hlen (h _ mem_cons_self))]
      rfl

/-! ## The sparse range before families are completed -/

/-- All digests that a list carries, with their nodes. -/
def sparseEntries (m : ℕ) (cs : List ℕ) (chunks : List Chunk) (trees : List (ℕ × List D)) :
    List ((ℕ × ℕ) × D) :=
  leafEntries m (cs.zip chunks) ++ trees.flatMap (treeEntries m cs)

section
variable {m : ℕ} {cs : List ℕ} {chunks : List Chunk} {trees : List (ℕ × List D)} {t x : ℕ}

theorem mem_leafEntries {d : D} : ((t, x), d) ∈ leafEntries m (cs.zip chunks) ↔
      ∃ e ∈ cs.zip chunks, leafNode m e.1 = (t, x) ∧ e.2.hash = d := by
  simp [leafEntries]

omit [Tip5 D] in
theorem mem_treeEntries {d : D} : ((t, x), d) ∈ trees.flatMap (treeEntries m cs) ↔
      ∃ ds, (t, ds) ∈ trees ∧ (x, d) ∈ (authStructure t (treeLeafs m cs t)).zip ds := by
  rw [mem_flatMap]
  constructor
  · rintro ⟨⟨u, ds⟩, hmem, hd⟩
    obtain ⟨y, hy, heq⟩ := mem_map.mp hd
    simp only [Prod.mk.injEq] at heq
    obtain ⟨⟨rfl, rfl⟩, rfl⟩ := heq
    exact ⟨ds, hmem, hy⟩
  · rintro ⟨ds, hmem, hd⟩
    exact ⟨(t, ds), hmem, mem_map.mpr ⟨_, hd, rfl⟩⟩

theorem onPath_of_leafNode {c : ℕ} (hc : c ∈ cs) (h : leafNode m c = (t, x)) :
    OnPath t (treeLeafs m cs t) x := by
  rw [leafNode, Prod.mk.injEq] at h
  obtain ⟨rfl, rfl⟩ := h
  exact ⟨_, mem_treeLeafs.mpr ⟨c, hc, rfl, rfl⟩, 0, Nat.zero_le _, by rw [pow_zero, Nat.div_one]⟩

theorem nodup_sparseEntries (hcs : ∀ c ∈ cs, c < m) (hnd : cs.Nodup)
    (htrees : (trees.map (·.1)).Nodup) : ((sparseEntries m cs chunks trees).map (·.1)).Nodup := by
  rw [sparseEntries, map_append, nodup_append]
  refine ⟨?_, ?_, ?_⟩
  · have hmap : (leafEntries m (cs.zip chunks) : List ((ℕ × ℕ) × D)).map (·.1) =
        ((cs.zip chunks).map (·.1)).map (leafNode m) := by
      rw [leafEntries, List.map_map, List.map_map]
      rfl
    rw [hmap]
    have hsub := map_fst_zip_sublist cs chunks
    refine List.Nodup.map_on ?_ (hnd.sublist hsub)
    intro c hc c' hc' h
    exact leafNode_injective (hcs c (hsub.subset hc)) (hcs c' (hsub.subset hc')) h
  · rw [map_flatMap, nodup_flatMap]
    constructor
    · intro tree _
      have hmap : (treeEntries m cs tree).map (·.1) =
          (((authStructure tree.1 (treeLeafs m cs tree.1)).zip tree.2).map (·.1)).map
            fun x => (tree.1, x) := by
        rw [treeEntries, List.map_map, List.map_map]
        rfl
      rw [hmap]
      refine List.Nodup.map (Prod.mk_right_injective _) ?_
      exact (nodup_authStructure _ _).sublist (map_fst_zip_sublist _ _)
    · refine (pairwise_map.mp htrees).imp ?_
      intro tree tree' hne k hk hk'
      obtain ⟨y, hy, rfl⟩ := mem_map.mp hk
      obtain ⟨y', hy', heq⟩ := mem_map.mp hk'
      obtain ⟨z, -, rfl⟩ := mem_map.mp hy
      obtain ⟨z', -, rfl⟩ := mem_map.mp hy'
      exact hne (congrArg Prod.fst heq).symm
  · -- a leaf is on a path, the nodes of a structure are not
    intro k hk k' hk' heq
    subst heq
    obtain ⟨⟨⟨t, x⟩, d⟩, hleaf, rfl⟩ := mem_map.mp hk
    obtain ⟨⟨⟨t', x'⟩, d'⟩, htree, heq⟩ := mem_map.mp hk'
    simp only [Prod.mk.injEq] at heq
    obtain ⟨rfl, rfl⟩ := heq
    obtain ⟨e, he, hnode, -⟩ := mem_leafEntries.mp hleaf
    obtain ⟨ds, -, hzip⟩ := mem_treeEntries.mp htree
    have hc : e.1 ∈ cs := (of_mem_zip he).1
    exact ((mem_authStructure lt_of_mem_treeLeafs).mp (of_mem_zip hzip).1).2.2
      (onPath_of_leafNode hc hnode)

end

/-! ## Completed trees -/

/-- The map `s'` has the nodes of `s` in the tree of height `t`, and all parents of these. -/
structure Completes (t : ℕ) (s s' : AssocMap (ℕ × ℕ) D) : Prop where
  keeps : ∀ x d, s.get? (t, x) = some d → s'.get? (t, x) = some d
  generated : ∀ Q : ℕ → D → Prop, (∀ x d, s.get? (t, x) = some d → Q x d) →
    (∀ p l r, Q (2 * p) l → Q (2 * p + 1) r → Q p (Tip5.hashPair l r)) →
    ∀ x d, s'.get? (t, x) = some d → Q x d
  closed : ∀ p, Present s' t (2 * p) → Present s' t (2 * p + 1) → Present s' t p

theorem exists_foldlM_completeFamilies {ts : List ℕ} (hnd : ts.Nodup)
    (hlt : ∀ t ∈ ts, ∀ x, Present s t x → x < u64Bound) :
    ∃ s', ts.foldlM (completeFamilies maxRounds) s = some s' ∧ (∀ t ∈ ts, Completes t s s') ∧
      ∀ t, t ∉ ts → ∀ x, s'.get? (t, x) = s.get? (t, x) := by
  induction ts generalizing s with
  | nil => exact ⟨s, rfl, by simp, fun _ _ _ => rfl⟩
  | cons t ts ih =>
    rw [nodup_cons] at hnd
    obtain ⟨s₁, hstep, hext, hclosed⟩ := exists_completeFamilies (hlt t mem_cons_self)
    have hsame : ∀ u ∈ ts, ∀ x, s₁.get? (u, x) = s.get? (u, x) := by
      intro u hu x
      exact hext.same_of_ne u x fun h => hnd.1 (h ▸ hu)
    obtain ⟨s₂, hrun, hcompletes, hother⟩ := ih hnd.2 fun u hu x hx => by
      rw [Present, hsame u hu] at hx
      exact hlt u (mem_cons_of_mem _ hu) x hx
    refine ⟨s₂, ?_, ?_, ?_⟩
    · rw [foldlM_cons_of hstep, hrun]
    · intro u hu
      rcases mem_cons.mp hu with rfl | hu
      · have hsame₂ := hother u hnd.1
        refine ⟨fun x d h => ?_, fun Q hQ hparent x d h => ?_, fun p hl hr => ?_⟩
        · rw [hsame₂]
          exact hext.keeps x d h
        · rw [hsame₂] at h
          exact hext.generated Q hQ hparent x d h
        · rw [Present, hsame₂] at hl hr ⊢
          exact hclosed p hl hr
      · obtain ⟨hkeeps, hgen, hcl⟩ := hcompletes u hu
        refine ⟨fun x d h => ?_, fun Q hQ => ?_, hcl⟩
        · exact hkeeps x d (by rwa [hsame u hu])
        · exact hgen Q fun x d h => hQ x d (by rwa [← hsame u hu])
    · intro u hu x
      rw [mem_cons, not_or] at hu
      rw [hother u hu.2, hext.same_of_ne u x hu.1]

theorem Completes.present {s' : AssocMap (ℕ × ℕ) D} (h : Completes t s s') (hx : Present s t x) :
    Present s' t x := by
  obtain ⟨d, hd⟩ := present_iff.mp hx
  exact present_iff.mpr ⟨d, h.keeps x d hd⟩

/-- Once families are complete, all nodes on paths are present: a node above a leaf has a child on
a path, and that child's sibling is on a path or in the structure. -/
theorem Completes.present_onPath {s' : AssocMap (ℕ × ℕ) D} {js : List ℕ} (h : Completes t s s')
    (hjs : ∀ j ∈ js, j < 2 ^ t) (hleafs : ∀ j ∈ js, Present s t (2 ^ t + j))
    (hstructure : ∀ x ∈ authStructure t js, Present s t x) (hx : OnPath t js x) :
    Present s' t x := by
  have hkeep : ∀ y, Present s t y → Present s' t y := fun y => h.present
  -- downwards from the largest node index
  induction hn : 2 ^ (t + 1) - x using Nat.strong_induction_on generalizing x with
  | _ n ih =>
    have hbound := hx.lt hjs
    obtain ⟨j, hj, i, hi, rfl⟩ := hx
    cases i with
    | zero =>
      rw [pow_zero, Nat.div_one]
      exact hkeep _ (hleafs j hj)
    | succ i =>
      have hchild : 2 ≤ (2 ^ t + j) / 2 ^ i := div_pow_ge_two (by omega)
      have hparent : (2 ^ t + j) / 2 ^ (i + 1) = (2 ^ t + j) / 2 ^ i / 2 := by
        rw [pow_succ, Nat.div_div_eq_div_mul]
      set y := (2 ^ t + j) / 2 ^ i with hy
      rw [hparent] at hbound hn ⊢
      have hon : OnPath t js y := ⟨j, hj, i, by omega, hy⟩
      have hlarger : ∀ z, z / 2 = y / 2 → OnPath t js z → Present s' t z := by
        intro z hz hzon
        exact ih (2 ^ (t + 1) - z) (by omega) hzon rfl
      have hpy := hlarger y rfl hon
      have hps : Present s' t (sibling y) := by
        rcases sibling_mem hjs hon hchild with hs | hs
        · exact hlarger _ (sibling_div_two y) hs
        · exact hkeep _ (hstructure _ hs)
      rcases Nat.mod_two_eq_zero_or_one y with heven | hodd
      · rw [sibling_of_even heven] at hps
        have h2 : 2 * (y / 2) = y := by omega
        exact h.closed _ (h2.symm ▸ hpy) (h2.symm ▸ hps)
      · rw [sibling_of_odd hodd] at hps
        have h2 : 2 * (y / 2) = y - 1 := by omega
        have h3 : 2 * (y / 2) + 1 = y := by omega
        exact h.closed _ (h2.symm ▸ hps) (h3.symm ▸ hpy)

/-! ## Restoring -/

/-- Each tree, smallest first, with the structure that the list has for it. -/
def trees (l : RemovalRecordList D) : List (ℕ × List D) :=
  (peakHeights l.swbfiLeafs).reverse.zip l.authenticationStructures

/-- Each tree has a structure of the length that its leafs call for. -/
def LengthsMatch (l : RemovalRecordList D) : Prop :=
  ∀ tree ∈ l.trees,
    tree.2.length = (authStructure tree.1 (treeLeafs l.swbfiLeafs l.observed tree.1)).length

instance (l : RemovalRecordList D) : Decidable l.LengthsMatch :=
  inferInstanceAs (Decidable (∀ tree ∈ l.trees, _))

/-- The sparse range that `convert_to_vec` starts from. -/
def sparseMmr (l : RemovalRecordList D) : AssocMap (ℕ × ℕ) D :=
  .ofList (sparseEntries l.swbfiLeafs l.observed l.chunks l.trees)

section
variable {l : RemovalRecordList D}

omit [Tip5 D] in
theorem pairwise_observed (l : RemovalRecordList D) : l.observed.Pairwise (· < ·) :=
  pairwise_ascending _

omit [Tip5 D] in
theorem nodup_trees (l : RemovalRecordList D) : (l.trees.map (·.1)).Nodup :=
  (nodup_reverse.mpr (nodup_peakHeights _)).sublist (map_fst_zip_sublist _ _)

variable {t : ℕ}

omit [Tip5 D] in
theorem mem_trees_fst (hl : l.Consistent) :
    t ∈ l.trees.map (·.1) ↔ t ∈ peakHeights l.swbfiLeafs := by
  rw [trees, map_fst_zip, mem_reverse]
  rw [length_reverse, hl.length_structures]

variable {x : ℕ}

theorem get?_sparseMmr (l : RemovalRecordList D) {d : D} : l.sparseMmr.get? (t, x) = some d ↔
      (∃ e ∈ l.observed.zip l.chunks, leafNode l.swbfiLeafs e.1 = (t, x) ∧ e.2.hash = d) ∨
      ∃ ds, (t, ds) ∈ l.trees ∧
        (x, d) ∈ (authStructure t (treeLeafs l.swbfiLeafs l.observed t)).zip ds := by
  rw [sparseMmr, get?_ofList (nodup_sparseEntries lt_of_mem_observed
    ((pairwise_observed l).imp ne_of_lt) (nodup_trees l)), sparseEntries, mem_append,
    mem_leafEntries, mem_treeEntries]

variable {c : ℕ}

omit [Tip5 D] in
theorem exists_chunk (hl : l.Consistent) (hc : c ∈ l.observed) :
    ∃ chunk, (c, chunk) ∈ l.observed.zip l.chunks := by
  obtain ⟨i, hi, rfl⟩ := mem_iff_getElem.mp hc
  have hi' : i < l.chunks.length := hl.length_chunks ▸ hi
  exact ⟨l.chunks[i], mem_iff_getElem.mpr ⟨i, by simp [hi, hi'], by simp⟩⟩

theorem present_leaf (hl : l.Consistent) {j : ℕ} (hj : j ∈ treeLeafs l.swbfiLeafs l.observed t) :
    Present l.sparseMmr t (2 ^ t + j) := by
  obtain ⟨c, hc, rfl, rfl⟩ := mem_treeLeafs.mp hj
  obtain ⟨chunk, hchunk⟩ := exists_chunk hl hc
  exact present_iff.mpr ⟨chunk.hash, (get?_sparseMmr l).mpr (.inl ⟨_, hchunk, rfl, rfl⟩)⟩

theorem present_structure (hl : l.Consistent) (hlen : l.LengthsMatch)
    (ht : t ∈ peakHeights l.swbfiLeafs)
    (hx : x ∈ authStructure t (treeLeafs l.swbfiLeafs l.observed t)) : Present l.sparseMmr t x := by
  obtain ⟨⟨u, ds⟩, hds, rfl⟩ := mem_map.mp ((mem_trees_fst hl).mpr ht)
  obtain ⟨i, hi, rfl⟩ := mem_iff_getElem.mp hx
  have hi' : i < ds.length := (hlen _ hds) ▸ hi
  refine present_iff.mpr ⟨ds[i], (get?_sparseMmr l).mpr (.inr ⟨ds, hds, ?_⟩)⟩
  exact mem_iff_getElem.mpr ⟨i, by simp [hi, hi'], by simp⟩

theorem onPath_or_mem (hx : Present l.sparseMmr t x) :
    OnPath t (treeLeafs l.swbfiLeafs l.observed t) x ∨
      x ∈ authStructure t (treeLeafs l.swbfiLeafs l.observed t) := by
  obtain ⟨d, hd⟩ := present_iff.mp hx
  rcases (get?_sparseMmr l).mp hd with ⟨e, he, hnode, -⟩ | ⟨ds, -, hzip⟩
  · exact .inl (onPath_of_leafNode (of_mem_zip he).1 hnode)
  · exact .inr (of_mem_zip hzip).1

theorem present_lt (ht : t ∈ peakHeights l.swbfiLeafs) (hx : Present l.sparseMmr t x) :
    x < u64Bound := by
  have hjs : ∀ j ∈ treeLeafs l.swbfiLeafs l.observed t, j < 2 ^ t := lt_of_mem_treeLeafs
  have hx' : x < 2 ^ (t + 1) := by
    rcases onPath_or_mem hx with hon | hmem
    · exact hon.lt hjs
    · obtain ⟨-, hon, -⟩ := (mem_authStructure hjs).mp hmem
      have := hon.lt hjs
      have := sibling_div_two x
      rw [pow_succ] at *
      omega
  have ht64 : t < 64 := (Nat.pow_lt_pow_iff_right (by decide : 1 < 2)).mp
    (lt_of_le_of_lt (two_pow_le_of_mem_peakHeights ht) l.swbfiLeafs_lt)
  exact lt_of_lt_of_le hx' (Nat.pow_le_pow_right (by decide) ht64)

section
omit [Tip5 D]

theorem swbfiLeafs_le (l : RemovalRecordList D) : l.swbfiLeafs ≤ l.numLeafsAocl / batchSize :=
  Nat.div_le_div_right (Nat.sub_le _ _)

theorem activeWindowStart_le (l : RemovalRecordList D) :
    l.activeWindowStart ≤ u64Bound * chunkSize :=
  Nat.mul_le_mul_right _ ((Nat.div_le_self _ _).trans l.numLeafsAocl_lt.le)

theorem take_chunksBelow (hl : l.Consistent) :
    (chunksBelow l.activeWindowStart (l.indexSets.flatMap (·.toArray))).take l.chunks.length =
      l.observed := by
  have hobserved : (chunksBelow l.activeWindowStart (l.indexSets.flatMap (·.toArray))).filter
      (· < l.swbfiLeafs) = l.observed := by
    refine eq_of_pairwise_lt ((pairwise_ascending _).filter _) (pairwise_observed l) ?_
    intro c
    rw [mem_filter, decide_eq_true_iff, observed, mem_chunksBelow, mem_chunksBelow]
    constructor
    · rintro ⟨⟨i, hi, -, rfl⟩, hlt⟩
      exact ⟨i, hi, (Nat.div_lt_iff_lt_mul chunkSize_pos).mp hlt, rfl⟩
    · rintro ⟨i, hi, hlt, rfl⟩
      refine ⟨⟨i, hi, ?_, rfl⟩, (Nat.div_lt_iff_lt_mul chunkSize_pos).mpr hlt⟩
      exact lt_of_lt_of_le hlt (Nat.mul_le_mul_right _ l.swbfiLeafs_le)
  rw [← hl.length_chunks, ← hobserved]
  exact take_length_filter_lt (pairwise_ascending _) _

end

/-- What `convert_to_vec` does to a consistent list. -/
theorem convertToVec_eq [MmrIndexing] (hl : l.Consistent) : l.convertToVec = if l.LengthsMatch then
        if l.sparseMmr.values.any isMarked then none
        else do
          let s ← (peakHeights l.swbfiLeafs).foldlM (completeFamilies maxRounds) l.sparseMmr
          l.indexSets.mapM (restoreRecord l.swbfiLeafs l.activeWindowStart
            (.ofList (l.observed.zip l.chunks)) s)
      else none := by
  have hzip : ∀ e ∈ l.observed.zip l.chunks, e.1 < l.swbfiLeafs :=
    fun e he => lt_of_mem_observed e.1 (of_mem_zip he).1
  have hleafs : ∀ t ∈ l.trees.map (·.1), ∀ x,
      Present (insertEntries .empty (leafEntries l.swbfiLeafs (l.observed.zip l.chunks)) :
          AssocMap (ℕ × ℕ) D) t x ↔
        ∃ j ∈ treeLeafs l.swbfiLeafs l.observed t, x = 2 ^ t + j := by
    intro t _ x
    rw [present_insertEntries]
    constructor
    · rintro (⟨d, hd⟩ | hp)
      · obtain ⟨e, he, hnode, -⟩ := mem_leafEntries.mp hd
        rw [leafNode, Prod.mk.injEq] at hnode
        obtain ⟨rfl, rfl⟩ := hnode
        exact ⟨_, mem_treeLeafs.mpr ⟨e.1, (of_mem_zip he).1, rfl, rfl⟩, rfl⟩
      · cases hp
    · rintro ⟨j, hj, rfl⟩
      obtain ⟨c, hc, rfl, rfl⟩ := mem_treeLeafs.mp hj
      obtain ⟨chunk, hchunk⟩ := exists_chunk hl hc
      exact .inl ⟨chunk.hash, mem_leafEntries.mpr ⟨_, hchunk, rfl, rfl⟩⟩
  have hm : aoclToSwbfiLeafCounts l.numLeafsAocl = l.swbfiLeafs := rfl
  have htrees : (peakHeights l.swbfiLeafs).reverse.zip l.authenticationStructures = l.trees := rfl
  rw [convertToVec]
  simp only [hm, getPeakHeights_eq, insertionSort_peakHeights, htrees]
  rw [if_neg (by simpa using hl.length_structures.symm),
    chunkIndicesBelow_eq l.activeWindowStart_le, bind_eq_bind, bind_some,
    take_chunksBelow hl, foldlM_insertChunkHash hzip, bind_eq_bind, bind_some,
    foldlM_insertStructure (nodup_trees l) hleafs]
  by_cases hlen : l.LengthsMatch
  · rw [if_pos hlen, if_pos (show ∀ tree ∈ l.trees, _ from hlen), bind_some]
    have hsparse : insertEntries (insertEntries .empty
        (leafEntries l.swbfiLeafs (l.observed.zip l.chunks)))
        (l.trees.flatMap (treeEntries l.swbfiLeafs l.observed)) = l.sparseMmr := by
      rw [sparseMmr, ofList, sparseEntries, foldl_append]
      rfl
    rw [hsparse]
  · rw [if_neg hlen, if_neg (show ¬ ∀ tree ∈ l.trees, _ from hlen)]
    rfl

theorem exists_completed (l : RemovalRecordList D) :
    ∃ s', (peakHeights l.swbfiLeafs).foldlM (completeFamilies maxRounds) l.sparseMmr = some s' ∧
      ∀ t ∈ peakHeights l.swbfiLeafs, Completes t l.sparseMmr s' := by
  obtain ⟨s', hrun, hcompletes, -⟩ := exists_foldlM_completeFamilies
    (nodup_peakHeights l.swbfiLeafs) fun t ht x hx => present_lt (l := l) ht hx
  exact ⟨s', hrun, hcompletes⟩

variable {s' : AssocMap (ℕ × ℕ) D}

/-- The siblings on the path of an observed chunk are all present in the end. -/
theorem present_sibling (hl : l.Consistent) (hlen : l.LengthsMatch)
    (hs' : ∀ t ∈ peakHeights l.swbfiLeafs, Completes t l.sparseMmr s') {i : ℕ} (hc : c ∈ l.observed)
    (hi : i < height c l.swbfiLeafs) :
    Present s' (height c l.swbfiLeafs) (sibling ((leafNode l.swbfiLeafs c).2 / 2 ^ i)) := by
  have hcm := lt_of_mem_observed c hc
  have ht := height_mem_peakHeights hcm
  have hjs : ∀ j ∈ treeLeafs l.swbfiLeafs l.observed (height c l.swbfiLeafs),
      j < 2 ^ height c l.swbfiLeafs := lt_of_mem_treeLeafs
  have hon : OnPath (height c l.swbfiLeafs)
      (treeLeafs l.swbfiLeafs l.observed (height c l.swbfiLeafs))
      ((leafNode l.swbfiLeafs c).2 / 2 ^ i) :=
    ⟨_, mem_treeLeafs.mpr ⟨c, hc, rfl, rfl⟩, i, hi.le, rfl⟩
  rcases sibling_mem hjs hon (div_pow_ge_two hi) with hs | hs
  · exact (hs' _ ht).present_onPath hjs (fun j hj => present_leaf hl hj)
      (fun x hx => present_structure hl hlen ht hx) hs
  · exact (hs' _ ht).present (present_structure hl hlen ht hs)

omit [Tip5 D] in
theorem get?_chunks {chunk : Chunk} :
    (AssocMap.ofList (l.observed.zip l.chunks)).get? c = some chunk ↔
      (c, chunk) ∈ l.observed.zip l.chunks :=
  get?_ofList (((pairwise_observed l).imp ne_of_lt).sublist (map_fst_zip_sublist _ _))

omit [Tip5 D] in
theorem restoreEntry_eq_some [MmrIndexing] {chunk : Chunk}
    (hc : (c, chunk) ∈ l.observed.zip l.chunks) (val : ℕ → D) (hval : ∀ i < height c l.swbfiLeafs,
      s'.get? (height c l.swbfiLeafs, sibling ((leafNode l.swbfiLeafs c).2 / 2 ^ i)) =
      some (val (sibling ((leafNode l.swbfiLeafs c).2 / 2 ^ i)))) :
    restoreEntry l.swbfiLeafs (.ofList (l.observed.zip l.chunks)) s' c =
      some (c, (List.range (height c l.swbfiLeafs)).map
        (fun i => val (sibling ((leafNode l.swbfiLeafs c).2 / 2 ^ i))), chunk) := by
  have hcm := lt_of_mem_observed c (of_mem_zip hc).1
  have hroot : (leafNode l.swbfiLeafs c).2 / 2 ^ height c l.swbfiLeafs = 1 :=
    div_pow_self (Nat.mod_lt _ (by positivity))
  have hfuel : height c l.swbfiLeafs < maxRounds :=
    lt_trans (height_lt l.swbfiLeafs_lt hcm) (by decide)
  have hpath := readPath_eq_some hroot hfuel hval
  rw [restoreEntry, get?_chunks.mpr hc, some_bind, leafIndexToMtIndexAndPeakIndex_eq hcm, some_bind]
  simp only [peakHeight_eq hcm, some_bind]
  change bind (readPath maxRounds s' _ (leafNode l.swbfiLeafs c).2) _ = _
  rw [hpath]
  rfl

theorem isSome_restoreEntry_iff [MmrIndexing] (hl : l.Consistent) (hlen : l.LengthsMatch)
    (hs' : ∀ t ∈ peakHeights l.swbfiLeafs, Completes t l.sparseMmr s') :
    (restoreEntry l.swbfiLeafs (.ofList (l.observed.zip l.chunks)) s' c).isSome = true ↔
      c ∈ l.observed := by
  constructor
  · intro h
    obtain ⟨e, he⟩ := isSome_iff_exists.mp h
    rw [restoreEntry, bind_eq_some] at he
    obtain ⟨chunk, hchunk, -⟩ := he
    exact (of_mem_zip (get?_chunks.mp hchunk)).1
  · intro hc
    obtain ⟨chunk, hchunk⟩ := exists_chunk hl hc
    rw [restoreEntry_eq_some hchunk
      fun x => (s'.get? (height c l.swbfiLeafs, x)).getD Tip5.zeroDigest]
    · rfl
    · intro i hi
      obtain ⟨d, hd⟩ := present_iff.mp (present_sibling hl hlen hs' hc hi)
      rw [hd]
      rfl

/-- What `convert_to_vec` asserts of a consistent list. -/
structure Convertible (l : RemovalRecordList D) : Prop where
  lengths : l.LengthsMatch
  unmarked_chunks : ∀ chunk ∈ l.chunks, isMarked (chunk.hash : D) = false
  unmarked_structures : ∀ ds ∈ l.authenticationStructures, ∀ d ∈ ds, isMarked d = false
  /-- No index lies between the window start of the check and that of the conversion. -/
  window : ∀ s ∈ l.indexSets, ∀ i ∈ s.toArray,
    i < l.activeWindowStart → i < l.swbfiLeafs * chunkSize

/-- The sparse range holds the hashes of the chunks and the digests of the structures. -/
theorem any_isMarked_iff (hl : l.Consistent) (hlen : l.LengthsMatch) :
    l.sparseMmr.values.any isMarked = false ↔
      (∀ chunk ∈ l.chunks, isMarked (chunk.hash : D) = false) ∧
      ∀ ds ∈ l.authenticationStructures, ∀ d ∈ ds, isMarked d = false := by
  simp only [List.any_eq_false, mem_values, Bool.not_eq_true]
  constructor
  · intro h
    constructor
    · intro chunk hchunk
      obtain ⟨i, hi, rfl⟩ := mem_iff_getElem.mp hchunk
      have hi' : i < l.observed.length := hl.length_chunks ▸ hi
      apply h
      refine ⟨leafNode l.swbfiLeafs l.observed[i], (get?_sparseMmr l).mpr (.inl ?_)⟩
      refine ⟨(l.observed[i], l.chunks[i]), ?_, rfl, rfl⟩
      exact mem_iff_getElem.mpr ⟨i, by simp [hi, hi'], by simp⟩
    · intro ds hds d hd
      obtain ⟨k, hk, rfl⟩ := mem_iff_getElem.mp hds
      obtain ⟨i, hi, rfl⟩ := mem_iff_getElem.mp hd
      have hk' : k < (peakHeights l.swbfiLeafs).reverse.length := by
        rwa [length_reverse, ← hl.length_structures]
      have htree : ((peakHeights l.swbfiLeafs).reverse[k], l.authenticationStructures[k]) ∈
          l.trees := mem_iff_getElem.mpr ⟨k, by simp [trees, hk, ← hl.length_structures],
            by simp [trees]⟩
      have hi' := hi
      rw [hlen _ htree] at hi'
      have hzip := mem_iff_getElem.mpr ⟨i, (by rw [length_zip]; exact lt_min hi' hi), getElem_zip⟩
      exact h _ ⟨_, (get?_sparseMmr l).mpr (.inr ⟨_, htree, hzip⟩)⟩
  · rintro ⟨hchunks, hstructures⟩ d ⟨⟨t, x⟩, hd⟩
    rcases (get?_sparseMmr l).mp hd with ⟨e, he, -, rfl⟩ | ⟨ds, hds, hzip⟩
    · exact hchunks _ (of_mem_zip he).2
    · exact hstructures ds (of_mem_zip hds).2 d (of_mem_zip hzip).2

/-- The record of an index set is restored exactly if all its chunks were observed. -/
theorem isSome_restoreRecord_iff [MmrIndexing] (hl : l.Consistent) (hlen : l.LengthsMatch)
    (hs' : ∀ t ∈ peakHeights l.swbfiLeafs, Completes t l.sparseMmr s') {set : AbsoluteIndexSet}
    (hset : set ∈ l.indexSets) :
    (restoreRecord l.swbfiLeafs l.activeWindowStart (.ofList (l.observed.zip l.chunks)) s'
        set).isSome = true ↔
      ∀ i ∈ set.toArray, i < l.activeWindowStart → i < l.swbfiLeafs * chunkSize := by
  have hiff : ∀ c ∈ chunksBelow l.activeWindowStart set.toArray,
      (c ∈ l.observed ↔ c < l.swbfiLeafs) := by
    intro c hc
    obtain ⟨i, hi, -, rfl⟩ := mem_chunksBelow.mp hc
    refine ⟨lt_of_mem_observed _, fun hlt => mem_chunksBelow.mpr ⟨i, ?_, ?_, rfl⟩⟩
    · exact mem_flatMap.mpr ⟨set, hset, hi⟩
    · exact (Nat.div_lt_iff_lt_mul chunkSize_pos).mp hlt
  rw [restoreRecord, chunkIndicesBelow_eq l.activeWindowStart_le, some_bind]
  have hmap : ∀ o : Option (List (ChunkEntry D)),
      (o.bind fun e => some (⟨set, ChunkDictionary.new e⟩ : RemovalRecord D)).isSome =
        o.isSome := by
    intro o
    cases o <;> rfl
  rw [bind_eq_bind, hmap, isSome_mapM_iff]
  constructor
  · intro h i hi hlt
    have hc := mem_chunksBelow.mpr ⟨i, hi, hlt, rfl⟩
    have := (isSome_restoreEntry_iff hl hlen hs').mp (h _ hc)
    exact (Nat.div_lt_iff_lt_mul chunkSize_pos).mp ((hiff _ hc).mp this)
  · intro h c hc
    obtain ⟨i, hi, hlt, rfl⟩ := mem_chunksBelow.mp hc
    exact (isSome_restoreEntry_iff hl hlen hs').mpr
      ((hiff _ hc).mpr ((Nat.div_lt_iff_lt_mul chunkSize_pos).mpr (h i hi hlt)))

/-- The conversion of a consistent list goes through exactly if the list is convertible. -/
theorem isSome_convertToVec_iff [MmrIndexing] (hl : l.Consistent) :
    l.convertToVec.isSome = true ↔ l.Convertible := by
  rw [convertToVec_eq hl]
  by_cases hlen : l.LengthsMatch
  · rw [if_pos hlen]
    obtain ⟨s', hrun, hs'⟩ := exists_completed l
    rw [hrun, some_bind]
    cases hmarked : l.sparseMmr.values.any isMarked with
    | true =>
      constructor
      · intro h
        cases h
      · intro h
        rw [(any_isMarked_iff hl hlen).mpr ⟨h.unmarked_chunks, h.unmarked_structures⟩] at hmarked
        cases hmarked
    | false =>
      obtain ⟨hchunks, hstructures⟩ := (any_isMarked_iff hl hlen).mp hmarked
      rw [if_neg Bool.false_ne_true, isSome_mapM_iff]
      constructor
      · intro h
        exact ⟨hlen, hchunks, hstructures, fun set hset =>
          (isSome_restoreRecord_iff hl hlen hs' hset).mp (h set hset)⟩
      · intro h set hset
        exact (isSome_restoreRecord_iff hl hlen hs' hset).mpr (h.window set hset)
  · rw [if_neg hlen]
    constructor
    · intro h
      cases h
    · intro h
      exact absurd h.lengths hlen

/-- **A list that passed the consistency check is converted exactly if it is convertible.** -/
theorem consistent_list_converts_iff [MmrIndexing] (l : RemovalRecordList D)
    (hl : l.validateConsistency = some (.ok ())) :
    (∃ rrs, l.convertToVec = some rrs) ↔ l.Convertible := by
  rw [← isSome_iff_exists]
  exact isSome_convertToVec_iff (l.validateConsistency_eq_ok_iff.mp hl)

end

/-! ## Lists about the first chunk of three -/

def zeroIndexSet : AbsoluteIndexSet := ⟨0, List.replicate numTrials 0, length_zeros⟩

/-- The first chunk lies in the tree of height one, so its structure has one digest and that of the
tree of height zero has none. -/
def firstChunk (structures : List (List SymbolicDigest)) : RemovalRecordList SymbolicDigest :=
  ⟨[zeroIndexSet], structures, [.emptyChunk], 25, by decide⟩

theorem firstChunk_converts : (firstChunk [[], [.zero]]).Convertible ∧
    ∃ rrs, @convertToVec _ _ MmrIndexing.reference (firstChunk [[], [.zero]]) = some rrs := by
  let _ := reference
  have hconv : (firstChunk [[], [.zero]]).Convertible := by
    constructor <;> decide +kernel
  exact ⟨hconv, (consistent_list_converts_iff _ (by decide +kernel)).mpr hconv⟩

/-- The check does not see that the structures belong to the wrong trees. -/
theorem firstChunk_swapped_fails :
    @validateConsistency _ MmrIndexing.reference (firstChunk [[.zero], []]) = some (.ok ()) ∧
    @convertToVec _ _ MmrIndexing.reference (firstChunk [[.zero], []]) = none := by
  decide +kernel

end NyksNode.RemovalRecordList
