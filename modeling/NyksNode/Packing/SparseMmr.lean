import NyksNode.Packing.RemovalRecordList

/-!
# The sparse mountain range of `convert_to_vec`

`convert_to_vec` works on a map from the nodes of all trees to their digests.  This
module says what its loops do to such a map: which parents are absent, that completing
families ends, that the result is closed under taking parents, and what a path read
from it is.
-/

namespace NyksNode.RemovalRecordList

open List Option AssocMap Merkle

variable {D : Type} {s s' : AssocMap (ℕ × ℕ) D} {t : ℕ}

/-- Node `x` of the tree of height `t` has a digest. -/
def Present (s : AssocMap (ℕ × ℕ) D) (t x : ℕ) : Prop := (s.get? (t, x)).isSome = true

theorem present_iff {x : ℕ} : Present s t x ↔ ∃ d, s.get? (t, x) = some d := isSome_iff_exists

/-! ## Absent parents -/

theorem mem_nodesOfTree {x : ℕ} : x ∈ nodesOfTree s t ↔ Present s t x := by
  rw [Present, ← AssocMap.mem_keys, nodesOfTree, List.mem_map]
  constructor
  · rintro ⟨k, hk, rfl⟩
    obtain ⟨hk, ht⟩ := mem_filter.mp hk
    rw [decide_eq_true_iff] at ht
    rwa [← ht]
  · intro hx
    exact ⟨(t, x), mem_filter.mpr ⟨hx, by simp⟩, rfl⟩

theorem nodup_nodesOfTree : (nodesOfTree s t).Nodup := by
  refine Nodup.map_on ?_ (s.nodup_keys.filter _)
  intro k hk k' hk' h
  have ht := (mem_filter.mp hk).2
  have ht' := (mem_filter.mp hk').2
  simp only [decide_eq_true_eq] at ht ht'
  exact Prod.ext (ht.trans ht'.symm) h

/-- The node indices of a tree in ascending order, as the loop walks through them. -/
theorem pairwise_sorted_nodesOfTree :
    ((nodesOfTree s t).insertionSort (· ≤ ·)).Pairwise (· < ·) := by
  have hle : ((nodesOfTree s t).insertionSort (· ≤ ·)).Pairwise (· ≤ ·) :=
    pairwise_insertionSort _ _
  have hnd : ((nodesOfTree s t).insertionSort (· ≤ ·)).Nodup :=
    (perm_insertionSort _ _).nodup_iff.mpr nodup_nodesOfTree
  exact (hle.and hnd).imp fun h => lt_of_le_of_ne h.1 h.2

/-- Neighbours that are siblings: the left one is even, the right one comes next. -/
theorem eq_of_mem_zip_tail {current : List ℕ} (hsorted : current.Pairwise (· < ·)) {x : ℕ × ℕ}
    (hzip : x ∈ current.zip current.tail) (hx : x.1 = x.2 ^^^ 1) :
    x = (2 * (x.1 >>> 1), 2 * (x.1 >>> 1) + 1) := by
  have hlt : x.1 < x.2 := by
    obtain ⟨i, hi, rfl⟩ := mem_iff_getElem.mp hzip
    rw [getElem_zip, getElem_tail]
    exact pairwise_iff_getElem.mp hsorted _ _ _ _ (Nat.lt_succ_self i)
  change x.1 = sibling x.2 at hx
  have hnext : x.2 = x.1 + 1 ∧ x.1 % 2 = 0 := by
    rcases Nat.mod_two_eq_zero_or_one x.2 with hr | hr
    · rw [sibling_of_even hr] at hx
      omega
    · rw [sibling_of_odd hr] at hx
      omega
  rw [Nat.shiftRight_eq_div_pow]
  exact Prod.ext (by dsimp only; omega) (by dsimp only; omega)

theorem mem_absentParentNodes {p : ℕ} : p ∈ absentParentNodes s t ↔
      Present s t (2 * p) ∧ Present s t (2 * p + 1) ∧ ¬ Present s t p := by
  have hsorted := pairwise_sorted_nodesOfTree (s := s) (t := t)
  have hmem : ∀ x, x ∈ (nodesOfTree s t).insertionSort (· ≤ ·) ↔ Present s t x := by
    intro x
    rw [(List.perm_insertionSort _ _).mem_iff, mem_nodesOfTree]
  simp only [absentParentNodes, List.mem_filter, List.mem_map, decide_eq_true_eq, hmem]
  rw [← hmem (2 * p), ← hmem (2 * p + 1), ← and_assoc, ← mem_zip_tail_succ hsorted]
  refine and_congr_left fun _ => ?_
  constructor
  · rintro ⟨x, ⟨hzip, hx⟩, rfl⟩
    rwa [← eq_of_mem_zip_tail hsorted hzip hx]
  · intro hzip
    refine ⟨(2 * p, 2 * p + 1), ⟨hzip, ?_⟩, ?_⟩
    · change 2 * p = sibling (2 * p + 1)
      rw [sibling_of_odd (by omega)]
      omega
    · rw [Nat.shiftRight_eq_div_pow]
      omega

theorem nodup_absentParentNodes : (absentParentNodes s t).Nodup := by
  have hsorted := pairwise_sorted_nodesOfTree (s := s) (t := t)
  refine Nodup.filter _ (Nodup.map_on ?_ (Nodup.filter _ ?_))
  · intro x hx y hy hxy
    obtain ⟨hx, hxs⟩ := mem_filter.mp hx
    obtain ⟨hy, hys⟩ := mem_filter.mp hy
    rw [eq_of_mem_zip_tail hsorted hx (by simpa using hxs),
      eq_of_mem_zip_tail hsorted hy (by simpa using hys), hxy]
  · apply Nodup.of_map (·.2)
    rw [map_snd_zip (by simp)]
    exact (hsorted.imp ne_of_lt).sublist (tail_sublist _)

/-! ## Completing families -/

variable [Tip5 D]

/-- A map that differs from another one by further nodes of one tree. -/
structure ExtendsTree (t : ℕ) (s s' : AssocMap (ℕ × ℕ) D) : Prop where
  same_of_ne : ∀ u x, u ≠ t → s'.get? (u, x) = s.get? (u, x)
  keeps : ∀ x d, s.get? (t, x) = some d → s'.get? (t, x) = some d
  /-- Whatever holds of the nodes of the tree, and of a parent if it holds of both children, still
  holds. -/
  generated : ∀ Q : ℕ → D → Prop, (∀ x d, s.get? (t, x) = some d → Q x d) →
    (∀ p l r, Q (2 * p) l → Q (2 * p + 1) r → Q p (Tip5.hashPair l r)) →
    ∀ x d, s'.get? (t, x) = some d → Q x d

namespace ExtendsTree

theorem refl (t : ℕ) (s : AssocMap (ℕ × ℕ) D) : ExtendsTree t s s :=
  ⟨fun _ _ _ => rfl, fun _ _ h => h, fun _ h _ => h⟩

theorem trans {s₁ s₂ s₃ : AssocMap (ℕ × ℕ) D} (h₁ : ExtendsTree t s₁ s₂)
    (h₂ : ExtendsTree t s₂ s₃) : ExtendsTree t s₁ s₃ where
  same_of_ne u x hu := (h₂.same_of_ne u x hu).trans (h₁.same_of_ne u x hu)
  keeps x d h := h₂.keeps x d (h₁.keeps x d h)
  generated Q hQ hparent := h₂.generated Q (h₁.generated Q hQ hparent) hparent

theorem present (h : ExtendsTree t s s') {x : ℕ} (hx : Present s t x) : Present s' t x := by
  obtain ⟨d, hd⟩ := present_iff.mp hx
  exact present_iff.mpr ⟨d, h.keeps x d hd⟩

end ExtendsTree

/-- A parent that is absent can be inserted once both children are present. -/
theorem exists_insertParent {p : ℕ} (hl : Present s t (2 * p)) (hr : Present s t (2 * p + 1))
    (hp : ¬ Present s t p) : ∃ s', insertParent t s p = some s' ∧ ExtendsTree t s s' ∧
      ∀ x, Present s' t x ↔ x = p ∨ Present s t x := by
  obtain ⟨l, hl⟩ := present_iff.mp hl
  obtain ⟨r, hr⟩ := present_iff.mp hr
  have hleft : p <<< 1 = 2 * p := by
    rw [Nat.shiftLeft_eq]
    omega
  have hright : (2 * p) ^^^ 1 = 2 * p + 1 := sibling_of_even (by omega)
  refine ⟨s.insert (t, p) (Tip5.hashPair l r), ?_, ⟨?_, ?_, ?_⟩, ?_⟩
  · simp [insertParent, hleft, hright, hl, hr]
  · intro u x hu
    rw [get?_insert, if_neg (by simp [hu])]
  · intro x d hx
    rw [get?_insert, if_neg, hx]
    rintro heq
    rw [Prod.mk.injEq] at heq
    exact hp (present_iff.mpr ⟨d, heq.2 ▸ hx⟩)
  · intro Q hQ hparent x d hx
    rw [get?_insert] at hx
    split at hx
    · rename_i heq
      rw [Prod.mk.injEq] at heq
      rw [heq.2, ← some_inj.mp hx]
      exact hparent p l r (hQ _ l hl) (hQ _ r hr)
    · exact hQ x d hx
  · intro x
    simp only [Present, get?_insert, Prod.mk.injEq, true_and]
    by_cases hx : x = p
    · simp [hx]
    · simp [hx]

theorem exists_foldlM_insertParent {ps : List ℕ} (hnd : ps.Nodup)
    (hps : ∀ p ∈ ps, Present s t (2 * p) ∧ Present s t (2 * p + 1) ∧ ¬ Present s t p) :
    ∃ s', ps.foldlM (insertParent t) s = some s' ∧ ExtendsTree t s s' ∧
      ∀ x, Present s' t x ↔ x ∈ ps ∨ Present s t x := by
  induction ps generalizing s with
  | nil => exact ⟨s, rfl, .refl t s, by simp⟩
  | cons p ps ih =>
    rw [nodup_cons] at hnd
    obtain ⟨hl, hr, hp⟩ := hps p mem_cons_self
    obtain ⟨s₁, hstep, hext, hpresent⟩ := exists_insertParent hl hr hp
    have hps₁ : ∀ q ∈ ps, Present s₁ t (2 * q) ∧ Present s₁ t (2 * q + 1) ∧ ¬ Present s₁ t q := by
      intro q hq
      obtain ⟨hl', hr', hq'⟩ := hps q (mem_cons_of_mem _ hq)
      refine ⟨hext.present hl', hext.present hr', ?_⟩
      rw [hpresent]
      rintro (rfl | hpres)
      · exact hnd.1 hq
      · exact hq' hpres
    obtain ⟨s₂, hrun, hext₂, hpresent₂⟩ := ih hnd.2 hps₁
    refine ⟨s₂, ?_, hext.trans hext₂, ?_⟩
    · rw [foldlM_cons, hstep, bind_eq_bind, bind_some, hrun]
    · intro x
      rw [hpresent₂, hpresent, mem_cons]
      tauto

/-- **Completing families ends.**  In every round the largest absent parent is at most half of the
largest one of the round before, because one of its children has just been inserted. -/
theorem exists_completeFamilies_of_lt (fuel : ℕ) (hlt : ∀ p ∈ absentParentNodes s t, p < 2 ^ fuel) :
    ∃ s', completeFamilies (fuel + 1) s t = some s' ∧ ExtendsTree t s s' ∧
      ∀ p, Present s' t (2 * p) → Present s' t (2 * p + 1) → Present s' t p := by
  have hdone : ∀ {s : AssocMap (ℕ × ℕ) D} {fuel : ℕ}, absentParentNodes s t = [] →
      ∃ s', completeFamilies (fuel + 1) s t = some s' ∧ ExtendsTree t s s' ∧
        ∀ p, Present s' t (2 * p) → Present s' t (2 * p + 1) → Present s' t p := by
    intro s fuel hnil
    refine ⟨s, by rw [completeFamilies, if_pos hnil], .refl t s, ?_⟩
    intro p hl hr
    by_contra hp
    have := mem_absentParentNodes.mpr ⟨hl, hr, hp⟩
    simp [hnil] at this
  induction fuel generalizing s with
  | zero =>
    apply hdone
    rw [eq_nil_iff_forall_not_mem]
    intro p hp
    have hzero : p = 0 := by
      have := hlt p hp
      omega
    subst hzero
    -- the left child of node 0 is node 0
    obtain ⟨hl, -, hp⟩ := mem_absentParentNodes.mp hp
    exact hp hl
  | succ fuel ih =>
    by_cases hnil : absentParentNodes s t = []
    · exact hdone hnil
    · obtain ⟨s₁, hround, hext, hpresent⟩ := exists_foldlM_insertParent
        (nodup_absentParentNodes (s := s) (t := t)) fun p hp => mem_absentParentNodes.mp hp
      have hlt₁ : ∀ p ∈ absentParentNodes s₁ t, p < 2 ^ fuel := by
        intro p hp
        obtain ⟨hl, hr, hp⟩ := mem_absentParentNodes.mp hp
        rw [hpresent, not_or] at hp
        rw [hpresent] at hl hr
        have hpow : (2 : ℕ) ^ (fuel + 1) = 2 * 2 ^ fuel := pow_succ' 2 fuel
        rcases hl with hl | hl
        · have := hlt _ hl
          omega
        · rcases hr with hr | hr
          · have := hlt _ hr
            omega
          · exact absurd (mem_absentParentNodes.mpr ⟨hl, hr, hp.2⟩) hp.1
      obtain ⟨s₂, hrun, hext₂, hclosed⟩ := ih hlt₁
      refine ⟨s₂, ?_, hext.trans hext₂, hclosed⟩
      rw [completeFamilies, if_neg hnil, hround, bind_eq_bind, bind_some, hrun]

theorem exists_completeFamilies (hlt : ∀ x, Present s t x → x < u64Bound) :
    ∃ s', completeFamilies maxRounds s t = some s' ∧ ExtendsTree t s s' ∧
      ∀ p, Present s' t (2 * p) → Present s' t (2 * p + 1) → Present s' t p := by
  refine exists_completeFamilies_of_lt 64 fun p hp => ?_
  have := hlt _ (mem_absentParentNodes.mp hp).1
  rw [u64Bound] at this
  omega

/-! ## Reading paths -/

omit [Tip5 D] in
theorem readPath_eq_some {val : ℕ → D} {n fuel x : ℕ} (hx : x / 2 ^ n = 1) (hfuel : n < fuel)
    (hval : ∀ i < n, s.get? (t, sibling (x / 2 ^ i)) = some (val (sibling (x / 2 ^ i)))) :
    readPath fuel s t x = some ((List.range n).map fun i => val (sibling (x / 2 ^ i))) := by
  induction n generalizing fuel x with
  | zero =>
    obtain ⟨f, rfl⟩ := Nat.exists_eq_add_of_lt hfuel
    rw [pow_zero, Nat.div_one] at hx
    rw [readPath, if_pos hx]
    rfl
  | succ n ih =>
    obtain ⟨f, rfl⟩ : ∃ f, fuel = f + 1 := ⟨fuel - 1, by omega⟩
    have hne : x ≠ 1 := by
      rintro rfl
      rw [Nat.div_eq_of_lt (Nat.one_lt_two_pow (Nat.succ_ne_zero n))] at hx
      omega
    rw [← div_two_div_pow] at hx
    have hhead := hval 0 (Nat.succ_pos n)
    rw [pow_zero, Nat.div_one] at hhead
    have htail := ih hx (by omega : n < f) fun i hi => by
      rw [div_two_div_pow]
      exact hval (i + 1) (by omega)
    rw [readPath, if_neg hne, Nat.shiftRight_eq_div_pow, pow_one]
    change Option.bind (s.get? (t, sibling x)) _ = _
    rw [hhead, bind_some, htail, bind_eq_bind, bind_some,
      range_succ_eq_map, map_cons, List.map_map, pow_zero, Nat.div_one]
    congr 2
    exact map_congr_left fun i _ => by
      rw [Function.comp_apply, Nat.succ_eq_add_one, div_two_div_pow]

end NyksNode.RemovalRecordList
