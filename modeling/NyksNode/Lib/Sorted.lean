import Mathlib.Data.Multiset.Sort
import Mathlib.Data.List.Dedup
import Mathlib.Data.List.Flatten
import Mathlib.Data.List.Induction
import Mathlib.Algebra.BigOperators.Group.List.Basic
import Mathlib.Tactic.Ring

/-!
# Sorted lists as multisets, and grouping by key

A program that pushes and re-sorts keeps one representative of a multiset.
`eq_sort_of_pairwise` is the uniqueness of that representative.

`groupByKey` is the contents of a hash map from a key to the items with that key.
The order of its entries carries no meaning; `flatMap_groupByKey` says that nothing
is lost and nothing repeated.
-/

namespace NyksNode

open List

variable {α κ : Type*}

/-! ## Sorting -/

section
variable [LinearOrder α]

theorem eq_sort_of_pairwise {l : List α} {s : Multiset α} (hl : l.Pairwise (· ≤ ·))
    (hs : (l : Multiset α) = s) : l = s.sort := by
  subst hs
  apply Perm.eq_of_pairwise' hl (Multiset.pairwise_sort _ _)
  exact (Multiset.coe_eq_coe.mp (Multiset.sort_eq (l : Multiset α) (· ≤ ·))).symm

theorem insertionSort_eq_sort (l : List α) : l.insertionSort (· ≤ ·) = (l : Multiset α).sort :=
  eq_sort_of_pairwise (pairwise_insertionSort _ l)
    (Multiset.coe_eq_coe.mpr (perm_insertionSort _ l))

theorem filter_sort (p : α → Prop) [DecidablePred p] (s : Multiset α) :
    s.sort.filter (fun a => decide (p a)) = (s.filter p).sort := by
  apply eq_sort_of_pairwise ((Multiset.pairwise_sort s (· ≤ ·)).filter _)
  rw [← Multiset.filter_coe, Multiset.sort_eq]

/-- Pushing an element and sorting again adds it to the multiset. -/
theorem insertionSort_sort_concat (s : Multiset α) (a : α) :
    (s.sort ++ [a]).insertionSort (· ≤ ·) = (a ::ₘ s).sort := by
  rw [insertionSort_eq_sort]
  congr 1
  rw [← Multiset.coe_add, Multiset.sort_eq, Multiset.coe_singleton, Multiset.add_comm,
    Multiset.singleton_add]

theorem insertionSort_sort_append (s : Multiset α) (l : List α) :
    (s.sort ++ l).insertionSort (· ≤ ·) = (s + (l : Multiset α)).sort := by
  rw [insertionSort_eq_sort, ← Multiset.coe_add, Multiset.sort_eq]

/-- Erasing one occurrence from the sorted list erases it from the multiset. -/
theorem erase_sort (s : Multiset α) (a : α) : s.sort.erase a = (s.erase a).sort := by
  apply eq_sort_of_pairwise ((Multiset.pairwise_sort s (· ≤ ·)).sublist erase_sublist)
  rw [← Multiset.coe_erase, Multiset.sort_eq]

/-- Erasing the last occurrence of an element from a sorted list. -/
theorem reverse_erase_reverse_sort (s : Multiset α) (a : α) :
    (s.sort.reverse.erase a).reverse = (s.erase a).sort := by
  apply eq_sort_of_pairwise
  · have hsub : (s.sort.reverse.erase a).reverse.Sublist s.sort := by
      have herase := (erase_sublist (a := a) (l := s.sort.reverse)).reverse
      rwa [reverse_reverse] at herase
    exact (Multiset.pairwise_sort s (· ≤ ·)).sublist hsub
  · rw [Multiset.coe_reverse, ← Multiset.coe_erase, Multiset.coe_reverse, Multiset.sort_eq]

end

theorem map_sub_sort {s : Multiset ℕ} {c : ℕ} (hs : ∀ a ∈ s, c ≤ a) :
    s.sort.map (· - c) = (s.map (· - c)).sort := by
  apply Multiset.map_sort
  intro a ha b hb
  have := hs a ha
  have := hs b hb
  omega

theorem map_add_sort (s : Multiset ℕ) (c : ℕ) : s.sort.map (· + c) = (s.map (· + c)).sort := by
  apply Multiset.map_sort
  intro a _ b _
  omega

/-! ## Each value once -/

/-- Each value once, in ascending order: a list after sorting and dropping repetitions, in either
order. -/
def ascending (l : List ℕ) : List ℕ := l.dedup.insertionSort (· ≤ ·)

variable {l m : List ℕ}

@[simp] theorem mem_ascending {a : ℕ} : a ∈ ascending l ↔ a ∈ l := by
  rw [ascending, (perm_insertionSort _ _).mem_iff, mem_dedup]

theorem nodup_ascending (l : List ℕ) : (ascending l).Nodup :=
  (perm_insertionSort _ _).nodup_iff.mpr (nodup_dedup l)

theorem pairwise_ascending (l : List ℕ) : (ascending l).Pairwise (· < ·) := by
  have hle : (ascending l).Pairwise (· ≤ ·) := pairwise_insertionSort _ _
  exact (hle.and (nodup_ascending l)).imp fun h => lt_of_le_of_ne h.1 h.2

theorem eq_of_pairwise_lt (hl : l.Pairwise (· < ·)) (hm : m.Pairwise (· < ·))
    (h : ∀ a, a ∈ l ↔ a ∈ m) : l = m := by
  apply Perm.eq_of_pairwise' (hl.imp le_of_lt) (hm.imp le_of_lt)
  rw [perm_ext_iff_of_nodup (hl.imp ne_of_lt) (hm.imp ne_of_lt)]
  exact h

/-- Sorting by distinct keys finds the one order in which the keys ascend. -/
theorem insertionSort_eq_of_keys (key : α → ℕ) {l m : List α} (hlm : l.Perm m)
    (hm : m.Pairwise fun a b => key a < key b) :
    l.insertionSort (fun a b => key a ≤ key b) = m := by
  have hsorted : (l.insertionSort fun a b => key a ≤ key b).Pairwise fun a b => key a ≤ key b :=
    have : Std.Total fun a b : α => key a ≤ key b := ⟨fun a b => le_total (key a) (key b)⟩
    have : IsTrans α fun a b => key a ≤ key b := ⟨fun _ _ _ => le_trans⟩
    pairwise_insertionSort _ _
  have hperm := (perm_insertionSort (fun a b => key a ≤ key b) l).trans hlm
  refine Perm.eq_of_pairwise ?_ hsorted (hm.imp le_of_lt) hperm
  intro a b ha hb hab hba
  have hnodup : (m.map key).Nodup := pairwise_map.mpr (hm.imp ne_of_lt)
  exact inj_on_of_nodup_map hnodup (hperm.mem_iff.mp ha) hb (le_antisymm hab hba)

/-- A strictly ascending list is what `ascending` makes of any list with its elements. -/
theorem ascending_eq (hm : m.Pairwise (· < ·)) (h : ∀ a, a ∈ l ↔ a ∈ m) : ascending l = m :=
  eq_of_pairwise_lt (pairwise_ascending l) hm fun a => by rw [mem_ascending, h]

theorem ascending_congr (h : ∀ a, a ∈ l ↔ a ∈ m) : ascending l = ascending m :=
  ascending_eq (pairwise_ascending m) fun a => by rw [h, mem_ascending]

/-- The elements of a strictly ascending list below a bound come first. -/
theorem take_length_filter_lt (hl : l.Pairwise (· < ·)) (b : ℕ) :
    l.take (l.filter (· < b)).length = l.filter (· < b) := by
  induction l with
  | nil => rfl
  | cons x l ih =>
    rw [pairwise_cons] at hl
    by_cases hx : x < b
    · rw [filter_cons_of_pos (by simpa using hx), length_cons, take_succ_cons, ih hl.2]
    · have hnil : l.filter (· < b) = [] := by
        rw [filter_eq_nil_iff]
        intro y hy
        have := hl.1 y hy
        simp only [decide_eq_true_eq]
        omega
      rw [filter_cons_of_neg (by simpa using hx), hnil]
      rfl

/-- In a strictly ascending list, consecutive numbers are neighbours. -/
theorem mem_zip_tail_succ (hl : l.Pairwise (· < ·)) {a : ℕ} :
    (a, a + 1) ∈ l.zip l.tail ↔ a ∈ l ∧ a + 1 ∈ l := by
  induction l with
  | nil => simp
  | cons x l ih =>
    rw [pairwise_cons] at hl
    cases l with
    | nil => simp; omega
    | cons y l =>
      have hxy := hl.1 y mem_cons_self
      have hyl : ∀ b ∈ l, y < b := (pairwise_cons.mp hl.2).1
      have ih := ih hl.2
      rw [tail_cons] at ih
      rw [tail_cons, zip_cons_cons, mem_cons, ih, Prod.mk.injEq]
      constructor
      · rintro (⟨rfl, rfl⟩ | ⟨ha, ha'⟩)
        · simp
        · exact ⟨mem_cons_of_mem _ ha, mem_cons_of_mem _ ha'⟩
      · rintro ⟨ha, ha'⟩
        rcases mem_cons.mp ha with rfl | ha
        · -- the successor of the head can only be the next element
          rcases mem_cons.mp ha' with h | h
          · omega
          · rcases mem_cons.mp h with h | h
            · exact .inl ⟨rfl, h⟩
            · have := hyl _ h
              omega
        · rcases mem_cons.mp ha' with h | h
          · have := hl.1 a ha
            omega
          · exact .inr ⟨ha, h⟩

/-! ## Grouping -/

section
variable [DecidableEq κ] (key : α → κ)

/-- Each key of `l` once, with the items of `l` that have it, in order. -/
def groupByKey (l : List α) : List (κ × List α) :=
  (l.map key).dedup.map fun k => (k, l.filter fun a => key a = k)

theorem mem_groupByKey {l : List α} {g : κ × List α} :
    g ∈ groupByKey key l ↔ (∃ a ∈ l, key a = g.1) ∧ g.2 = l.filter fun a => key a = g.1 := by
  simp only [groupByKey, mem_map, mem_dedup]
  constructor
  · rintro ⟨k, ⟨a, ha, rfl⟩, rfl⟩
    exact ⟨⟨a, ha, rfl⟩, rfl⟩
  · rintro ⟨⟨a, ha, hk⟩, hg⟩
    exact ⟨g.1, ⟨a, ha, hk⟩, by rw [← hg]⟩

theorem map_fst_groupByKey (l : List α) : (groupByKey key l).map (·.1) = (l.map key).dedup := by
  simp [groupByKey, Function.comp_def]

theorem nodup_keys_groupByKey (l : List α) : ((groupByKey key l).map (·.1)).Nodup := by
  rw [map_fst_groupByKey]
  exact nodup_dedup _

private theorem sum_map_ite_of_nodup {ks : List κ} (hnd : ks.Nodup) (k : κ) (v : ℕ) :
    (ks.map fun x => if k = x then v else 0).sum = if k ∈ ks then v else 0 := by
  induction ks with
  | nil => simp
  | cons x ks ih =>
    rw [nodup_cons] at hnd
    rw [map_cons, sum_cons, ih hnd.2]
    by_cases hx : k = x
    · subst hx; simp [hnd.1]
    · simp [hx]

/-- The groups whose key satisfies `p` hold exactly the items whose key does. -/
theorem flatMap_groupByKey [DecidableEq α] (p : κ → Bool) (l : List α) :
    (((groupByKey key l).filter fun g => p g.1).flatMap (·.2)).Perm
      (l.filter fun a => p (key a)) := by
  rw [perm_iff_count]
  intro a
  have hfilter : (groupByKey key l).filter (fun g => p g.1) =
      ((l.map key).dedup.filter p).map fun k => (k, l.filter fun b => key b = k) := by
    rw [groupByKey, filter_map]
    rfl
  have hcount : ∀ k, count a (l.filter fun b => key b = k) =
      if key a = k then count a l else 0 := by
    intro k
    by_cases hk : key a = k
    · rw [if_pos hk, count_filter (by simpa using hk)]
    · rw [if_neg hk, count_eq_zero]
      simp [hk]
  have hnd : ((l.map key).dedup.filter p).Nodup := (nodup_dedup _).filter _
  rw [hfilter, flatMap_map, count_flatMap]
  simp only [Function.comp_def, hcount]
  -- exactly one group can contain `a`: the one of its own key
  rw [sum_map_ite_of_nodup hnd]
  by_cases hp : p (key a) = true
  · rw [count_filter (p := fun b => p (key b)) hp]
    by_cases ha : a ∈ l
    · rw [if_pos (mem_filter.mpr ⟨mem_dedup.mpr (mem_map_of_mem ha), hp⟩)]
    · simp [count_eq_zero.mpr ha]
  · rw [if_neg (fun hmem => hp (mem_filter.mp hmem).2), eq_comm, count_eq_zero]
    exact fun ha => hp (mem_filter.mp ha).2

end

theorem pairwise_of_forall_append {α : Type*} {R : α → α → Prop} {l : List α}
    (h : ∀ before b after, l = before ++ b :: after → ∀ a ∈ before, R a b) : l.Pairwise R := by
  induction l using reverseRecOn with
  | nil => exact List.Pairwise.nil
  | append_singleton l b ih =>
    refine pairwise_append.mpr ⟨ih fun before c after hsplit => ?_,
      pairwise_singleton _ _, fun a ha c hc => ?_⟩
    · exact h before c (after ++ [b]) (by simp [hsplit])
    · rw [mem_singleton] at hc
      rw [hc]
      exact h l b [] rfl a ha

end NyksNode
