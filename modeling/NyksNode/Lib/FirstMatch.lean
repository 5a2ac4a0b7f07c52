import Mathlib.Data.List.NodupEquivFin
import Mathlib.Data.List.Count
import Mathlib.Algebra.Order.BigOperators.Group.List
import Mathlib.Algebra.Order.Ring.Nat

/-!
# Looking things up by their first place

Each item of one list is looked up in another list and found at the first place that holds it.
Items that are not there are left out.  No place is found twice if every item is looked up at most
once, and no place is missed if what is looked up stands in one place only.
-/

namespace NyksNode

open List

variable {α β γ : Type*}

section
variable [DecidableEq α] {items places : List α}

/-- The first place of each item that has one. -/
def firstPlaces (items places : List α) : List ℕ := items.filterMap places.idxOf?

theorem getElem?_of_idxOf? {a : α} {i : ℕ} (h : places.idxOf? a = some i) :
    places[i]? = some a := by
  rw [idxOf?, findIdx?_eq_some_iff_getElem] at h
  obtain ⟨hi, heq, -⟩ := h
  rw [getElem?_eq_getElem hi, beq_iff_eq.mp heq]

theorem exists_idxOf?_of_mem {a : α} (h : a ∈ places) : ∃ i, places.idxOf? a = some i := by
  cases hi : places.idxOf? a with
  | none => exact absurd h (idxOf?_eq_none_iff.mp hi)
  | some i => exact ⟨i, rfl⟩

/-- No place is found twice exactly if nothing that has a place is looked up twice. -/
theorem nodup_firstPlaces_iff :
    (firstPlaces items places).Nodup ↔ ∀ a ∈ places, items.count a ≤ 1 := by
  rw [nodup_iff_count_le_one]
  simp only [firstPlaces, count_filterMap]
  constructor
  · intro h a ha
    obtain ⟨i, hi⟩ := exists_idxOf?_of_mem ha
    refine le_trans ?_ (h i)
    rw [count]
    refine countP_mono_left fun b _ hb => ?_
    rw [beq_iff_eq.mp hb, hi]
    exact beq_self_eq_true _
  · intro h i
    by_cases hnone : items.countP (fun a => places.idxOf? a == some i) = 0
    · rw [hnone]
      exact Nat.zero_le 1
    · obtain ⟨a, -, ha⟩ := countP_pos_iff.mp (Nat.pos_of_ne_zero hnone)
      have hplace := getElem?_of_idxOf? (beq_iff_eq.mp ha)
      refine le_trans ?_ (h a (mem_of_getElem? hplace))
      rw [count]
      refine countP_mono_left fun b _ hb => ?_
      have hb := getElem?_of_idxOf? (beq_iff_eq.mp hb)
      rw [hplace, Option.some_inj] at hb
      simp [hb]

/-- No place is missed exactly if what is looked up stands in one place only. -/
theorem forall_mem_firstPlaces_iff :
    (∀ (i : ℕ) (a : α), places[i]? = some a → a ∈ items → i ∈ firstPlaces items places) ↔
      ∀ a ∈ places, a ∈ items → places.count a = 1 := by
  constructor
  · intro h a ha hitem
    refine le_antisymm ?_ (count_pos_iff.mpr ha)
    by_contra hcount
    have hdup := duplicate_iff_two_le_count.mpr (Nat.lt_of_not_le hcount)
    obtain ⟨m, n, hmn, hm, hn⟩ := duplicate_iff_exists_distinct_get.mp hdup
    -- The later of the two places is not the first one.
    have hplace : places[n.val]? = some a := by
      rw [getElem?_eq_getElem n.isLt]
      simpa using hn.symm
    obtain ⟨b, -, hb⟩ := mem_filterMap.mp (h n.val a hplace hitem)
    have hab := getElem?_of_idxOf? hb
    rw [hplace, Option.some_inj] at hab
    rw [idxOf?, findIdx?_eq_some_iff_getElem] at hb
    obtain ⟨_, _, hfirst⟩ := hb
    have hne := hfirst m.val hmn
    rw [← hab] at hne
    simp [hm] at hne
  · intro h i a hi hitem
    obtain ⟨j, hj⟩ := exists_idxOf?_of_mem (mem_of_getElem? hi)
    refine mem_filterMap.mpr ⟨a, hitem, ?_⟩
    have hj' := getElem?_of_idxOf? hj
    obtain ⟨hilt, hia⟩ := List.getElem?_eq_some_iff.mp hi
    obtain ⟨hjlt, hja⟩ := List.getElem?_eq_some_iff.mp hj'
    by_cases hij : i = j
    · rw [hij, hj]
    · have hone := h a (mem_of_getElem? hi) hitem
      have hdup : Duplicate a places := by
        rw [duplicate_iff_exists_distinct_get]
        cases Nat.lt_or_gt_of_ne hij with
        | inl hlt => exact ⟨⟨i, hilt⟩, ⟨j, hjlt⟩, hlt, by simp [hia], by simp [hja]⟩
        | inr hlt => exact ⟨⟨j, hjlt⟩, ⟨i, hilt⟩, hlt, by simp [hja], by simp [hia]⟩
      have htwo := duplicate_iff_two_le_count.mp hdup
      omega

end

section
variable [DecidableEq γ]

/-- The number of times that the entries of a table with rows `as` and columns `bs` yield a value,
row by row. -/
theorem count_flatMap_filterMap (as : List α) (bs : List β) (f : α → β → Option γ) (c : γ) :
    (as.flatMap fun a => bs.filterMap (f a)).count c =
      (bs.map fun b => as.countP fun a => f a b = some c).sum := by
  induction as with
  | nil => simp
  | cons a as ih =>
    rw [flatMap_cons, count_append, ih, count_filterMap]
    have hrow : (bs.map fun b => (a :: as).countP fun a => decide (f a b = some c)).sum =
        bs.countP (fun b => f a b == some c) +
          (bs.map fun b => as.countP fun a => decide (f a b = some c)).sum := by
      clear ih
      induction bs with
      | nil => rfl
      | cons b bs ih =>
        rw [map_cons, sum_cons, ih, map_cons, sum_cons, countP_cons, countP_cons]
        simp only [beq_iff_eq, decide_eq_true_eq]
        omega
    rw [hrow]

/-- A sum with at most one summand that is not zero is at most one if all summands are. -/
theorem sum_le_one_iff_of_countP_le_one {bs : List β} {f : β → ℕ}
    (h : bs.countP (fun b => 0 < f b) ≤ 1) : (bs.map f).sum ≤ 1 ↔ ∀ b ∈ bs, f b ≤ 1 := by
  constructor
  · intro hsum b hb
    exact (le_sum_of_mem (mem_map_of_mem hb)).trans hsum
  · intro hle
    refine le_trans ?_ h
    clear h
    induction bs with
    | nil => simp
    | cons b bs ih =>
      have hb := hle b mem_cons_self
      have htail := ih fun b hb => hle b (mem_cons_of_mem _ hb)
      rw [map_cons, sum_cons, countP_cons]
      by_cases hpos : 0 < f b
      · simp [hpos]
        omega
      · simp [hpos]
        omega

end

end NyksNode
