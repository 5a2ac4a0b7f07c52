import NyksNode.Lib.Sorted

/-!
# A multiset of indices behind a sliding window

A multiset of natural numbers is stored in two forms.  Below a window that starts at
chunk `b` it is cut into chunks of width `w`, each a sorted list of offsets; from
there on it is one sorted list of offsets from the start of the window.  The lemmas
say how the two forms change when an index is inserted or erased and when the window
moves by one chunk, forwards or backwards.
-/

namespace NyksNode.SlidingFilter

open Multiset Function

variable {w : ℕ} {s : Multiset ℕ} {b i k : ℕ}

/-- The offsets in chunk `k`, in ascending order. -/
def chunk (w : ℕ) (s : Multiset ℕ) (k : ℕ) : List ℕ :=
  ((s.filter fun i => i / w = k).map (· % w)).sort

/-- The offsets from the start of chunk `b` on, in ascending order. -/
def window (w : ℕ) (s : Multiset ℕ) (b : ℕ) : List ℕ :=
  ((s.filter fun i => b * w ≤ i).map (· - b * w)).sort

theorem window_zero (w b : ℕ) : window w 0 b = [] := by simp [window]

theorem pairwise_window : (window w s b).Pairwise (· ≤ ·) := pairwise_sort _ _

/-! ## Membership -/

theorem length_window : (window w s b).length = s.countP (b * w ≤ ·) := by
  rw [window, length_sort, card_map, countP_eq_card_filter]

theorem mod_mem_chunk : i % w ∈ chunk w s (i / w) ↔ i ∈ s := by
  simp only [chunk, mem_sort, mem_map, mem_filter]
  constructor
  · rintro ⟨j, ⟨hj, hdiv⟩, hmod⟩
    have : j = i := by rw [← Nat.div_add_mod j w, ← Nat.div_add_mod i w, hdiv, hmod]
    exact this ▸ hj
  · exact fun hi => ⟨i, ⟨hi, rfl⟩, rfl⟩

theorem sub_mem_window (hi : b * w ≤ i) : i - b * w ∈ window w s b ↔ i ∈ s := by
  simp only [window, mem_sort, mem_map, mem_filter]
  constructor
  · rintro ⟨j, ⟨hj, hle⟩, heq⟩
    have : j = i := by omega
    exact this ▸ hj
  · exact fun hmem => ⟨i, ⟨hmem, hi⟩, rfl⟩

theorem lt_of_mem_window {n : ℕ} (hs : ∀ i ∈ s, i < b * w + n) {j : ℕ}
    (hj : j ∈ window w s b) : j < n := by
  simp only [window, mem_sort, mem_map, mem_filter] at hj
  obtain ⟨i, ⟨hi, hle⟩, rfl⟩ := hj
  have := hs i hi
  omega

/-! ## Inserting and erasing one index -/

theorem chunk_cons_of_ne (hk : i / w ≠ k) : chunk w (i ::ₘ s) k = chunk w s k := by
  simp [chunk, hk]

theorem window_cons_of_lt (hi : i < b * w) : window w (i ::ₘ s) b = window w s b := by
  simp [window, hi]

theorem insertionSort_chunk_concat (hk : i / w = k) :
    (chunk w s k ++ [i % w]).insertionSort (· ≤ ·) = chunk w (i ::ₘ s) k := by
  rw [chunk, insertionSort_sort_concat, chunk,
    filter_cons_of_pos (p := fun i => i / w = k) s hk, map_cons]

theorem insertionSort_window_concat (hi : b * w ≤ i) :
    (window w s b ++ [i - b * w]).insertionSort (· ≤ ·) = window w (i ::ₘ s) b := by
  rw [window, insertionSort_sort_concat, window, filter_cons_of_pos _ hi, map_cons]

theorem chunk_congr {t : Multiset ℕ}
    (hst : (s.filter fun i => i / w = k) = t.filter fun i => i / w = k) :
    chunk w s k = chunk w t k := by
  rw [chunk, chunk, hst]

theorem chunk_add_of_ne {js : List ℕ} (hjs : ∀ j ∈ js, j / w ≠ k) :
    chunk w (js + s) k = chunk w s k := by
  apply chunk_congr
  rw [filter_add, filter_eq_nil.mpr hjs, Multiset.zero_add]

theorem window_add_of_lt {js : List ℕ} (hjs : ∀ j ∈ js, j < b * w) :
    window w (js + s) b = window w s b := by
  have hnil : (js : Multiset ℕ).filter (fun i => b * w ≤ i) = 0 :=
    filter_eq_nil.mpr fun j hj => not_le.mpr (hjs j hj)
  rw [window, window, filter_add, hnil, Multiset.zero_add]

theorem chunk_eq_nil (hs : ∀ i ∈ s, i / w ≠ k) : chunk w s k = [] := by
  have hfilter : (s.filter fun i => i / w = k) = 0 := filter_eq_nil.mpr hs
  rw [chunk, hfilter, map_zero, sort_zero]

theorem insertionSort_chunk_append_chunk (s t : Multiset ℕ) (k : ℕ) :
    (chunk w s k ++ chunk w t k).insertionSort (· ≤ ·) = chunk w (t + s) k := by
  rw [chunk, chunk, insertionSort_sort_append, sort_eq, ← map_add,
    ← filter_add, Multiset.add_comm, chunk]

theorem reverse_erase_reverse_window (hi : b * w ≤ i) :
    ((window w (i ::ₘ s) b).reverse.erase (i - b * w)).reverse = window w s b := by
  rw [window, reverse_erase_reverse_sort, filter_cons_of_pos _ hi, map_cons,
    erase_cons_head, window]

theorem reverse_erase_reverse_chunk (hk : i / w = k) :
    ((chunk w (i ::ₘ s) k).reverse.erase (i % w)).reverse = chunk w s k := by
  have hcons : ((i ::ₘ s).filter fun j => j / w = k) = i ::ₘ s.filter fun j => j / w = k :=
    filter_cons_of_pos _ hk
  rw [chunk, reverse_erase_reverse_sort, hcons, map_cons, erase_cons_head, chunk]

/-- Erasing the indices of one multiset from the chunk of a sum, one after the other. -/
theorem foldlM_erase_chunk (s t : Multiset ℕ) (k : ℕ) : (chunk w t k).foldlM
        (fun l i => if i ∈ l then some (l.erase i) else none) (chunk w (t + s) k) =
      some (chunk w s k) := by
  have herase : ∀ (js : List ℕ) (u : Multiset ℕ),
      js.foldlM (fun l i => if i ∈ l then some (l.erase i) else none) ((js : Multiset ℕ) + u).sort =
        some u.sort := by
    intro js
    induction js with
    | nil => simp
    | cons j js ih =>
      intro u
      have hmem : j ∈ (((j :: js : List ℕ) : Multiset ℕ) + u).sort := by simp
      rw [List.foldlM_cons, if_pos hmem, Option.bind_eq_bind, Option.bind_some, erase_sort,
        ← cons_coe, cons_add, erase_cons_head, ih]
  have hsum := herase (chunk w t k) ((s.filter fun i => i / w = k).map (· % w))
  rw [chunk, sort_eq, ← map_add, ← filter_add] at hsum
  exact hsum

/-! ## Moving the window -/

theorem filter_window (hw : 0 < w) :
    ((window w s b).filter fun l => decide (0 ≤ l ∧ l < w)).map (· - 0) = chunk w s b := by
  have hmap : ∀ l : List ℕ, l.map (· - 0) = l := by simp
  rw [hmap, window, filter_sort, chunk]
  congr 1
  rw [filter_map, filter_filter]
  have hfilter : (s.filter fun i => ((fun l => 0 ≤ l ∧ l < w) ∘ (· - b * w)) i ∧ b * w ≤ i) =
      s.filter fun i => i / w = b := by
    apply filter_congr
    intro i _
    rw [Nat.div_eq_iff hw]
    simp only [comp_apply]
    constructor
    · rintro ⟨⟨-, hlt⟩, hle⟩
      omega
    · rintro ⟨hle, hlt⟩
      omega
  rw [hfilter]
  apply map_congr rfl
  intro i hi
  rw [← (mem_filter.mp hi).2, Nat.mul_comm, Nat.sub_eq_of_eq_add]
  rw [Nat.add_comm, Nat.div_add_mod]

/-- Dropping the first chunk and moving the rest down is the window one chunk later. -/
theorem slide_window (hw : 0 < w) :
    ((window w s b).filter fun l => decide (¬ (0 ≤ l ∧ l < w))).map (· - w) =
      window w s (b + 1) := by
  have hle : ∀ a ∈ ((s.filter fun i => b * w ≤ i).map (· - b * w)).filter
      (fun l => ¬ (0 ≤ l ∧ l < w)), w ≤ a := by
    intro a ha
    have := (mem_filter.mp ha).2
    omega
  rw [window, filter_sort, map_sub_sort hle, window]
  congr 1
  rw [filter_map, filter_filter, map_map]
  have hfilter : (s.filter fun i => ((fun l => ¬ (0 ≤ l ∧ l < w)) ∘ (· - b * w)) i ∧ b * w ≤ i) =
      s.filter fun i => (b + 1) * w ≤ i := by
    apply filter_congr
    intro i _
    rw [Nat.add_mul, Nat.one_mul]
    simp only [comp_apply]
    omega
  rw [hfilter]
  apply map_congr rfl
  intro i _
  rw [Nat.add_mul, Nat.one_mul]
  simp only [comp_apply]
  omega

/-- Moving the window up and putting the chunk in front of it back is the window one chunk
earlier. -/
theorem slide_window_back (hw : 0 < w) :
    ((window w s (b + 1)).map (· + w) ++ chunk w s b).insertionSort (· ≤ ·) = window w s b := by
  rw [window, map_add_sort, Multiset.map_map, insertionSort_sort_append, chunk, Multiset.sort_eq,
    window]
  congr 1
  have hsplit : (s.filter fun i => b * w ≤ i) =
      (s.filter fun i => (b + 1) * w ≤ i) + s.filter fun i => i / w = b := by
    have hdisjoint := Multiset.filter_add_filter (fun i => (b + 1) * w ≤ i) (fun i => i / w = b) s
    have hor : (s.filter fun i => (b + 1) * w ≤ i ∨ i / w = b) = s.filter fun i => b * w ≤ i := by
      apply Multiset.filter_congr
      intro i _
      rw [Nat.div_eq_iff hw, Nat.add_mul, Nat.one_mul]
      omega
    have hand : (s.filter fun i => (b + 1) * w ≤ i ∧ i / w = b) = 0 := by
      refine Multiset.filter_eq_nil.mpr ?_
      rintro i - ⟨hle, hdiv⟩
      rw [Nat.div_eq_iff hw] at hdiv
      rw [Nat.add_mul, Nat.one_mul] at hle
      omega
    rw [hdisjoint, hor, hand, Multiset.add_zero]
  rw [hsplit, Multiset.map_add]
  congr 1
  · refine Multiset.map_congr rfl fun i hi => ?_
    have hle := (Multiset.mem_filter.mp hi).2
    rw [Nat.add_mul, Nat.one_mul] at hle
    simp only [Function.comp_apply, Nat.add_mul, Nat.one_mul]
    omega
  · refine Multiset.map_congr rfl fun i hi => ?_
    have hdiv := (Multiset.mem_filter.mp hi).2
    rw [← hdiv, Nat.mul_comm, ← Nat.mod_eq_sub_mul_div]

end NyksNode.SlidingFilter
