import NyksNode.Lib.MountainRange

/-!
# Appending to and mutating a mountain range

The operations of a mountain-range accumulator work on peaks and paths alone; the
leafs are gone.  Each one is stated here on lists of digests, together with the
equation that says what it does to a range whose peaks and paths are those of a
leaf row.

Appending merges the trees of height `0, 1, …` as long as the leaf count has a set
bit there, so the path of the new leaf is exactly the list of merged peaks.
Replacing a leaf touches its ancestors only, and every ancestor is reached by
climbing the leaf's own path.
-/

namespace NyksNode.Merkle

open List Option Nat

variable {D : Type*} (h : D → D → D) (f : ℕ → D)

/-! ## Appending -/

/-- Merge the accumulator `a` with the lowest peaks of a range of `n` leafs.  The
peaks are listed lowest first; the second result lists the peaks consumed. -/
def mergePeaks : List D → ℕ → D → List D × List D
  | [], _, a => ([a], [])
  | p :: ps, n, a =>
      if n % 2 = 1 then
        let r := mergePeaks ps (n / 2) (h p a)
        (r.1, p :: r.2)
      else (a :: p :: ps, [])

/-- Append the leaf `d` to a range of `n` leafs with peaks `ps`. -/
def appendPeaks (ps : List D) (n : ℕ) (d : D) : List D × List D :=
  let r := mergePeaks h ps.reverse n d
  (r.1.reverse, r.2)

/-- The peaks of the leafs `0, …, m * 2 ^ s - 1`, lowest first, seen from height `s`. -/
private def peaksAt (s m : ℕ) : List D := m.bitIndices.map fun t => node h f (s + t) (m / 2 ^ t - 1)

private theorem peaksAt_two_mul (s m : ℕ) : peaksAt h f s (2 * m) = peaksAt h f (s + 1) m := by
  simp only [peaksAt, Nat.bitIndices_two_mul, List.map_map]
  apply List.map_congr_left
  intro t _
  simp only [Function.comp_apply]
  rw [← div_two_div_pow, Nat.mul_div_cancel_left _ two_pos, show s + (t + 1) = s + 1 + t by omega]

private theorem peaksAt_two_mul_add_one (s m : ℕ) :
    peaksAt h f s (2 * m + 1) = node h f s (2 * m) :: peaksAt h f (s + 1) m := by
  simp only [peaksAt, Nat.bitIndices_two_mul_add_one, List.map_map, map_cons, pow_zero,
    Nat.div_one, Nat.add_zero, Nat.add_sub_cancel]
  congr 1
  apply List.map_congr_left
  intro t _
  simp only [Function.comp_apply]
  rw [← div_two_div_pow, show (2 * m + 1) / 2 = m by omega, show s + (t + 1) = s + 1 + t by omega]

/-- The induction is on the leaf count seen from height `s`; each carry halves it. -/
private theorem mergePeaks_peaksAt (s m : ℕ) : mergePeaks h (peaksAt h f s m) m (node h f s m) =
      (peaksAt h f s (m + 1), pathFrom h f s (height m (m + 1)) m) := by
  induction m using Nat.strong_induction_on generalizing s with
  | _ m ih =>
    obtain ⟨k, rfl | rfl⟩ : ∃ k, m = 2 * k ∨ m = 2 * k + 1 := ⟨m / 2, by omega⟩
    · have hh : height (2 * k) (2 * k + 1) = 0 := height_of_div_two_eq (by omega)
      rw [hh, pathFrom_zero, peaksAt_two_mul_add_one, peaksAt_two_mul]
      cases hps : peaksAt h f (s + 1) k with
      | nil => rfl
      | cons p ps => simp [mergePeaks]
    · have hh : height (2 * k + 1) (2 * k + 1 + 1) = height k (k + 1) + 1 := by
        rw [height_of_div_two_lt (by omega), show (2 * k + 1) / 2 = k by omega,
          show (2 * k + 1 + 1) / 2 = k + 1 by omega]
      have hodd : (2 * k + 1) % 2 = 1 := by omega
      have hhalf : (2 * k + 1) / 2 = k := by omega
      rw [peaksAt_two_mul_add_one, mergePeaks, if_pos hodd, hhalf, ← node_succ h f s k,
        ih k (by omega), hh, pathFrom_succ, sibling_of_odd hodd, hhalf, Nat.add_sub_cancel,
        show 2 * k + 1 + 1 = 2 * (k + 1) by omega, peaksAt_two_mul]

private theorem reverse_peaks (n : ℕ) : (peaks h f n).reverse = peaksAt h f 0 n := by
  simp [peaks, peakHeights, peaksAt]

/-- **Appending** yields the peaks of the longer row and the path of its last leaf. -/
theorem appendPeaks_peaks (n : ℕ) :
    appendPeaks h (peaks h f n) n (f n) = (peaks h f (n + 1), authPath h f (n + 1) n) := by
  have hm := mergePeaks_peaksAt h f 0 n
  rw [node_zero] at hm
  simp only [appendPeaks, reverse_peaks, hm, authPath]
  rw [← reverse_peaks, reverse_reverse]

/-- The path of leaf `i` after an append whose new leaf `d` has index `n` and path
`np`.  It grows exactly when the tree of leaf `i` is among the merged ones. -/
def extendPath (np : List D) (n : ℕ) (d : D) (i : ℕ) (p : List D) : List D :=
  if height i n < np.length then
    p ++ climb h d n (np.take (height i n)) :: np.drop (height i n + 1)
  else p

theorem height_append_of_lt {i n : ℕ} (hi : i < n) (hlt : height i n < height n (n + 1)) :
    height i (n + 1) = height n (n + 1) := by
  obtain ⟨h1, h2⟩ := height_spec (lt_succ_self n)
  have heq := div_pow_eq_of_height_lt hi hlt
  exact height_unique (by rw [heq]; exact h1) (by rw [heq]; exact h2)

theorem height_append_of_le {i n : ℕ} (hi : i < n) (hle : height n (n + 1) ≤ height i n) :
    height i (n + 1) = height i n := by
  obtain ⟨h1, h2⟩ := height_spec hi
  have hne : height n (n + 1) ≠ height i n := by
    intro he
    have := (height_spec (lt_succ_self n)).2
    rw [he] at this
    omega
  have heq := div_pow_eq_of_height_lt (lt_succ_self n) (lt_of_le_of_ne hle hne)
  exact height_unique (by rw [← heq]; exact h1) h2

theorem height_le_height {i n m : ℕ} (hi : i < n) (hnm : n ≤ m) : height i n ≤ height i m := by
  induction m, hnm using le_induction with
  | base => exact le_rfl
  | succ m hnm ih =>
    refine ih.trans ?_
    have him := lt_of_lt_of_le hi hnm
    by_cases hlt : height i m < height m (m + 1)
    · rw [height_append_of_lt him hlt]
      exact hlt.le
    · rw [height_append_of_le him (Nat.le_of_not_lt hlt)]

/-- **Paths before an append** are the first part of those after it. -/
theorem take_authPath {i n m : ℕ} (hi : i < n) (hnm : n ≤ m) :
    (authPath h f m i).take (height i n) = authPath h f n i :=
  take_pathFrom h f (height_le_height hi hnm)

theorem extendPath_authPath {i n : ℕ} (hi : i < n) :
    extendPath h (authPath h f (n + 1) n) n (f n) i (authPath h f n i) =
      authPath h f (n + 1) i := by
  unfold extendPath
  rw [length_authPath]
  by_cases hlt : height i n < height n (n + 1)
  · have hpar : i / 2 ^ (height i n + 1) = n / 2 ^ (height i n + 1) :=
      div_pow_eq_of_height_lt hi (lt_succ_self _)
    obtain ⟨h1, h2⟩ := height_spec hi
    -- the old root's sibling is the tree that the append completes
    have hnew : climb h (f n) n (pathFrom h f 0 (height i n) n) =
        node h f (height i n) (sibling (i / 2 ^ height i n)) := by
      have hc := climb_pathFrom h f 0 (height i n) n
      rw [node_zero, Nat.zero_add, h1] at hc
      rw [sibling_of_even h2, ← hc]
    obtain ⟨d, hd⟩ := Nat.exists_eq_add_of_lt hlt
    rw [if_pos hlt]
    simp only [authPath]
    rw [take_pathFrom _ _ hlt.le, hnew, height_append_of_lt hi hlt,
      drop_pathFrom _ _ (succ_le_of_lt hlt), hd,
      show height i n + d + 1 = height i n + (d + 1) by omega, pathFrom_add, pathFrom_succ,
      ← div_pow_succ, hpar]
    congr 3 <;> omega
  · rw [if_neg hlt]
    simp [authPath, height_append_of_le hi (Nat.le_of_not_lt hlt)]

/-! ## Replacing a leaf -/

/-- The peaks after leaf `i`, whose path is `p`, becomes `d`. -/
def mutatePeaks (ps : List D) (n i : ℕ) (d : D) (p : List D) : List D :=
  ps.set (peakIndex i n) (climb h d i p)

/-- The path `q` of leaf `j` after leaf `i`, whose path is `p`, becomes `d`: the
siblings that are ancestors of leaf `i` are recomputed. -/
def refreshPath (i : ℕ) (d : D) (p : List D) (j : ℕ) (q : List D) : List D :=
  q.mapIdx fun t s => if i / 2 ^ t = sibling (j / 2 ^ t) then climb h d i (p.take t) else s

/-- Two leafs whose ancestors are siblings below the root share their tree. -/
theorem height_eq_of_sibling {i j n t : ℕ} (hj : j < n) (ht : t < height j n)
    (hs : i / 2 ^ t = sibling (j / 2 ^ t)) : height i n = height j n := by
  obtain ⟨h1, h2⟩ := height_spec hj
  have hpar : i / 2 ^ (t + 1) = j / 2 ^ (t + 1) := by
    rw [div_pow_succ, div_pow_succ, hs, sibling_div_two]
  have hroot : i / 2 ^ height j n = j / 2 ^ height j n := by
    obtain ⟨d, hd⟩ := Nat.exists_eq_add_of_lt ht
    rw [hd, show t + d + 1 = (t + 1) + d by omega, pow_add, ← Nat.div_div_eq_div_mul,
      ← Nat.div_div_eq_div_mul, hpar]
  exact height_unique (by rw [hroot]; exact h1) (by rw [hroot]; exact h2)

theorem refreshPath_authPath {i j n : ℕ} (hj : j < n) (d : D) :
    refreshPath h i d (authPath h f n i) j (authPath h f n j) =
      authPath h (Function.update f i d) n j := by
  apply ext_getElem?
  intro t
  simp only [refreshPath, getElem?_mapIdx, authPath, getElem?_pathFrom, Nat.zero_add]
  by_cases ht : t < height j n
  · simp only [ht, if_true, map_some, some_inj]
    by_cases hs : i / 2 ^ t = sibling (j / 2 ^ t)
    · rw [if_pos hs, ← hs, node_update_self, take_pathFrom]
      rw [height_eq_of_sibling hj ht hs]
      exact ht.le
    · rw [if_neg hs, node_update_of_ne d hs]
  · simp [ht]

theorem mutatePeaks_peaks {i n : ℕ} (hi : i < n) (d : D) :
    mutatePeaks h (peaks h f n) n i d (authPath h f n i) = peaks h (Function.update f i d) n := by
  apply ext_getElem?
  intro k
  rw [mutatePeaks, getElem?_set, length_peaks]
  by_cases hk : peakIndex i n = k
  · subst hk
    rw [if_pos rfl, if_pos (peakIndex_lt hi), getElem?_peaks_peakIndex _ _ hi, node_update_self,
      authPath]
  · rw [if_neg hk]
    simp only [peaks, getElem?_map]
    cases hp : (peakHeights n)[k]? with
    | none => rfl
    | some t =>
      -- a peak of another tree does not cover the leaf
      have hne : height i n ≠ t := by
        rintro rfl
        obtain ⟨hklt, hpk⟩ := List.getElem?_eq_some_iff.mp hp
        apply hk
        rw [peakIndex, ← hpk]
        exact Nodup.idxOf_getElem (nodup_peakHeights n) k hklt
      have hmem := mem_of_getElem? hp
      rw [mem_peakHeights] at hmem
      rw [map_some, map_some, node_update_of_ne]
      intro hcov
      apply hne
      have hpos : 1 ≤ n / 2 ^ t := Nat.pos_of_ne_zero fun h0 => by simp [h0] at hmem
      exact height_unique (by omega) (by omega)

end NyksNode.Merkle
