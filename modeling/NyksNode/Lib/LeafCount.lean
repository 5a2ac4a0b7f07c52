import NyksNode.Lib.MountainRange

/-!
# Leaf counts that explain trees

Somebody who sees a few leafs of a mountain range, each with the height of its tree,
does not learn how many leafs there are, since trees below all of those stay hidden.
Starting from the largest leaf index seen and making room for one tree after the
other, highest first, gives the leaf count without the hidden trees.
-/

namespace NyksNode.Merkle

open List Nat

/-- The least leaf count from `n` on whose range has a tree of height `t`. -/
def withTree (n t : ℕ) : ℕ := if n / 2 ^ t % 2 = 1 then n else (n / 2 ^ t + 1) * 2 ^ t

variable {n t i : ℕ}

theorem withTree_lt {w : ℕ} (hn : n < 2 ^ w) (ht : t < w) : withTree n t < 2 ^ w := by
  rw [withTree]
  split
  · exact hn
  · rename_i heven
    obtain ⟨d, rfl⟩ := Nat.exists_eq_add_of_lt ht
    have hlt : n / 2 ^ t < 2 ^ (d + 1) := by
      rw [Nat.div_lt_iff_lt_mul (by positivity), ← pow_add]
      rwa [show d + 1 + t = t + d + 1 by omega]
    -- an even number below an even number is not its predecessor
    have hsucc : n / 2 ^ t + 1 < 2 ^ (d + 1) := by
      rw [pow_succ] at hlt ⊢
      omega
    calc (n / 2 ^ t + 1) * 2 ^ t
        < 2 ^ (d + 1) * 2 ^ t := Nat.mul_lt_mul_of_pos_right hsucc (by positivity)
      _ = 2 ^ (t + d + 1) := by rw [← pow_add]; congr 1; omega

/-- Setting a bit and clearing those below it, in a word of `w` bits. -/
theorem or_and_eq_withTree {w : ℕ} (hn : n < 2 ^ w) (ht : t < w) (hbit : n / 2 ^ t % 2 ≠ 1) :
    (n ||| 2 ^ t) &&& (2 ^ w - 1 - (2 ^ t - 1)) = withTree n t := by
  have hpow : 2 ^ w - 1 - (2 ^ t - 1) = 2 ^ w - (2 ^ t - 1 + 1) := by
    have : 0 < 2 ^ t := by positivity
    omega
  have hlt : 2 ^ t - 1 < 2 ^ w := by
    have : 2 ^ t < 2 ^ w := Nat.pow_lt_pow_right (by decide) ht
    omega
  have hsucc : n / 2 ^ t + 1 = n / 2 ^ t ||| 1 := by
    have := two_pow_add_eq_or_of_lt (i := 1) (b := 1) (by decide) (n / 2 ^ t / 2)
    rw [pow_one, Nat.mul_comm] at this
    rw [show n / 2 ^ t = n / 2 ^ t / 2 * 2 by omega]
    rw [Nat.mul_comm] at this ⊢
    exact this
  rw [withTree, if_neg hbit, hsucc, ← shiftLeft_eq]
  apply eq_of_testBit_eq
  intro i
  rw [testBit_and, hpow, testBit_two_pow_sub_succ hlt, testBit_two_pow_sub_one,
    testBit_or, testBit_two_pow, testBit_shiftLeft, testBit_or, testBit_div_two_pow]
  by_cases hi : t ≤ i
  · have hone : (1 : ℕ).testBit (i - t) = decide (t = i) := by
      rw [← pow_zero 2, testBit_two_pow]
      exact decide_eq_decide.mpr (by omega)
    rw [hone, Nat.sub_add_cancel hi]
    by_cases hw : i < w
    · simp [hi, hw, Nat.not_lt.mpr hi]
    · have hnw : n.testBit i = false :=
        testBit_lt_two_pow (hn.trans_le (Nat.pow_le_pow_right (by decide) (not_lt.mp hw)))
      simp [hw, hnw, show t ≠ i by omega]
  · simp [hi, Nat.not_le.mp hi]

/-! ## Truncated leaf counts -/

/-- A leaf count without the trees lower than `t`. -/
def truncated (n t : ℕ) : ℕ := n / 2 ^ t * 2 ^ t

theorem truncated_div {s : ℕ} (hst : s ≤ t) : truncated n s / 2 ^ t = n / 2 ^ t := by
  obtain ⟨d, rfl⟩ := Nat.exists_eq_add_of_le hst
  rw [truncated, pow_add, ← Nat.div_div_eq_div_mul, ← Nat.div_div_eq_div_mul,
    Nat.mul_div_cancel _ (by positivity)]

theorem height_truncated (hi : i < n) (ht : t ≤ height i n) :
    height i (truncated n t) = height i n := by
  obtain ⟨hspec, heven⟩ := height_spec hi
  exact height_unique (by rw [truncated_div ht, hspec]) heven

theorem lt_truncated (hi : i < n) (ht : t ≤ height i n) : i < truncated n t := by
  by_contra hle
  have hdiv := Nat.div_le_div_right (c := 2 ^ height i n) (not_lt.mp hle)
  rw [truncated_div ht, (height_spec hi).1] at hdiv
  omega

theorem height_antitone {j : ℕ} (hij : i ≤ j) (hj : j < n) : height j n ≤ height i n := by
  by_contra hlt
  have hle := Nat.div_le_div_right (c := 2 ^ height j n) hij
  rw [div_pow_eq_of_height_lt (lt_of_le_of_lt hij hj) (not_le.mp hlt), (height_spec hj).1] at hle
  omega

theorem withTree_of_height_lt (hi : i < n) (ht : t ∈ peakHeights n) (hlt : height i n < t) :
    withTree i t = i := by
  rw [withTree, div_pow_eq_of_height_lt hi hlt, if_pos (mem_peakHeights.mp ht)]

theorem withTree_height (hi : i < n) : withTree i (height i n) = truncated n (height i n) := by
  obtain ⟨hspec, heven⟩ := height_spec hi
  rw [withTree, if_neg (by omega), truncated, hspec]

/-- **The estimate is the leaf count without the hidden trees.**  The heights are taken from the
highest to that of the last leaf seen. -/
theorem foldl_withTree (hi : i < n) {ts : List ℕ} (hts : ts.Pairwise (· < ·))
    (hlast : height i n ∈ ts) (hmem : ∀ t ∈ ts, t ∈ peakHeights n ∧ height i n ≤ t) :
    ts.reverse.foldl withTree i = truncated n (height i n) := by
  cases ts with
  | nil => cases hlast
  | cons t ts =>
    rw [pairwise_cons] at hts
    -- the lowest height comes last
    have ht : t = height i n := by
      rcases mem_cons.mp hlast with h | h
      · exact h.symm
      · exact absurd (hts.1 _ h) (not_lt.mpr (hmem t mem_cons_self).2)
    have hskip : ts.reverse.foldl withTree i = i := by
      have hhigher : ∀ u ∈ ts.reverse, u ∈ peakHeights n ∧ height i n < u := by
        intro u hu
        have hu := mem_reverse.mp hu
        exact ⟨(hmem u (mem_cons_of_mem _ hu)).1, ht ▸ hts.1 u hu⟩
      generalize ts.reverse = us at hhigher
      induction us with
      | nil => rfl
      | cons u us ih =>
        obtain ⟨hu, hlt⟩ := hhigher u mem_cons_self
        rw [foldl_cons, withTree_of_height_lt hi hu hlt]
        exact ih fun v hv => hhigher v (mem_cons_of_mem _ hv)
    rw [reverse_cons, foldl_append, hskip, foldl_cons, foldl_nil, ht, withTree_height hi]

theorem le_of_mem_peakHeights_truncated {u : ℕ} (hu : u ∈ peakHeights (truncated n t)) : t ≤ u := by
  by_contra hlt
  obtain ⟨d, rfl⟩ := Nat.exists_eq_add_of_lt (not_le.mp hlt)
  have heven : truncated n (u + d + 1) / 2 ^ u % 2 = 0 := by
    rw [truncated, show u + d + 1 = d + 1 + u by omega, pow_add, ← Nat.mul_assoc,
      Nat.mul_div_cancel _ (by positivity), pow_succ, ← Nat.mul_assoc, mul_mod_left]
  rw [mem_peakHeights, heven] at hu
  omega

theorem truncated_truncated (n t : ℕ) : truncated (truncated n t) t = truncated n t := by
  rw [truncated, truncated_div le_rfl, truncated]

end NyksNode.Merkle
