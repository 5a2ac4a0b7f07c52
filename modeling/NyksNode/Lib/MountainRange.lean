import NyksNode.Lib.Merkle
import Mathlib.Data.Nat.BitIndices

/-!
# Merkle mountain ranges

A mountain range over `n` leafs is one Merkle tree per set bit of `n`, highest
tree first.  With the leafs laid out on an infinite row, the tree of height `t`
is the node at position `n / 2 ^ t - 1`, so the whole structure is arithmetic on
`n`: `peaks` lists the roots, `height i n` is the height of the tree that holds
leaf `i`, and `authPath` is the sibling path inside that tree.

`verify` decides membership.  `verify_iff` says that it accepts exactly the
honest leaf and path, given an injective compression function.
-/

namespace NyksNode.Merkle

open List Nat

variable {D : Type*} (h : D → D → D) (f : ℕ → D)

/-! ## The tree that holds a leaf -/

/-- The height of the tree that holds leaf `i` in a mountain range of `n` leafs. -/
def height (i n : ℕ) : ℕ := Nat.log2 (i ^^^ n)

variable {i n : ℕ}

theorem height_of_div_two_eq (hp : i / 2 = n / 2) : height i n = 0 := by
  have hx : (i ^^^ n) / 2 = 0 := by rw [Nat.xor_div_two, hp, Nat.xor_self]
  rw [height, log2_def, if_neg (by omega)]

theorem height_of_div_two_lt (hp : i / 2 < n / 2) : height i n = height (i / 2) (n / 2) + 1 := by
  have hx : (i ^^^ n) / 2 ≠ 0 := by rw [Nat.xor_div_two]; exact Nat.xor_ne_zero_iff.mpr hp.ne
  rw [height, log2_def, if_pos (by omega), Nat.xor_div_two, height]

/-- The tree of leaf `i` ends where the bits of `n` below its height begin. -/
theorem height_spec (hi : i < n) :
    n / 2 ^ height i n = i / 2 ^ height i n + 1 ∧ i / 2 ^ height i n % 2 = 0 := by
  induction n using Nat.strong_induction_on generalizing i with
  | _ n ih =>
    rcases Nat.lt_or_eq_of_le (Nat.div_le_div_right (c := 2) hi.le) with hp | hp
    · rw [height_of_div_two_lt hp]
      have := ih (n / 2) (by omega) hp
      rwa [div_two_div_pow, div_two_div_pow] at this
    · rw [height_of_div_two_eq hp]
      simp only [pow_zero, Nat.div_one]
      omega

variable {t : ℕ}

/-- `height_spec` characterises the height. -/
theorem height_unique (ht : n / 2 ^ t = i / 2 ^ t + 1) (heven : i / 2 ^ t % 2 = 0) :
    height i n = t := by
  induction t generalizing i n with
  | zero =>
    simp only [pow_zero, Nat.div_one] at ht heven
    exact height_of_div_two_eq (by omega)
  | succ t ih =>
    rw [← div_two_div_pow, ← div_two_div_pow] at ht
    rw [← div_two_div_pow] at heven
    have hlt : i / 2 < n / 2 := by
      by_contra hle
      have := Nat.div_le_div_right (c := 2 ^ t) (Nat.le_of_not_lt hle)
      omega
    rw [height_of_div_two_lt hlt, ih ht heven]

theorem div_pow_succ (k t : ℕ) : k / 2 ^ (t + 1) = k / 2 ^ t / 2 := by
  rw [pow_succ, Nat.div_div_eq_div_mul]

theorem div_pow_eq_of_height_lt (hi : i < n) (ht : height i n < t) : i / 2 ^ t = n / 2 ^ t := by
  obtain ⟨h1, h2⟩ := height_spec hi
  obtain ⟨d, rfl⟩ := Nat.exists_eq_add_of_lt ht
  have hH : i / 2 ^ (height i n + 1) = n / 2 ^ (height i n + 1) := by
    rw [div_pow_succ, div_pow_succ, h1]; omega
  rw [show height i n + d + 1 = (height i n + 1) + d by omega, pow_add,
    ← Nat.div_div_eq_div_mul, ← Nat.div_div_eq_div_mul, hH]

/-- Every sibling on the path of leaf `i` covers only leafs below `n`. -/
theorem sibling_within (hi : i < n) (ht : t < height i n) :
    (sibling (i / 2 ^ t) + 1) * 2 ^ t ≤ n := by
  obtain ⟨h1, -⟩ := height_spec hi
  have hanc : (i / 2 ^ (t + 1) + 1) * 2 ^ (t + 1) ≤ (i / 2 ^ height i n + 1) * 2 ^ height i n := by
    obtain ⟨d, hd⟩ := Nat.exists_eq_add_of_le (succ_le_of_lt ht)
    rw [succ_eq_add_one] at hd
    rw [hd, pow_add 2 (t + 1) d, ← Nat.div_div_eq_div_mul]
    have hq : i / 2 ^ (t + 1) + 1 ≤ (i / 2 ^ (t + 1) / 2 ^ d + 1) * 2 ^ d := by
      have := lt_div_mul_add (a := i / 2 ^ (t + 1)) (b := 2 ^ d) (by positivity)
      nlinarith
    calc (i / 2 ^ (t + 1) + 1) * 2 ^ (t + 1)
        ≤ (i / 2 ^ (t + 1) / 2 ^ d + 1) * 2 ^ d * 2 ^ (t + 1) := Nat.mul_le_mul_right _ hq
      _ = (i / 2 ^ (t + 1) / 2 ^ d + 1) * (2 ^ (t + 1) * 2 ^ d) := by ring
  have hend : (i / 2 ^ height i n + 1) * 2 ^ height i n ≤ n := by
    rw [← h1]; exact div_mul_le_self _ _
  have hs : sibling (i / 2 ^ t) + 1 ≤ (i / 2 ^ (t + 1) + 1) * 2 := by
    have := sibling_div_two (i / 2 ^ t)
    rw [div_pow_succ]
    omega
  calc (sibling (i / 2 ^ t) + 1) * 2 ^ t
      ≤ (i / 2 ^ (t + 1) + 1) * 2 * 2 ^ t := Nat.mul_le_mul_right _ hs
    _ = (i / 2 ^ (t + 1) + 1) * 2 ^ (t + 1) := by rw [pow_succ]; ring
    _ ≤ n := hanc.trans hend

/-! ## Peaks -/

def peakHeights (n : ℕ) : List ℕ := n.bitIndices.reverse

/-- Which tree, counting from the highest, holds leaf `i`. -/
def peakIndex (i n : ℕ) : ℕ := (peakHeights n).idxOf (height i n)

def peaks (n : ℕ) : List D := (peakHeights n).map fun t => node h f t (n / 2 ^ t - 1)

/-- The siblings on the way from leaf `i` to the root of its tree. -/
def authPath (n i : ℕ) : List D := pathFrom h f 0 (height i n) i

theorem mem_peakHeights : t ∈ peakHeights n ↔ n / 2 ^ t % 2 = 1 := by
  rw [peakHeights, mem_reverse, mem_bitIndices, testBit_eq_decide_div_mod_eq, decide_eq_true_iff]

theorem nodup_peakHeights (n : ℕ) : (peakHeights n).Nodup := by
  rw [peakHeights, nodup_reverse]
  exact bitIndices_nodup

theorem pairwise_peakHeights (n : ℕ) : (peakHeights n).Pairwise (· > ·) := by
  rw [peakHeights, pairwise_reverse]
  exact bitIndices_sorted.pairwise

theorem insertionSort_peakHeights (n : ℕ) :
    (peakHeights n).insertionSort (· ≤ ·) = (peakHeights n).reverse := by
  apply List.Perm.eq_of_pairwise' (pairwise_insertionSort _ _)
  · rw [pairwise_reverse]
    exact (pairwise_peakHeights n).imp le_of_lt
  · exact (perm_insertionSort _ _).trans (reverse_perm _).symm

theorem two_pow_le_of_mem_peakHeights (ht : t ∈ peakHeights n) : 2 ^ t ≤ n := by
  rw [mem_peakHeights] at ht
  by_contra hlt
  rw [div_eq_of_lt (by omega)] at ht
  omega

theorem height_mem_peakHeights (hi : i < n) : height i n ∈ peakHeights n := by
  obtain ⟨h1, h2⟩ := height_spec hi
  rw [mem_peakHeights]
  omega

theorem peakIndex_lt (hi : i < n) : peakIndex i n < (peakHeights n).length :=
  idxOf_lt_length_iff.mpr (height_mem_peakHeights hi)

@[simp] theorem length_authPath (n i : ℕ) : (authPath h f n i).length = height i n := by
  simp [authPath]

@[simp] theorem length_peaks (n : ℕ) : (peaks h f n).length = (peakHeights n).length := by
  simp [peaks]

theorem getElem?_peakHeights_peakIndex (hi : i < n) :
    (peakHeights n)[peakIndex i n]? = some (height i n) := by
  rw [getElem?_eq_getElem (peakIndex_lt hi)]
  exact congrArg some (getElem_idxOf (peakIndex_lt hi))

/-- Leaf `i` lives under the peak at `peakIndex i n`. -/
theorem getElem?_peaks_peakIndex (hi : i < n) :
    (peaks h f n)[peakIndex i n]? = some (node h f (height i n) (i / 2 ^ height i n)) := by
  rw [peaks, getElem?_map, getElem?_peakHeights_peakIndex hi, Option.map_some,
    (height_spec hi).1, Nat.add_sub_cancel]

variable {h f} {g : ℕ → D}

theorem peaks_congr (hfg : ∀ i < n, f i = g i) : peaks h f n = peaks h g n := by
  apply map_congr_left
  intro t ht
  rw [mem_peakHeights] at ht
  apply node_congr
  intro i _ hi
  apply hfg
  have hpos : 1 ≤ n / 2 ^ t := Nat.pos_of_ne_zero fun h0 => by simp [h0] at ht
  rw [Nat.sub_add_cancel hpos] at hi
  exact lt_of_lt_of_le hi (div_mul_le_self _ _)

theorem authPath_eq_map_range (n i : ℕ) :
    authPath h f n i = (List.range (height i n)).map fun t => node h f t (sibling (i / 2 ^ t)) := by
  apply ext_getElem?
  intro t
  rw [authPath, getElem?_pathFrom, getElem?_map, Nat.zero_add]
  by_cases ht : t < height i n
  · simp [ht]
  · simp [ht]

theorem authPath_congr (hi : i < n) (hfg : ∀ j < n, f j = g j) :
    authPath h f n i = authPath h g n i := by
  apply pathFrom_congr
  intro t ht
  rw [Nat.zero_add]
  apply node_congr
  intro j _ hj
  exact hfg j (lt_of_lt_of_le hj (sibling_within hi ht))

/-- Two rows give a leaf the same digest and the same path exactly if they agree on the whole tree
that the leaf is in. -/
theorem authPath_eq_iff (hinj : Function.Injective2 h) :
    f i = g i ∧ authPath h f n i = authPath h g n i ↔
      ∀ j, i / 2 ^ height i n * 2 ^ height i n ≤ j → j < (i / 2 ^ height i n + 1) * 2 ^ height i n →
        f j = g j := by
  constructor
  · intro heq j hlo hhi
    refine eq_of_node_eq h hinj ?_ hlo hhi
    have hf := climb_pathFrom h f 0 (height i n) i
    have hg := climb_pathFrom h g 0 (height i n) i
    rw [Nat.zero_add, node_zero] at hf hg
    rw [← hf, ← hg, heq.1]
    exact congrArg (climb h (g i) i) heq.2
  · intro hfg
    have hnode : node h f (height i n) (i / 2 ^ height i n) =
        node h g (height i n) (i / 2 ^ height i n) := node_congr h _ _ hfg
    -- the path over the first row leads to the node of the second
    have hclimb := climb_pathFrom h f 0 (height i n) i
    rw [Nat.zero_add, node_zero, hnode] at hclimb
    have hsound := climb_sound hinj g (t := 0) (k := i) (a := f i) (p := authPath h f n i) (by
      rw [length_authPath, Nat.zero_add]
      exact hclimb)
    rwa [length_authPath] at hsound

/-- The last leaf of the tree that leaf `i` is in. -/
def lastOfTree (i n : ℕ) : ℕ := (i / 2 ^ height i n + 1) * 2 ^ height i n - 1

theorem le_lastOfTree (i n : ℕ) : i ≤ lastOfTree i n := by
  have := lt_div_mul_add (a := i) (b := 2 ^ height i n) (by positivity)
  rw [lastOfTree, Nat.add_mul, one_mul]
  omega

theorem lastOfTree_lt (hi : i < n) : lastOfTree i n < n := by
  have hend : (i / 2 ^ height i n + 1) * 2 ^ height i n ≤ n := by
    rw [← (height_spec hi).1]
    exact div_mul_le_self _ _
  have hpos : 0 < (i / 2 ^ height i n + 1) * 2 ^ height i n := by positivity
  rw [lastOfTree]
  omega

/-! ## Membership -/

variable [DecidableEq D]

/-- Check that leaf `i` of a mountain range with `n` leafs and peaks `ps` is `d`. -/
def verify (h : D → D → D) (p : List D) (i : ℕ) (d : D) (ps : List D) (n : ℕ) : Bool :=
  decide (i < n) && decide (p.length = height i n) &&
    decide (ps[peakIndex i n]? = some (climb h d i p))

theorem verify_authPath (hi : i < n) :
    verify h (authPath h f n i) i (f i) (peaks h f n) n = true := by
  have hc := climb_pathFrom h f 0 (height i n) i
  rw [node_zero, Nat.zero_add] at hc
  simp [verify, hi, getElem?_peaks_peakIndex h f hi, authPath, hc]

/-- **Membership is sound and complete.**  An injective compression function leaves
the verifier exactly one leaf and one path to accept. -/
theorem verify_iff (hinj : Function.Injective2 h) {p : List D} {d : D} :
    verify h p i d (peaks h f n) n = true ↔ i < n ∧ d = f i ∧ p = authPath h f n i := by
  constructor
  · intro hv
    simp only [verify, Bool.and_eq_true, decide_eq_true_eq] at hv
    obtain ⟨⟨hi, hlen⟩, hpeak⟩ := hv
    rw [getElem?_peaks_peakIndex h f hi, Option.some_inj, ← hlen] at hpeak
    have hs := climb_sound hinj f (t := 0) (by rw [Nat.zero_add]; exact hpeak.symm)
    rw [hlen] at hs
    exact ⟨hi, hs⟩
  · rintro ⟨hi, rfl, rfl⟩
    exact verify_authPath hi

end NyksNode.Merkle
