import Mathlib.Data.Nat.Bitwise

/-!
# Bit reversal

Reversing the bits of an index, and permuting a list along an involution by swaps.

Word-level code reverses bits in stages: stage `s` exchanges the bits at positions that
differ in the bit `s` only.  `Exchanges w s lo hi` says that the masks `lo` and `hi` do
that on `w` bits; for concrete masks it is decided by evaluation, and
`Exchanges.testBit_exchange` is all that a proof needs about a stage.
-/

namespace NyksNode

open List Nat

/-! ## Reversing bits -/

/-- The `n` lowest bits of `k`, in reverse order. -/
def bitReverse (n k : ℕ) : ℕ := Nat.ofBits fun i : Fin n => k.testBit (n - 1 - i)

theorem testBit_bitReverse (n k i : ℕ) :
    (bitReverse n k).testBit i = (decide (i < n) && k.testBit (n - 1 - i)) := by
  by_cases hi : i < n
  · simp [bitReverse, hi]
  · simp [bitReverse, hi, testBit_ofBits_ge _ i (not_lt.mp hi)]

theorem bitReverse_lt (n k : ℕ) : bitReverse n k < 2 ^ n := Nat.ofBits_lt_two_pow _

theorem bitReverse_bitReverse {n k : ℕ} (hk : k < 2 ^ n) : bitReverse n (bitReverse n k) = k := by
  apply eq_of_testBit_eq
  intro i
  rw [testBit_bitReverse, testBit_bitReverse]
  by_cases hi : i < n
  · have hback : n - 1 - (n - 1 - i) = i := by omega
    have hlt : n - 1 - i < n := by omega
    simp [hi, hback, hlt]
  · have hfalse : k.testBit i = false :=
      testBit_lt_two_pow (hk.trans_le (Nat.pow_le_pow_right Nat.zero_lt_two (not_lt.mp hi)))
    simp [hi, hfalse]

/-! ## Stages -/

/-- One stage: move the bits under `lo` up and the bits under `hi` down. -/
def exchange (s lo hi k : ℕ) : ℕ := ((k &&& lo) <<< s) ||| ((k &&& hi) >>> s)

theorem exchange_lt {s lo hi n : ℕ} (hlo : lo <<< s < 2 ^ n) (hhi : hi < 2 ^ n) (k : ℕ) :
    exchange s lo hi k < 2 ^ n := by
  apply or_lt_two_pow
  · refine lt_of_le_of_lt ?_ hlo
    rw [shiftLeft_eq, shiftLeft_eq]
    exact Nat.mul_le_mul_right _ and_le_right
  · exact (shiftRight_le _ _).trans_lt (and_le_right.trans_lt hhi)

/-- The masks exchange each position below `w` with the one that differs in the bit `s`. -/
def Exchanges (w s lo hi : ℕ) : Prop :=
  ∀ i < w, (s ≤ i ∧ lo.testBit (i - s) = true ∧ hi.testBit (i + s) = false ∧ i - s = i ^^^ s) ∨
    ((s ≤ i → lo.testBit (i - s) = false) ∧ hi.testBit (i + s) = true ∧ i + s = i ^^^ s)

instance (w s lo hi : ℕ) : Decidable (Exchanges w s lo hi) :=
  inferInstanceAs (Decidable (∀ i < w, _))

theorem Exchanges.testBit_exchange {w s lo hi : ℕ} (h : Exchanges w s lo hi) (k : ℕ) {i : ℕ}
    (hi' : i < w) : (exchange s lo hi k).testBit i = k.testBit (i ^^^ s) := by
  rw [exchange, testBit_or, testBit_shiftLeft, testBit_shiftRight, testBit_and,
    testBit_and, Nat.add_comm s i]
  rcases h i hi' with ⟨hle, hlo, hhi, heq⟩ | ⟨hlo, hhi, heq⟩
  · rw [← heq]
    simp [hle, hlo, hhi]
  · rw [← heq]
    by_cases hle : s ≤ i
    · simp [hle, hlo hle, hhi]
    · simp [hle, hhi]

/-! ## Permuting by swaps -/

section
variable {α : Type*}

def swapAt (l : List α) (i j : ℕ) : Option (List α) := do
  let a ← l[i]?
  let b ← l[j]?
  some ((l.set i b).set j a)

/-- Swap position `k` with position `σ k`, for every `k < n` with `k < σ k`. -/
def swapAll (σ : ℕ → ℕ) (n : ℕ) (l : List α) : Option (List α) :=
  (List.range n).foldlM (fun l k => if k < σ k then swapAt l k (σ k) else some l) l

theorem swapAt_eq {l : List α} {i j : ℕ} (hi : i < l.length) (hj : j < l.length) :
    swapAt l i j = some ((l.set i l[j]).set j l[i]) := by
  simp [swapAt, hi, hj]

theorem getElem?_set_set {l : List α} {i j : ℕ} (hi : i < l.length) (hj : j < l.length) (x : ℕ) :
    ((l.set i l[j]).set j l[i])[x]? = if x = j then l[i]? else if x = i then l[j]? else l[x]? := by
  rw [getElem?_set, getElem?_set, length_set, getElem?_eq_getElem hi, getElem?_eq_getElem hj]
  grind

section
variable {σ : ℕ → ℕ} {n : ℕ} (hσ : ∀ k < n, σ k < n) (hinv : ∀ k < n, σ (σ k) = k) {l : List α}
  (hl : l.length = n)
include hσ hinv hl

/-- **The loop of swaps.**  After `m` rounds the positions whose orbit was met are permuted. -/
theorem exists_swapAll {m : ℕ} (hm : m ≤ n) : ∃ l', swapAll σ m l = some l' ∧ l'.length = n ∧
      ∀ j < n, l'[j]? = if min j (σ j) < m then l[σ j]? else l[j]? := by
  induction m with
  | zero => exact ⟨l, rfl, hl, by simp⟩
  | succ m ih =>
    obtain ⟨l₁, hrun, hlen, hget⟩ := ih (le_of_succ_le hm)
    have hmn : m < n := hm
    have hσm := hσ m hmn
    rw [swapAll, range_succ, foldlM_append, ← swapAll, hrun]
    simp only [Option.bind_eq_bind, Option.bind_some, foldlM_cons, foldlM_nil]
    by_cases hlt : m < σ m
    · rw [if_pos hlt, swapAt_eq (hlen ▸ hmn) (hlen ▸ hσm)]
      refine ⟨_, rfl, by simp [hlen], fun j hj => ?_⟩
      rw [getElem?_set_set (hlen ▸ hmn) (hlen ▸ hσm), hget m hmn, hget (σ m) hσm, hget j hj,
        hinv m hmn]
      by_cases hjσ : j = σ m
      · subst hjσ
        rw [if_pos rfl, if_neg (by omega), hinv m hmn, if_pos (by omega)]
      by_cases hjm : j = m
      · subst hjm
        rw [if_neg hjσ, if_pos rfl, if_neg (by omega), if_pos (by omega)]
      · -- every other orbit was met before, or will be met later
        have hσj : σ j ≠ m := fun h => hjσ (by rw [← h, hinv j hj])
        have hiff : min j (σ j) < m + 1 ↔ min j (σ j) < m := by omega
        rw [if_neg hjσ, if_neg hjm]
        simp [hiff]
    · -- an orbit whose larger element is met now was met before, or is a fixed point
      rw [if_neg hlt]
      refine ⟨l₁, rfl, hlen, fun j hj => ?_⟩
      rw [hget j hj]
      by_cases hmin : min j (σ j) = m
      · have hfix : σ j = j := by
          by_cases hj' : j = m
          · subst hj'
            omega
          · have hσj : σ j = m := by omega
            have hback := hinv j hj
            rw [hσj] at hback
            omega
        rw [hfix, ite_self, ite_self]
      · have hiff : min j (σ j) < m + 1 ↔ min j (σ j) < m := by omega
        simp [hiff]

theorem getElem?_swapAll :
    ∃ l', swapAll σ n l = some l' ∧ l'.length = n ∧ ∀ j < n, l'[j]? = l[σ j]? := by
  obtain ⟨l', hrun, hlen, hget⟩ := exists_swapAll hσ hinv hl le_rfl
  refine ⟨l', hrun, hlen, fun j hj => ?_⟩
  rw [hget j hj, if_pos ((min_le_left _ _).trans_lt hj)]

end

end

end NyksNode
