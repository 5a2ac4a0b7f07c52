import Mathlib.Data.Nat.Digits.Lemmas

/-!
# Arrays of digits

A number of fixed width is an array of digits, least significant first.  `lexCompare`
compares two such arrays the way a program does, from the most significant digit
down, and stops deciding at the first difference; on arrays of equal length that is the
order of the numbers.
-/

namespace NyksNode

open List Nat

/-- `n` digits in base `b`, least significant first. -/
@[ext]
structure Limbs (b n : ℕ) where
  digits : List ℕ
  length_digits : digits.length = n
  digits_lt : ∀ d ∈ digits, d < b
  deriving DecidableEq, Repr

/-- Compare two arrays of digits from the last digit to the first. -/
def lexCompare (l r : List ℕ) : Ordering :=
  ((l.reverse.zip r.reverse).map fun x => compare x.1 x.2).foldl .then .eq

theorem foldl_then_of_ne {verdict : Ordering} (hne : verdict ≠ .eq) (verdicts : List Ordering) :
    verdicts.foldl .then verdict = verdict := by
  induction verdicts with
  | nil => rfl
  | cons v verdicts ih =>
    have hkeep : verdict.then v = verdict := by
      cases verdict <;> first | rfl | exact absurd rfl hne
    rw [foldl_cons, hkeep, ih]

theorem lexCompare_concat {l r : List ℕ} (x y : ℕ) :
    lexCompare (l ++ [x]) (r ++ [y]) = (compare x y).then (lexCompare l r) := by
  simp only [lexCompare, reverse_append, reverse_singleton, singleton_append,
    zip_cons_cons, map_cons, foldl_cons]
  cases hxy : compare x y with
  | eq => rfl
  | lt => exact foldl_then_of_ne (by simp) _
  | gt => exact foldl_then_of_ne (by simp) _

theorem compare_add_pow_mul {b x y u v n : ℕ} (hu : u < b ^ n) (hv : v < b ^ n) :
    compare (u + b ^ n * x) (v + b ^ n * y) = (compare x y).then (compare u v) := by
  have hlt : ∀ {u v x y : ℕ}, u < b ^ n → x < y → u + b ^ n * x < v + b ^ n * y := by
    intro u v x y hu hxy
    calc u + b ^ n * x < b ^ n * (x + 1) := by rw [mul_succ]; omega
      _ ≤ b ^ n * y := Nat.mul_le_mul_left _ hxy
      _ ≤ v + b ^ n * y := Nat.le_add_left _ _
  rcases lt_trichotomy x y with hxy | rfl | hxy
  · rw [compare_lt_iff_lt.mpr hxy, Ordering.lt_then, compare_lt_iff_lt]
    exact hlt hu hxy
  · rw [compare_eq_iff_eq.mpr (rfl : x = x), Ordering.eq_then]
    rcases lt_trichotomy u v with huv | rfl | huv
    · rw [compare_lt_iff_lt.mpr huv, compare_lt_iff_lt]
      exact Nat.add_lt_add_right huv _
    · rw [compare_eq_iff_eq.mpr rfl, compare_eq_iff_eq.mpr rfl]
    · rw [compare_gt_iff_gt.mpr huv, compare_gt_iff_gt]
      exact Nat.add_lt_add_right huv _
  · rw [compare_gt_iff_gt.mpr hxy, Ordering.gt_then, compare_gt_iff_gt]
    exact hlt hv hxy

/-- **Comparing digits compares numbers.** -/
theorem lexCompare_eq_compare_ofDigits {b : ℕ} (hb : 1 < b) {l r : List ℕ}
    (hlen : l.length = r.length) (hl : ∀ d ∈ l, d < b) (hr : ∀ d ∈ r, d < b) :
    lexCompare l r = compare (Nat.ofDigits b l) (Nat.ofDigits b r) := by
  induction l using List.reverseRecOn generalizing r with
  | nil =>
    obtain rfl : r = [] := eq_nil_of_length_eq_zero hlen.symm
    rfl
  | append_singleton l x ih =>
    obtain ⟨r, y, rfl⟩ : ∃ r' y, r = r' ++ [y] := by
      refine ⟨r.dropLast, r.getLast (fun hnil => by simp [hnil] at hlen), ?_⟩
      exact (dropLast_append_getLast _).symm
    have hlen' : l.length = r.length := by simpa using hlen
    have hl' : ∀ d ∈ l, d < b := fun d hd => hl d (mem_append_left _ hd)
    have hr' : ∀ d ∈ r, d < b := fun d hd => hr d (mem_append_left _ hd)
    rw [lexCompare_concat, ih hlen' hl' hr', ofDigits_append, ofDigits_append,
      ofDigits_singleton, ofDigits_singleton, ← hlen']
    refine (compare_add_pow_mul (ofDigits_lt_base_pow_length hb hl') ?_).symm
    rw [hlen']
    exact ofDigits_lt_base_pow_length hb hr'

namespace Limbs
variable {b n : ℕ}

/-- The number that the digits denote. -/
def value (l : Limbs b n) : ℕ := Nat.ofDigits b l.digits

/-- An array from a list, which must have the right length. -/
def ofList (b n : ℕ) (l : List ℕ) : Option (Limbs b n) :=
  if h : l.length = n ∧ ∀ d ∈ l, d < b then some ⟨l, h.1, h.2⟩ else none

theorem value_lt (hb : 1 < b) (l : Limbs b n) : l.value < b ^ n := by
  have hlt := ofDigits_lt_base_pow_length hb l.digits_lt
  rwa [l.length_digits] at hlt

theorem value_injective (hb : 1 < b) : Function.Injective (value : Limbs b n → ℕ) := by
  intro l r h
  exact Limbs.ext (ofDigits_inj_of_len_eq hb (l.length_digits.trans r.length_digits.symm)
    l.digits_lt r.digits_lt h)

theorem lexCompare_eq (hb : 1 < b) (l r : Limbs b n) :
    lexCompare l.digits r.digits = compare l.value r.value :=
  lexCompare_eq_compare_ofDigits hb (l.length_digits.trans r.length_digits.symm) l.digits_lt
    r.digits_lt

end Limbs

end NyksNode
