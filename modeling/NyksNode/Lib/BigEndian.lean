import Mathlib.Data.Nat.Digits.Lemmas
import Mathlib.Data.Nat.Bitwise

/-!
# Streams of digits

`bigEndian b ds` is the number that a stream of base-`b` digits spells, the first digit
being the highest.  A program that repacks a stream into digits of another size
keeps this number, up to padding; `bigEndian_injective` reads the digits back from it.

The second part says what the shifts and masks of such a program do to a number.
-/

namespace NyksNode

open List Nat

/-- The number that a stream of digits spells, the first digit being the highest. -/
def bigEndian (b : ℕ) (ds : List ℕ) : ℕ := Nat.ofDigits b ds.reverse

@[simp] theorem bigEndian_nil (b : ℕ) : bigEndian b [] = 0 := rfl

theorem bigEndian_concat (b : ℕ) (ds : List ℕ) (d : ℕ) :
    bigEndian b (ds ++ [d]) = bigEndian b ds * b + d := by
  rw [bigEndian, reverse_concat, ofDigits_cons, bigEndian]
  ring

@[simp] theorem bigEndian_singleton (b d : ℕ) : bigEndian b [d] = d := by
  rw [← nil_append [d], bigEndian_concat, bigEndian_nil, Nat.zero_mul, Nat.zero_add]

theorem bigEndian_append (b : ℕ) (ds es : List ℕ) :
    bigEndian b (ds ++ es) = bigEndian b ds * b ^ es.length + bigEndian b es := by
  rw [bigEndian, reverse_append, ofDigits_append, length_reverse, bigEndian, bigEndian]
  ring

theorem bigEndian_lt {b : ℕ} (hb : 1 < b) {ds : List ℕ} (hds : ∀ d ∈ ds, d < b) :
    bigEndian b ds < b ^ ds.length := by
  rw [bigEndian, ← length_reverse]
  exact ofDigits_lt_base_pow_length hb (by simpa using hds)

theorem bigEndian_injective {b : ℕ} (hb : 1 < b) {ds es : List ℕ} (hlen : ds.length = es.length)
    (hds : ∀ d ∈ ds, d < b) (hes : ∀ d ∈ es, d < b) (heq : bigEndian b ds = bigEndian b es) :
    ds = es := by
  have hrev : ds.reverse = es.reverse :=
    ofDigits_inj_of_len_eq hb (by simpa using hlen) (by simpa using hds) (by simpa using hes)
      heq
  exact reverse_injective hrev

/-- Dividing by the place value of the tail leaves the head of a stream. -/
theorem bigEndian_append_div {b : ℕ} (hb : 1 < b) (ds : List ℕ) {es : List ℕ}
    (hes : ∀ d ∈ es, d < b) : bigEndian b (ds ++ es) / b ^ es.length = bigEndian b ds := by
  have hpos : 0 < b ^ es.length := Nat.pow_pos (by omega)
  rw [bigEndian_append, Nat.mul_comm, mul_add_div hpos,
    div_eq_of_lt (bigEndian_lt hb hes), Nat.add_zero]

/-! ## Shifts and masks -/

theorem shiftLeft_or_of_lt {a d w : ℕ} (hd : d < 2 ^ w) : a <<< w ||| d = a * 2 ^ w + d := by
  rw [← shiftLeft_add_eq_or_of_lt hd, shiftLeft_eq]

/-- Clearing the top digit of a word.  The mask is the complement of the digit in `n` bits. -/
theorem and_complement_of_lt {a s w n : ℕ} (ha : a < 2 ^ (s + w)) (hn : s + w ≤ n) :
    a &&& ((2 ^ n - 1) ^^^ ((2 ^ w - 1) <<< s)) = a % 2 ^ s := by
  apply eq_of_testBit_eq
  intro i
  rw [testBit_and, testBit_xor, testBit_two_pow_sub_one, testBit_shiftLeft,
    testBit_two_pow_sub_one, testBit_mod_two_pow]
  rcases Nat.lt_or_ge i (s + w) with hlt | hge
  · have hin : i < n := by omega
    rcases Nat.lt_or_ge i s with his | his
    · simp [hin, his, Nat.not_le.mpr his]
    · have : i - s < w := by omega
      simp [hin, his, this, Nat.not_lt.mpr his]
  · have hzero : a.testBit i = false :=
      testBit_lt_two_pow (lt_of_lt_of_le ha (Nat.pow_le_pow_right (by decide) hge))
    simp [hzero]

end NyksNode
