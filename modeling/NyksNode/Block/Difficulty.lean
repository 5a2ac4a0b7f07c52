import NyksNode.Lib.Limbs
import NyksNode.Block.Network

/-!
# Difficulty and proof-of-work

Both are arrays of 32-bit limbs, least significant first: five for a difficulty, six for
an amount of accumulated work.  Sums and products run over the limbs with a carry, as
the source writes them; an intermediate result that leaves its machine word is
`none`.
-/

namespace NyksNode

open List Nat

/-- A sum of `u32` words. -/
def checkedU32 (n : ℕ) : Option ℕ := if n < u32Bound then some n else none

def checkedU64 (n : ℕ) : Option ℕ := if n < u64Bound then some n else none

def checkedI64 (n : ℤ) : Option ℤ := if -2 ^ 63 ≤ n ∧ n < 2 ^ 63 then some n else none

/-- `as i64` on a `u64`. -/
def wrapI64 (n : ℕ) : ℤ := if n < 2 ^ 63 then n else n - 2 ^ 64

/-- An array of `n` words of 32 bits. -/
abbrev U32Array (n : ℕ) := Limbs u32Bound n

/-! ## Difficulty -/

/-- The expected number of guesses for a block. -/
@[ext]
structure Difficulty where
  limbs : U32Array 5
  deriving DecidableEq, Repr

namespace Difficulty

def limbsForMinimum : U32Array 5 := ⟨[6000, 0, 0, 0, 0], rfl, by decide⟩

/-- `Difficulty::new`: limbs that are all at most those of the minimum become the minimum. -/
def new (difficulty : U32Array 5) : Difficulty :=
  if (difficulty.digits.zip limbsForMinimum.digits).all fun x => x.1 ≤ x.2 then ⟨limbsForMinimum⟩
  else ⟨difficulty⟩

def minimum : Difficulty := new limbsForMinimum

def maximum : Difficulty := new ⟨List.replicate 5 (u32Bound - 1), by simp, by decide⟩

def toBigUint (d : Difficulty) : ℕ := d.limbs.value

def cmp (d e : Difficulty) : Ordering := lexCompare d.limbs.digits e.limbs.digits

instance : LT Difficulty := ⟨fun d e => d.cmp e = .lt⟩

instance : DecidableLT Difficulty := fun d e => inferInstanceAs (Decidable (d.cmp e = .lt))

/-- First loop of `safe_mul_fixed_point_rational`: the product with the low limb, and the carry. -/
def mulDigits (lo : ℕ) : List ℕ → ℕ → Option (List ℕ × ℕ)
  | [], carry => some ([], carry)
  | d :: ds, carry => do
    let sum ← checkedU64 (carry + d * lo)
    let (digits, carry) ← mulDigits lo ds (sum >>> 32)
    some (sum % u32Bound :: digits, carry)

/-- Second loop: add the product with the high limb, one limb further up. -/
def addMulDigits (hi : ℕ) : List ℕ → List ℕ → ℕ → Option (List ℕ × ℕ)
  | d :: ds, x :: xs, carry => do
    let sum ← checkedU64 (carry + d * hi)
    let digit := x + sum % u32Bound
    let carry ← checkedU32 ((sum >>> 32) + digit / u32Bound)
    let (digits, carry) ← addMulDigits hi ds xs carry
    some (digit % u32Bound :: digits, carry)
  | _, xs, carry => some (xs, carry)

/-- `safe_mul_fixed_point_rational`: the difficulty times `hi + lo / 2 ^ 32`, and the overflow. -/
def safeMulFixedPointRational (d : Difficulty) (lo hi : ℕ) : Option (Difficulty × ℕ) := do
  let (digits, carry) ← mulDigits lo d.limbs.digits 0
  let (digits, carry) ← addMulDigits hi d.limbs.digits (digits ++ [carry]).tail 0
  let limbs ← Limbs.ofList u32Bound 5 digits
  some (new limbs, carry)

end Difficulty

def Network.genesisDifficulty : Network → Difficulty
  | .regTest => .minimum
  | .testnet _ | .testnetMock => .new ⟨[100000, 0, 0, 0, 0], rfl, by decide⟩
  | .main => .new ⟨[100000000, 0, 0, 0, 0], rfl, by decide⟩

/-! ## Proof-of-work -/

/-- The work that a chain has accumulated. -/
@[ext]
structure ProofOfWork where
  limbs : U32Array 6
  deriving DecidableEq, Repr

namespace ProofOfWork

def zero : ProofOfWork := ⟨⟨List.replicate 6 0, by simp, by decide⟩⟩

def toBigUint (p : ProofOfWork) : ℕ := p.limbs.value

def cmp (p q : ProofOfWork) : Ordering := lexCompare p.limbs.digits q.limbs.digits

instance : LE ProofOfWork := ⟨fun p q => p.cmp q ≠ .gt⟩

instance : DecidableLE ProofOfWork := fun p q => inferInstanceAs (Decidable (p.cmp q ≠ .gt))

theorem le_iff {p q : ProofOfWork} : p ≤ q ↔ p.toBigUint ≤ q.toBigUint := by
  change p.cmp q ≠ .gt ↔ _
  rw [cmp, Limbs.lexCompare_eq (by decide), ne_eq, compare_gt_iff_gt, not_lt]
  rfl

theorem toBigUint_lt (p : ProofOfWork) : p.toBigUint < 2 ^ 192 := p.limbs.value_lt (by decide)

theorem toBigUint_injective : Function.Injective toBigUint := fun _ _ h =>
  ProofOfWork.ext (Limbs.value_injective (by decide) h)

/-- The loops of `add`: the right operand may have fewer limbs.  The last carry is dropped. -/
def addDigits : List ℕ → List ℕ → ℕ → List ℕ
  | _, [], _ => []
  | [], p :: ps, carry =>
    let sum := carry + p
    sum % u32Bound :: addDigits [] ps (sum >>> 32)
  | d :: ds, p :: ps, carry =>
    let sum := carry + d + p
    sum % u32Bound :: addDigits ds ps (sum >>> 32)

theorem length_addDigits (ds ps : List ℕ) (carry : ℕ) :
    (addDigits ds ps carry).length = ps.length := by
  induction ps generalizing ds carry with
  | nil => cases ds <;> rfl
  | cons p ps ih => cases ds <;> simp [addDigits, ih]

theorem lt_of_mem_addDigits {ds ps : List ℕ} {carry d : ℕ} (hd : d ∈ addDigits ds ps carry) :
    d < u32Bound := by
  induction ps generalizing ds carry with
  | nil => cases ds <;> simp [addDigits] at hd
  | cons p ps ih =>
    cases ds <;>
    · rcases mem_cons.mp hd with rfl | hd
      · exact mod_lt _ (by decide)
      · exact ih hd

/-- `add`, with a difficulty on the right. -/
def add (p : ProofOfWork) (d : Difficulty) : ProofOfWork where
  limbs :=
    { digits := addDigits d.limbs.digits p.limbs.digits 0
      length_digits := (length_addDigits _ _ _).trans p.limbs.length_digits
      digits_lt := fun _ => lt_of_mem_addDigits }

theorem ofDigits_addDigits {ds ps : List ℕ} (hlen : ds.length ≤ ps.length) (carry : ℕ) :
    Nat.ofDigits u32Bound (addDigits ds ps carry) =
      (carry + Nat.ofDigits u32Bound ds + Nat.ofDigits u32Bound ps) % u32Bound ^ ps.length := by
  have hshift : ∀ n : ℕ, n >>> 32 = n / u32Bound := fun n => shiftRight_eq_div_pow n 32
  have hsplit : ∀ sum rest n : ℕ, (sum + u32Bound * rest) % u32Bound ^ (n + 1) =
      sum % u32Bound + u32Bound * ((sum / u32Bound + rest) % u32Bound ^ n) := by
    intro sum rest n
    rw [Nat.pow_succ', mod_mul, add_mul_mod_self_left, add_mul_div_left _ _ (by decide)]
  induction ps generalizing ds carry with
  | nil => simp [addDigits, mod_one]
  | cons p ps ih =>
    cases ds with
    | nil =>
      rw [addDigits, ofDigits_cons, ih (Nat.zero_le _), hshift, ofDigits_nil,
        ofDigits_cons, length_cons, Nat.add_zero, Nat.add_zero, ← Nat.add_assoc, hsplit]
    | cons d ds =>
      rw [addDigits, ofDigits_cons, ih (le_of_succ_le_succ hlen), hshift, ofDigits_cons,
        ofDigits_cons, length_cons, Nat.add_assoc (_ / _), ← hsplit, Nat.mul_add]
      congr 1
      omega

/-- **Work adds up** modulo `2 ^ 192`. -/
theorem toBigUint_add (p : ProofOfWork) (d : Difficulty) :
    (p.add d).toBigUint = (p.toBigUint + d.toBigUint) % 2 ^ 192 := by
  have hlen : d.limbs.digits.length ≤ p.limbs.digits.length := by
    rw [d.limbs.length_digits, p.limbs.length_digits]
    decide
  have hsum := ofDigits_addDigits hlen 0
  rw [p.limbs.length_digits, Nat.zero_add, Nat.add_comm (ofDigits _ _)] at hsum
  exact hsum

theorem toBigUint_foldl_add (p : ProofOfWork) (ds : List Difficulty) : (ds.foldl add p).toBigUint =
      (p.toBigUint + (ds.map Difficulty.toBigUint).sum) % 2 ^ 192 := by
  induction ds generalizing p with
  | nil => exact (mod_eq_of_lt p.toBigUint_lt).symm
  | cons d ds ih =>
    rw [foldl_cons, ih, toBigUint_add, mod_add_mod, map_cons, sum_cons, Nat.add_assoc]

/-- **Cumulative work is exact**: sums are taken modulo `2 ^ 192`, in any order, and the limbs
compare as the numbers they denote. -/
theorem add_exact (p q : ProofOfWork) (d e : Difficulty) (ds ds' : List Difficulty)
    (hperm : ds.Perm ds') : (p.add d).toBigUint = (p.toBigUint + d.toBigUint) % 2 ^ 192 ∧
      ds.foldl add p = ds'.foldl add p ∧ p.cmp q = compare p.toBigUint q.toBigUint ∧
      d.cmp e = compare d.toBigUint e.toBigUint := by
  refine ⟨toBigUint_add p d, ?_, Limbs.lexCompare_eq (by decide) _ _,
    Limbs.lexCompare_eq (by decide) _ _⟩
  apply toBigUint_injective
  rw [toBigUint_foldl_add, toBigUint_foldl_add, (hperm.map _).sum_eq]

/-- Two difficulties in either order, on top of the largest work, whose limbs all overflow. -/
theorem add_exact_swap :
    let p : ProofOfWork := ⟨⟨List.replicate 6 (u32Bound - 1), by simp, by decide⟩⟩
    ([.minimum, .maximum].foldl add p = [.maximum, .minimum].foldl add p ∧
      (p.add .minimum).toBigUint = 5999) := by
  intro p
  have h := add_exact p p .minimum .maximum _ _ (List.Perm.swap .maximum .minimum [])
  exact ⟨h.2.1, h.1.trans (by decide)⟩

/-! ### Conversion from big integers -/

/-- `TryFrom<BigUint>`.  The `!` in front of the number of digits is the complement of a 64-bit
word, not a negation of the comparison. -/
def tryFromBigUint (big : ℕ) : Except String ProofOfWork :=
  let digits := Nat.digits u32Bound big
  if 6 < u64Bound - 1 - digits.length then
    .ok
      { limbs :=
          { digits := (digits.take 6).rightpad 6 0
            length_digits := by simp
            digits_lt := by
              intro d hd
              rcases mem_append.mp hd with hd | hd
              · exact Nat.digits_lt_base (by decide) (mem_of_mem_take hd)
              · rw [eq_of_mem_replicate hd]
                decide } }
  else .error "exceeds maximum ProofOfWork value"

/-- Every number with fewer than `2 ^ 64 - 7` digits is accepted, and cut to six of them. -/
theorem tryFromBigUint_of_lt {n : ℕ} (hn : (Nat.digits u32Bound n).length < u64Bound - 7) :
    ∃ p, tryFromBigUint n = .ok p ∧ p.toBigUint = n % 2 ^ 192 := by
  have haccept : 6 < u64Bound - 1 - (digits u32Bound n).length := by omega
  refine ⟨_, if_pos haccept, ?_⟩
  exact (ofDigits_append_replicate_zero _).trans
    (self_mod_pow_eq_ofDigits_take 6 n (by decide)).symm

/-- **The bound is not enforced**: the conversion accepts the numbers below `2 ^ 192` only, and
keeps them, exactly for those numbers and the ones with at least `2 ^ 64 - 7` digits. -/
theorem tryFromBigUint_exact_iff (n : ℕ) : (((∃ p, tryFromBigUint n = .ok p) ↔ n < 2 ^ 192) ∧
        ∀ p, tryFromBigUint n = .ok p → p.toBigUint = n) ↔
      n < 2 ^ 192 ∨ u64Bound - 7 ≤ (Nat.digits u32Bound n).length := by
  have hsix : (digits u32Bound n).length ≤ 6 ↔ n < 2 ^ 192 :=
    digits_length_le_iff (by decide) n
  by_cases hlt : (digits u32Bound n).length < u64Bound - 7
  · obtain ⟨p, hp, hvalue⟩ := tryFromBigUint_of_lt hlt
    constructor
    · intro h
      exact .inl (h.1.mp ⟨p, hp⟩)
    · intro h
      have hn := h.resolve_right (Nat.not_le.mpr hlt)
      refine ⟨⟨fun _ => hn, fun _ => ⟨p, hp⟩⟩, fun q hq => ?_⟩
      obtain rfl := Except.ok.inj (hp.symm.trans hq)
      rw [hvalue, mod_eq_of_lt hn]
  · have hreject : tryFromBigUint n = .error "exceeds maximum ProofOfWork value" :=
      if_neg (by omega)
    have hn : ¬ n < 2 ^ 192 := by
      rw [← hsix]
      simp only [u64Bound] at hlt
      omega
    simpa [hreject, Nat.not_lt.mp hlt] using hn

theorem tryFromBigUint_two_pow : tryFromBigUint (2 ^ 192) = .ok zero := by
  have hlen : (digits u32Bound (2 ^ 192)).length ≤ 7 :=
    (digits_length_le_iff (by decide) _).mpr (by decide)
  obtain ⟨p, hp, hvalue⟩ := tryFromBigUint_of_lt (n := 2 ^ 192) (by rw [u64Bound]; omega)
  rw [hp, toBigUint_injective (hvalue.trans (by decide : _ = zero.toBigUint))]

end ProofOfWork

/-! ## Difficulty control -/

/-- `difficulty_control`.  The relative error is a fixed-point number with 32 bits behind the
point; it is clamped to `[-1, 4]` and divided by `-16`. -/
def difficultyControl (newTimestamp oldTimestamp : Timestamp) (oldDifficulty : Difficulty)
    (targetBlockInterval : Timestamp) (previousBlockHeight : BlockHeight) : Option Difficulty :=
  if previousBlockHeight.isGenesis then some oldDifficulty
  else do
    let deltaT := newTimestamp - oldTimestamp
    let absoluteError ← checkedI64 (wrapI64 deltaT.value - wrapI64 targetBlockInterval.value)
    if targetBlockInterval.value = 0 then none
    else do
      let relativeError := absoluteError * ((2 ^ 32 : ℤ) / (targetBlockInterval.value : ℕ))
      let clampedError := max (-2 ^ 32) (min relativeError (4 * 2 ^ 32))
      let onePlusPTimesError : ℤ := 2 ^ 32 + (-clampedError) >>> (4 : ℕ)
      let lo := (onePlusPTimesError % 2 ^ 32).toNat
      let hi := ((onePlusPTimesError >>> (32 : ℕ)) % 2 ^ 32).toNat
      let (newDifficulty, overflow) ← oldDifficulty.safeMulFixedPointRational lo hi
      some (if 0 < overflow then .maximum else newDifficulty)

end NyksNode
