import Mathlib.Algebra.Order.Field.Power
import Mathlib.Data.Int.Log
import Mathlib.Data.Rat.Floor
import Mathlib.Tactic.Positivity

/-!
# Floating-point numbers with 53 significant bits

A finite number is a rational number that has the format; the operations compute exactly and
round to the nearest number, ties to even.  There is one zero, which counts as positive.

The lemmas are about ranges: `Within a b x` says that `x` is finite and lies between two
positive bounds.  Every operation loses at most a factor of two, which is enough to rule out
infinities and the value that is no number.
-/

namespace NyksNode

/-- The nearest integer, ties to even. -/
def roundHalfEven (x : ℚ) : ℤ :=
  if x - ⌊x⌋ < 1 / 2 then ⌊x⌋
  else if 1 / 2 < x - ⌊x⌋ then ⌊x⌋ + 1
  else if Even ⌊x⌋ then ⌊x⌋ else ⌊x⌋ + 1

theorem le_roundHalfEven {x : ℚ} {n : ℤ} (h : (n : ℚ) ≤ x) : n ≤ roundHalfEven x := by
  have hfloor : n ≤ ⌊x⌋ := Int.le_floor.mpr h
  unfold roundHalfEven
  split_ifs <;> omega

theorem roundHalfEven_le {x : ℚ} {n : ℤ} (h : x ≤ n) : roundHalfEven x ≤ n := by
  have hfloor : ⌊x⌋ ≤ n := Int.floor_le_iff.mpr (h.trans_lt (lt_add_one _))
  -- a number with a fraction is strictly below the bound
  have hfraction : 1 / 2 ≤ x - ⌊x⌋ → ⌊x⌋ < n := by
    intro hhalf
    have hlt : (⌊x⌋ : ℚ) < n := by linarith
    exact_mod_cast hlt
  unfold roundHalfEven
  split_ifs with h₁ h₂
  · exact hfloor
  · exact hfraction h₂.le
  · exact hfloor
  · exact hfraction (not_lt.mp h₁)

/-- Numbers of the format. -/
def Representable (q : ℚ) : Prop :=
  ∃ n k : ℤ, |n| ≤ 2 ^ 53 ∧ -1074 ≤ k ∧ q = n * 2 ^ k ∧ |q| < 2 ^ 1024

inductive Binary64 where
  | finite (q : ℚ) (representable : Representable q)
  | infinity (negative : Bool)
  | nan

namespace Binary64

/-- The exponent of the last bit. -/
def lastBit (q : ℚ) : ℤ := max (Int.log 2 |q| - 52) (-1074)

theorem abs_div_lastBit_lt (q : ℚ) : |q / 2 ^ lastBit q| < 2 ^ 53 := by
  have hlog : |q| < (2 : ℚ) ^ (Int.log 2 |q| + 1) := by
    exact_mod_cast Int.lt_zpow_succ_log_self (b := 2) Nat.one_lt_two |q|
  have hpow : (2 : ℚ) ^ (Int.log 2 |q| + 1) ≤ 2 ^ (53 + lastBit q) := by
    refine zpow_le_zpow_right₀ one_le_two ?_
    rw [lastBit]
    omega
  have hpos : (0 : ℚ) < 2 ^ lastBit q := by positivity
  rw [abs_div, abs_of_pos hpos, div_lt_iff₀ hpos]
  refine hlog.trans_le (hpow.trans_eq ?_)
  rw [zpow_add₀ two_ne_zero]
  norm_num

/-- The nearest number of the format, without an upper bound. -/
def nearest (q : ℚ) : ℚ := roundHalfEven (q / 2 ^ lastBit q) * 2 ^ lastBit q

variable {q : ℚ}

theorem representable_nearest (h : |nearest q| < 2 ^ 1024) : Representable (nearest q) := by
  have hlt := abs_lt.mp (abs_div_lastBit_lt q)
  refine ⟨roundHalfEven (q / 2 ^ lastBit q), lastBit q, ?_, le_max_right _ _, rfl, h⟩
  rw [abs_le]
  constructor
  · exact le_roundHalfEven (by push_cast; exact hlt.1.le)
  · exact roundHalfEven_le (by push_cast; exact hlt.2.le)

def round (q : ℚ) : Binary64 :=
  if h : |nearest q| < 2 ^ 1024 then finite (nearest q) (representable_nearest h)
  else infinity (q < 0)

def ofNat (n : ℕ) : Binary64 := round n

def ofInt (n : ℤ) : Binary64 := round n

def add : Binary64 → Binary64 → Binary64
  | finite p _, finite q _ => round (p + q)
  | infinity s, infinity t => if s = t then infinity s else nan
  | infinity s, finite _ _ => infinity s
  | finite _ _, infinity t => infinity t
  | nan, _ => nan
  | _, nan => nan

def mul : Binary64 → Binary64 → Binary64
  | finite p _, finite q _ => round (p * q)
  | infinity s, infinity t => infinity (s ^^ t)
  | infinity s, finite q _ => if q = 0 then nan else infinity (s ^^ decide (q < 0))
  | finite p _, infinity t => if p = 0 then nan else infinity (decide (p < 0) ^^ t)
  | nan, _ => nan
  | _, nan => nan

def div : Binary64 → Binary64 → Binary64
  | finite p _, finite q _ =>
    if q = 0 then if p = 0 then nan else infinity (p < 0) else round (p / q)
  | infinity _, infinity _ => nan
  | infinity s, finite q _ => infinity (s ^^ decide (q < 0))
  | finite _ _, infinity _ => round 0
  | nan, _ => nan
  | _, nan => nan

/-- `x ≤ y`, which nothing satisfies that is no number. -/
def le : Binary64 → Binary64 → Bool
  | finite p _, finite q _ => p ≤ q
  | infinity s, infinity t => s || !t
  | infinity s, finite _ _ => s
  | finite _ _, infinity t => !t
  | nan, _ => false
  | _, nan => false

def lt (x y : Binary64) : Bool := x.le y && !y.le x

def isEq (x y : Binary64) : Bool := x.le y && y.le x

def toNat : Binary64 → Option ℕ
  | finite q _ => if 0 ≤ q then some ⌊q⌋₊ else none
  | infinity _ => none
  | nan => none

theorem ofInt_natCast (n : ℕ) : ofInt n = ofNat n := by rw [ofInt, ofNat, Int.cast_natCast]

/-! ## Ranges -/

def Within (a b : ℚ) (x : Binary64) : Prop := ∃ q h, x = finite q h ∧ a ≤ q ∧ q ≤ b

variable {a b c d : ℚ} {x : Binary64}

theorem Within.mono (h : Within a b x) (hc : c ≤ a) (hd : b ≤ d) : Within c d x := by
  obtain ⟨q, hq, hx, ha, hb⟩ := h
  exact ⟨q, hq, hx, hc.trans ha, hb.trans hd⟩

/-- **Rounding loses at most a factor of two** well inside the normal range. -/
theorem within_round (hlo : 1 / 2 ^ 200 ≤ a) (hhi : b ≤ 2 ^ 200) (ha : a ≤ q) (hb : q ≤ b) :
    Within (a / 2) (2 * b) (round q) := by
  have hmin : (0 : ℚ) < 1 / 2 ^ 200 := by positivity
  have hq : 0 < q := hmin.trans_le (hlo.trans ha)
  have hlog : (2 : ℚ) ^ Int.log 2 q ≤ q := by
    exact_mod_cast Int.zpow_log_le_self (b := 2) Nat.one_lt_two hq
  have hlog' : q < (2 : ℚ) ^ (Int.log 2 q + 1) := by
    exact_mod_cast Int.lt_zpow_succ_log_self (b := 2) Nat.one_lt_two q
  have hnormal : -200 ≤ Int.log 2 q := by
    refine (Int.zpow_le_iff_le_log Nat.one_lt_two hq).mp (le_trans ?_ (hlo.trans ha))
    norm_num
  have hlast : lastBit q = Int.log 2 q - 52 := by
    rw [lastBit, abs_of_pos hq]
    omega
  have hpos : (0 : ℚ) < 2 ^ lastBit q := by positivity
  have hscale : (2 : ℚ) ^ Int.log 2 q = 2 ^ 52 * 2 ^ lastBit q := by
    rw [hlast, zpow_sub₀ two_ne_zero]
    exact (mul_div_cancel₀ _ (by norm_num)).symm
  have hlower : (2 ^ 52 : ℤ) ≤ roundHalfEven (q / 2 ^ lastBit q) := by
    refine le_roundHalfEven ?_
    rw [le_div_iff₀ hpos]
    push_cast
    exact hscale ▸ hlog
  have hupper : roundHalfEven (q / 2 ^ lastBit q) ≤ (2 ^ 53 : ℤ) := by
    refine roundHalfEven_le ?_
    push_cast
    exact (abs_lt.mp (abs_div_lastBit_lt q)).2.le
  have hlower' : (2 : ℚ) ^ Int.log 2 q ≤ nearest q := by
    rw [hscale, nearest]
    refine mul_le_mul_of_nonneg_right ?_ hpos.le
    exact_mod_cast hlower
  have hupper' : nearest q ≤ 2 * 2 ^ Int.log 2 q := by
    rw [hscale, nearest, ← mul_assoc]
    refine mul_le_mul_of_nonneg_right ?_ hpos.le
    have : (roundHalfEven (q / 2 ^ lastBit q) : ℚ) ≤ 2 ^ 53 := by exact_mod_cast hupper
    linarith
  rw [zpow_add_one₀ two_ne_zero] at hlog'
  have hnear : 0 ≤ nearest q := (by positivity : (0 : ℚ) ≤ 2 ^ Int.log 2 q).trans hlower'
  have hsmall : |nearest q| < 2 ^ 1024 := by
    have hbig : (2 : ℚ) * 2 ^ 200 < 2 ^ 1024 := by
      rw [← pow_succ']
      exact pow_lt_pow_right₀ one_lt_two (by norm_num)
    rw [abs_of_nonneg hnear]
    calc nearest q ≤ 2 * 2 ^ Int.log 2 q := hupper'
      _ ≤ 2 * 2 ^ 200 := 
          mul_le_mul_of_nonneg_left (hlog.trans (hb.trans hhi)) zero_le_two
      _ < 2 ^ 1024 := hbig
  refine ⟨nearest q, representable_nearest hsmall, dif_pos hsmall, ?_, ?_⟩ <;> linarith

theorem within_ofNat {n b : ℕ} (hn : 1 ≤ n) (hb : n ≤ b) (hhi : (b : ℚ) ≤ 2 ^ 200) :
    Within (1 / 2) (2 * b) (ofNat n) := by
  exact within_round (by norm_num) hhi (by exact_mod_cast hn) (by exact_mod_cast hb)

variable {y : Binary64}

theorem Within.add (hx : Within a b x) (hy : Within c d y) (hlo : 1 / 2 ^ 200 ≤ a + c)
    (hhi : b + d ≤ 2 ^ 200) : Within ((a + c) / 2) (2 * (b + d)) (x.add y) := by
  obtain ⟨p, hp, rfl, hap, hpb⟩ := hx
  obtain ⟨q, hq, rfl, hcq, hqd⟩ := hy
  exact within_round hlo hhi (add_le_add hap hcq) (add_le_add hpb hqd)

theorem Within.div (hx : Within a b x) (hy : Within c d y) (ha : 0 ≤ a) (hc : 0 < c)
    (hlo : 1 / 2 ^ 200 ≤ a / d) (hhi : b / c ≤ 2 ^ 200) :
    Within (a / d / 2) (2 * (b / c)) (x.div y) := by
  obtain ⟨p, hp, rfl, hap, hpb⟩ := hx
  obtain ⟨q, hq, rfl, hcq, hqd⟩ := hy
  have hqpos : 0 < q := hc.trans_le hcq
  rw [Binary64.div, if_neg hqpos.ne']
  refine within_round hlo hhi ?_ ?_
  · exact div_le_div₀ (ha.trans hap) hap hqpos hqd
  · exact div_le_div₀ ((ha.trans hap).trans hpb) hpb hc hcq

/-! ## Numbers that are not negative -/

def IsNonneg : Binary64 → Prop
  | finite q _ => 0 ≤ q
  | infinity negative => negative = false
  | nan => False

theorem isNonneg_round (hq : 0 ≤ q) : (round q).IsNonneg := by
  have hnear : 0 ≤ nearest q := by
    have hpos : (0 : ℚ) < 2 ^ lastBit q := by positivity
    have hround : 0 ≤ roundHalfEven (q / 2 ^ lastBit q) :=
      le_roundHalfEven (by push_cast; positivity)
    rw [nearest]
    have : (0 : ℚ) ≤ roundHalfEven (q / 2 ^ lastBit q) := by exact_mod_cast hround
    positivity
  rw [round]
  split
  · exact hnear
  · exact decide_eq_false (not_lt.mpr hq)

theorem isNonneg_ofNat (n : ℕ) : (ofNat n).IsNonneg := isNonneg_round (Nat.cast_nonneg n)

theorem IsNonneg.add (hx : x.IsNonneg) (hy : y.IsNonneg) : (x.add y).IsNonneg := by
  cases x with
  | finite p hp =>
    cases y with
    | finite q hq => exact isNonneg_round (add_nonneg hx hy)
    | infinity t => exact hy
    | nan => exact hy
  | infinity s =>
    cases y with
    | finite q hq => exact hx
    | infinity t =>
      have hst : s = t := hx.trans hy.symm
      rw [Binary64.add, if_pos hst]
      exact hx
    | nan => exact hy
  | nan => exact hx.elim

theorem IsNonneg.mul (hx : x.IsNonneg) (hy : Within a b y) (ha : 0 < a) : (x.mul y).IsNonneg := by
  obtain ⟨q, hq, rfl, haq, -⟩ := hy
  have hpos : 0 < q := ha.trans_le haq
  cases x with
  | finite p hp => exact isNonneg_round (mul_nonneg hx hpos.le)
  | infinity s =>
    rw [Binary64.mul, if_neg hpos.ne']
    have hsign : decide (q < 0) = false := decide_eq_false (not_lt.mpr hpos.le)
    rw [hsign, Bool.xor_false]
    exact hx
  | nan => exact hx.elim

/-! ## Zero -/

theorem round_zero : ∃ h, round 0 = finite 0 h := by
  have hnear : nearest 0 = 0 := by simp [nearest, roundHalfEven]
  have hsmall : |nearest 0| < 2 ^ 1024 := by
    rw [hnear, abs_zero]
    positivity
  refine ⟨hnear ▸ representable_nearest hsmall, ?_⟩
  rw [round, dif_pos hsmall]
  simp [hnear]

theorem zero_lt_div_iff {n d : ℕ} (hn : n ≤ 2 ^ 192) (hd : 1 ≤ d) (hd' : d ≤ 2 ^ 64) :
    (ofNat 0).lt ((ofNat n).div (ofNat d)) = true ↔ n ≠ 0 := by
  obtain ⟨h₀, hzero⟩ := round_zero
  have hzero' : ofNat 0 = finite 0 h₀ := by rw [ofNat, Nat.cast_zero, hzero]
  have hdenominator := within_ofNat hd hd' (by norm_num)
  by_cases hn₀ : n = 0
  · obtain ⟨q, hq, hx, hlo, -⟩ := hdenominator
    have hpos : q ≠ 0 := by
      rintro rfl
      norm_num at hlo
    rw [hn₀, hzero', hx, div, if_neg hpos, zero_div, hzero]
    simp [lt, le]
  · have hnumerator := within_ofNat (Nat.one_le_iff_ne_zero.mpr hn₀) hn (by norm_num)
    obtain ⟨q, hq, hx, hlo, -⟩ := hnumerator.div hdenominator (by norm_num) (by norm_num)
      (by norm_num) (by norm_num)
    have hpos : 0 < q := lt_of_lt_of_le (by norm_num) hlo
    rw [hx, hzero']
    simp [lt, le, hn₀, hpos, hpos.le]

end Binary64

end NyksNode
