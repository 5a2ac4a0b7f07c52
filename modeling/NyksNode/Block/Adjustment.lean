import NyksNode.Lib.Fold
import NyksNode.Block.Difficulty

/-!
# How far a difficulty is adjusted

The controller multiplies a difficulty by a factor with 32 bits behind the point.  The two
loops of the multiplication are exact, so the new difficulty is the rounded product, raised to
the minimum and cut at the maximum.  The factor lies between 3/4 and 17/16 and falls as the
block time grows.
-/

namespace NyksNode

open List Nat Int

namespace Difficulty

/-! ## The product -/

theorem mulDigits_eq {lo : ℕ} (hlo : lo < u32Bound) {ds : List ℕ} (hds : ∀ d ∈ ds, d < u32Bound)
    {carry : ℕ} (hcarry : carry < u32Bound) :
    ∃ digits c, mulDigits lo ds carry = some (digits, c) ∧ digits.length = ds.length ∧
      (∀ d ∈ digits, d < u32Bound) ∧ c < u32Bound ∧
      Nat.ofDigits u32Bound (digits ++ [c]) = carry + lo * Nat.ofDigits u32Bound ds := by
  induction ds generalizing carry with
  | nil => exact ⟨[], carry, rfl, rfl, by simp, hcarry, by simp⟩
  | cons d ds ih =>
    rw [forall_mem_cons] at hds
    have hsum : carry + d * lo < u32Bound * u32Bound := by nlinarith [hds.1]
    have hshift : (carry + d * lo) >>> 32 = (carry + d * lo) / u32Bound :=
      shiftRight_eq_div_pow _ 32
    obtain ⟨digits, c, hrun, hlen, hlt, hc, hvalue⟩ :=
      ih hds.2 (Nat.div_lt_of_lt_mul hsum)
    refine ⟨(carry + d * lo) % u32Bound :: digits, c, ?_, by simp [hlen], ?_, hc, ?_⟩
    · rw [mulDigits, checkedU64, if_pos (show _ < u64Bound from hsum), some_bind, hshift, hrun]
      rfl
    · rw [forall_mem_cons]
      exact ⟨mod_lt _ (by decide), hlt⟩
    · rw [cons_append, ofDigits_cons, hvalue, ofDigits_cons, Nat.mul_add,
        ← Nat.add_assoc, mod_add_div]
      ring

theorem addMulDigits_eq {hi : ℕ} (hhi : hi < u32Bound) {ds xs : List ℕ}
    (hlen : xs.length = ds.length) (hds : ∀ d ∈ ds, d < u32Bound) (hxs : ∀ x ∈ xs, x < u32Bound)
    {carry : ℕ} (hcarry : carry < u32Bound) :
    ∃ digits c, addMulDigits hi ds xs carry = some (digits, c) ∧ digits.length = ds.length ∧
      (∀ d ∈ digits, d < u32Bound) ∧ Nat.ofDigits u32Bound (digits ++ [c]) =
        carry + Nat.ofDigits u32Bound xs + hi * Nat.ofDigits u32Bound ds := by
  induction ds generalizing xs carry with
  | nil =>
    obtain rfl := eq_nil_of_length_eq_zero hlen
    exact ⟨[], carry, rfl, rfl, by simp, by simp⟩
  | cons d ds ih =>
    cases xs with
    | nil => cases hlen
    | cons x xs =>
      rw [forall_mem_cons] at hds hxs
      have hsum : carry + d * hi < u32Bound * u32Bound := by nlinarith [hds.1]
      have hshift : (carry + d * hi) >>> 32 = (carry + d * hi) / u32Bound :=
        shiftRight_eq_div_pow _ 32
      -- the word `x` and the sum fit in two limbs together, so the carry bit fits too
      have hsplit : (carry + d * hi) / u32Bound + (x + (carry + d * hi) % u32Bound) / u32Bound =
          (x + (carry + d * hi)) / u32Bound := by
        conv_rhs => rw [← mod_add_div (carry + d * hi) u32Bound, ← Nat.add_assoc,
          add_mul_div_left _ _ (by decide : 0 < u32Bound), Nat.add_comm]
      have hnext : (x + (carry + d * hi)) / u32Bound < u32Bound :=
        Nat.div_lt_of_lt_mul (by nlinarith [hds.1, hxs.1])
      obtain ⟨digits, c, hrun, hlength, hlt, hvalue⟩ :=
        ih (succ_inj.mp hlen) hds.2 hxs.2 hnext
      refine ⟨(x + (carry + d * hi) % u32Bound) % u32Bound :: digits, c, ?_, by simp [hlength], ?_,
        ?_⟩
      · rw [addMulDigits, checkedU64, if_pos (show _ < u64Bound from hsum), some_bind]
        simp only [hshift, hsplit, checkedU32, if_pos hnext, some_bind, hrun]
      · rw [forall_mem_cons]
        exact ⟨mod_lt _ (by decide), hlt⟩
      · rw [cons_append, ofDigits_cons, hvalue, ofDigits_cons, ofDigits_cons,
          add_mod_mod, Nat.mul_add, Nat.mul_add, ← Nat.add_assoc, ← Nat.add_assoc, mod_add_div]
        ring

theorem toBigUint_new (l : U32Array 5) : (new l).toBigUint = max l.value 6000 := by
  obtain ⟨digits, hlen, hlt⟩ := l
  match digits, hlen with
  | [a, b, c, d, e], _ =>
    rw [new]
    simp only [limbsForMinimum, zip_cons_cons, zip_nil_right, all_cons,
      all_nil, Bool.and_true, Bool.and_eq_true, decide_eq_true_eq]
    split
    · simp only [toBigUint, Limbs.value, ofDigits_cons, ofDigits_nil, u32Bound]
      omega
    · simp only [toBigUint, Limbs.value, ofDigits_cons, ofDigits_nil, u32Bound]
      omega

/-- The product is exact up to rounding; what does not fit in the limbs is returned. -/
theorem safeMulFixedPointRational_eq (d : Difficulty) {lo hi : ℕ} (hlo : lo < u32Bound)
    (hhi : hi < u32Bound) :
    ∃ r overflow, ∃ l : U32Array 5, d.safeMulFixedPointRational lo hi = some (r, overflow) ∧
      r.toBigUint = max l.value 6000 ∧
      l.value + 2 ^ 160 * overflow = d.toBigUint * (lo + u32Bound * hi) / u32Bound := by
  obtain ⟨low, c, hlow, hlen, hlt, hc, hvalue⟩ :=
    mulDigits_eq hlo d.limbs.digits_lt (by decide : 0 < u32Bound)
  rw [d.limbs.length_digits] at hlen
  match low, hlen with
  | x :: xs, hlen =>
    rw [forall_mem_cons] at hlt
    have hxs : ∀ y ∈ xs ++ [c], y < u32Bound := by
      rw [forall_mem_append, forall_mem_singleton]
      exact ⟨hlt.2, hc⟩
    have hlen' : (xs ++ [c]).length = d.limbs.digits.length := by
      rw [d.limbs.length_digits, length_append]
      exact hlen
    obtain ⟨digits, overflow, hhigh, hlength, hdigits, hsum⟩ :=
      addMulDigits_eq hhi hlen' d.limbs.digits_lt hxs (by decide : 0 < u32Bound)
    rw [d.limbs.length_digits] at hlength
    have hlist : Limbs.ofList u32Bound 5 digits = some ⟨digits, hlength, hdigits⟩ :=
      dif_pos ⟨hlength, hdigits⟩
    refine ⟨new ⟨digits, hlength, hdigits⟩, overflow, ⟨digits, hlength, hdigits⟩, ?_,
      toBigUint_new _, ?_⟩
    · rw [safeMulFixedPointRational, hlow, some_bind]
      dsimp only
      rw [cons_append, tail_cons, hhigh, some_bind]
      dsimp only
      rw [hlist]
      rfl
    · rw [ofDigits_append, hlength, ofDigits_singleton, Nat.zero_add] at hsum
      rw [cons_append, ofDigits_cons, Nat.zero_add] at hvalue
      -- dropping the lowest limb divides by the base
      have hdrop : ofDigits u32Bound (xs ++ [c]) = lo * d.toBigUint / u32Bound := by
        rw [toBigUint, Limbs.value, ← hvalue, add_mul_div_left _ _ (by decide),
          div_eq_of_lt hlt.1, Nat.zero_add]
      rw [hdrop] at hsum
      refine hsum.trans ?_
      rw [Nat.mul_add, Nat.mul_left_comm, add_mul_div_left _ _ (by decide),
        Nat.mul_comm d.toBigUint lo, Nat.mul_comm d.toBigUint hi]
      rfl

/-- **The product of a difficulty and a factor.**  The limbs and the overflow are the rounded
product, but limbs below the minimum are raised to it. -/
theorem safeMulFixedPointRational_exact (d : Difficulty) (lo hi : Fin u32Bound) :
    ∃ r overflow, d.safeMulFixedPointRational lo hi = some (r, overflow) ∧
      overflow = d.toBigUint * (lo + u32Bound * hi) / u32Bound / 2 ^ 160 ∧ r.toBigUint =
        max (d.toBigUint * (lo + u32Bound * hi) / u32Bound % 2 ^ 160) minimum.toBigUint := by
  obtain ⟨r, overflow, l, hrun, hr, hsum⟩ := d.safeMulFixedPointRational_eq lo.isLt hi.isLt
  have hl : l.value < 2 ^ 160 := l.value_lt (by decide)
  refine ⟨r, overflow, hrun, ?_, ?_⟩
  · rw [← hsum, add_mul_div_left _ _ (by positivity), div_eq_of_lt hl, Nat.zero_add]
  · rw [← hsum, add_mul_mod_self_left, mod_eq_of_lt hl, hr]
    rfl

/-! ## The right shift -/

/-- The loop of `shr`, from the highest limb down. -/
def shrDigits (remainder : ℕ) : List ℕ → ℕ → List ℕ
  | [], _ => []
  | d :: ds, borrow =>
    (d >>> remainder ||| (borrow <<< (32 - remainder)) % u32Bound) ::
      shrDigits remainder ds (d &&& (1 <<< remainder - 1))

/-- `Difficulty >> rhs`. -/
def shr (d : Difficulty) (rhs : ℕ) : Option Difficulty :=
  let array := d.limbs.digits.drop (rhs / 32)
  let array := array ++ replicate (5 - array.length) 0
  let remainder := rhs % 32
  if remainder = 0 then (Limbs.ofList u32Bound 5 array).map new
  else (Limbs.ofList u32Bound 5 (shrDigits remainder array.reverse 0).reverse).map new

theorem shrDigits_eq {r : ℕ} (hr : r < 32) {ds : List ℕ} (hds : ∀ d ∈ ds, d < u32Bound)
    {borrow : ℕ} (hborrow : borrow < 2 ^ r) :
    (shrDigits r ds borrow).length = ds.length ∧ (∀ d ∈ shrDigits r ds borrow, d < u32Bound) ∧
      Nat.ofDigits u32Bound (shrDigits r ds borrow).reverse =
        (Nat.ofDigits u32Bound ds.reverse + u32Bound ^ ds.length * borrow) / 2 ^ r := by
  have hbase : u32Bound = 2 ^ r * 2 ^ (32 - r) := by
    rw [← pow_add, Nat.add_sub_cancel' hr.le]
    rfl
  induction ds generalizing borrow with
  | nil => simp [shrDigits, Nat.div_eq_of_lt hborrow]
  | cons d ds ih =>
    rw [forall_mem_cons] at hds
    have hlow : d &&& (1 <<< r - 1) = d % 2 ^ r := by
      rw [Nat.one_shiftLeft, Nat.and_two_pow_sub_one_eq_mod]
    have hhigh : d / 2 ^ r < 2 ^ (32 - r) := Nat.div_lt_of_lt_mul (hbase ▸ hds.1)
    have hlt : 2 ^ (32 - r) * borrow + d / 2 ^ r < u32Bound := by
      rw [hbase]
      nlinarith
    have hdigit : d >>> r ||| (borrow <<< (32 - r)) % u32Bound =
        2 ^ (32 - r) * borrow + d / 2 ^ r := by
      rw [Nat.shiftRight_eq_div_pow, Nat.shiftLeft_eq, Nat.mul_comm borrow,
        Nat.mod_eq_of_lt ((Nat.le_add_right _ _).trans_lt hlt), Nat.or_comm,
        Nat.two_pow_add_eq_or_of_lt hhigh]
    obtain ⟨hlen, hall, hvalue⟩ := ih hds.2 (Nat.mod_lt d (Nat.two_pow_pos r))
    rw [shrDigits, hlow, hdigit]
    refine ⟨by simp [hlen], forall_mem_cons.mpr ⟨hlt, hall⟩, ?_⟩
    rw [reverse_cons, reverse_cons, Nat.ofDigits_append, Nat.ofDigits_append, hvalue,
      Nat.ofDigits_singleton, Nat.ofDigits_singleton, length_reverse, length_reverse, hlen,
      ← Nat.add_mul_div_left _ _ (Nat.two_pow_pos r)]
    congr 1
    calc _ = Nat.ofDigits u32Bound ds.reverse + u32Bound ^ ds.length * (d % 2 ^ r + 2 ^ r *
            (d / 2 ^ r)) + u32Bound ^ ds.length * (2 ^ r * 2 ^ (32 - r)) * borrow := by ring
      _ = _ := by rw [Nat.mod_add_div, ← hbase, length_cons, pow_succ]

/-- **The right shift** divides by a power of two, but for the minimum. -/
theorem shr_eq (d : Difficulty) (rhs : ℕ) :
    ∃ r, d.shr rhs = some r ∧ r.toBigUint = max (d.toBigUint / 2 ^ rhs) minimum.toBigUint := by
  set dropped := d.limbs.digits.drop (rhs / 32) with hdropped
  set array := dropped ++ replicate (5 - dropped.length) 0 with harray
  have hlen : array.length = 5 := by
    have := d.limbs.length_digits
    simp only [harray, hdropped, length_append, length_replicate, length_drop]
    omega
  have hlt : ∀ x ∈ array, x < u32Bound := by
    rw [harray, forall_mem_append]
    exact ⟨fun x hx => d.limbs.digits_lt x (mem_of_mem_drop hx),
      fun x hx => eq_of_mem_replicate hx ▸ by decide⟩
  have hvalue : ofDigits u32Bound array = d.toBigUint / 2 ^ (32 * (rhs / 32)) := by
    rw [harray, ofDigits_append_replicate_zero, hdropped, pow_mul]
    exact (ofDigits_div_pow_eq_ofDigits_drop _ (by decide) _ d.limbs.digits_lt).symm
  have hnew : ∀ {l : List ℕ}, l.length = 5 → (∀ x ∈ l, x < u32Bound) →
      ofDigits u32Bound l = d.toBigUint / 2 ^ rhs →
      ∃ r, (Limbs.ofList u32Bound 5 l).map new = some r ∧
        r.toBigUint = max (d.toBigUint / 2 ^ rhs) minimum.toBigUint := by
    intro l hl hl' hv
    rw [Limbs.ofList, dif_pos ⟨hl, hl'⟩]
    exact ⟨_, rfl, (toBigUint_new _).trans (congrArg₂ max hv rfl)⟩
  have hpow : d.toBigUint / 2 ^ rhs = ofDigits u32Bound array / 2 ^ (rhs % 32) := by
    rw [hvalue, Nat.div_div_eq_div_mul, ← pow_add, div_add_mod]
  simp only [shr, ← hdropped, ← harray]
  split_ifs with hzero
  · exact hnew hlen hlt (by rw [hpow, hzero, pow_zero, Nat.div_one])
  · obtain ⟨hlength, hall, hshift⟩ := shrDigits_eq (mod_lt rhs (by decide : 0 < 32))
      (by simpa using hlt : ∀ x ∈ array.reverse, x < u32Bound) (Nat.two_pow_pos _)
    refine hnew (by simpa [hlen] using hlength) (by simpa using hall) ?_
    rw [hshift, hpow, reverse_reverse, Nat.mul_zero, Nat.add_zero]

end Difficulty

/-! ## The factor -/

/-- The factor of `difficulty_control`, in units of `2 ^ -32`. -/
def adjustmentFactor (absoluteError : ℤ) (target : ℕ) : ℤ :=
  2 ^ 32 +
    (-max (-2 ^ 32) (min (absoluteError * ((2 ^ 32 : ℤ) / (target : ℕ))) (4 * 2 ^ 32))) >>> (4 : ℕ)

theorem adjustmentFactor_bounds (e : ℤ) (target : ℕ) :
    3 * 2 ^ 30 ≤ adjustmentFactor e target ∧ adjustmentFactor e target ≤ 17 * 2 ^ 28 := by
  rw [adjustmentFactor, Int.shiftRight_eq_div_pow]
  generalize e * ((2 ^ 32 : ℤ) / (target : ℕ)) = x
  omega

theorem adjustmentFactor_anti {e e' : ℤ} (h : e ≤ e') (target : ℕ) :
    adjustmentFactor e' target ≤ adjustmentFactor e target := by
  have hmul : e * ((2 ^ 32 : ℤ) / (target : ℕ)) ≤ e' * ((2 ^ 32 : ℤ) / (target : ℕ)) :=
    mul_le_mul_of_nonneg_right h (Int.ediv_nonneg (by decide) (by omega))
  rw [adjustmentFactor, adjustmentFactor, Int.shiftRight_eq_div_pow, Int.shiftRight_eq_div_pow]
  generalize e * ((2 ^ 32 : ℤ) / (target : ℕ)) = x at hmul ⊢
  generalize e' * ((2 ^ 32 : ℤ) / (target : ℕ)) = y at hmul ⊢
  omega

/-! ## The controller -/

section
variable {newTimestamp oldTimestamp target : Timestamp} {d : Difficulty} {height : BlockHeight}

/-- The new difficulty is the rounded product, within the bounds of a difficulty. -/
theorem difficultyControl_eq (hheight : height.isGenesis = false) (htarget : target.value ≠ 0)
    {e : ℤ} (he : checkedI64 (wrapI64 (newTimestamp - oldTimestamp).value -
      wrapI64 target.value) = some e) :
    ∃ r, difficultyControl newTimestamp oldTimestamp d target height = some r ∧
      r.toBigUint = max (min (d.toBigUint * (adjustmentFactor e target.value).toNat / u32Bound)
        (2 ^ 160 - 1)) 6000 := by
  obtain ⟨hlow, hhigh⟩ := adjustmentFactor_bounds e target.value
  set f := adjustmentFactor e target.value with hf
  have hlo : (f % 2 ^ 32).toNat < u32Bound := by
    rw [u32Bound]
    omega
  have hhi : ((f >>> (32 : ℕ)) % 2 ^ 32).toNat < u32Bound := by
    rw [u32Bound]
    omega
  obtain ⟨r, overflow, l, hmul, hr, hvalue⟩ := d.safeMulFixedPointRational_eq hlo hhi
  have hfactor : (f % 2 ^ 32).toNat + u32Bound * ((f >>> (32 : ℕ)) % 2 ^ 32).toNat = f.toNat := by
    rw [Int.shiftRight_eq_div_pow, u32Bound]
    omega
  rw [hfactor] at hvalue
  have hl : l.value < 2 ^ 160 := l.value_lt (by decide)
  refine ⟨if 0 < overflow then .maximum else r, ?_, ?_⟩
  · have hnot : ¬ height.isGenesis = true := by rw [hheight]; decide
    rw [difficultyControl, if_neg hnot]
    change Option.bind (checkedI64 (wrapI64 (newTimestamp - oldTimestamp).value - _)) _ = _
    rw [he, Option.bind_some, if_neg htarget]
    change Option.bind (d.safeMulFixedPointRational (f % 2 ^ 32).toNat
      ((f >>> (32 : ℕ)) % 2 ^ 32).toNat) _ = _
    rw [hmul]
    rfl
  · rw [← hvalue]
    split
    · have hmax : Difficulty.maximum.toBigUint = 2 ^ 160 - 1 := by decide
      rw [hmax]
      omega
    · rw [hr]
      omega

theorem val_sub_of_le {a b : Timestamp} (h : b ≤ a) :
    (a - b).value.val = a.value.val - b.value.val := Fin.sub_val_of_le h

/-- **The adjustment is bounded and falls with the block time**, as long as the distance from the
target fits in an `i64`. -/
theorem difficultyControl_bounded {laterTimestamp : Timestamp}
    (hd : Difficulty.minimum.toBigUint ≤ d.toBigUint) (hnew : oldTimestamp ≤ newTimestamp)
    (hlater : newTimestamp ≤ laterTimestamp)
    (hnear : laterTimestamp.value.val - oldTimestamp.value.val < 2 ^ 63)
    (htarget : target.value ≠ 0) (hfits : target.value.val < 2 ^ 63 ∨
      laterTimestamp.value.val - oldTimestamp.value.val + 2 ^ 63 < target.value.val) :
    ∃ r r', difficultyControl newTimestamp oldTimestamp d target height = some r ∧
      difficultyControl laterTimestamp oldTimestamp d target height = some r' ∧
      Difficulty.minimum.toBigUint ≤ r.toBigUint ∧ 3 * d.toBigUint / 4 ≤ r.toBigUint ∧
      r.toBigUint ≤ min (17 * d.toBigUint / 16) Difficulty.maximum.toBigUint ∧
      r'.toBigUint ≤ r.toBigUint := by
  have hmin : Difficulty.minimum.toBigUint = 6000 := by decide
  have hmax : Difficulty.maximum.toBigUint = 2 ^ 160 - 1 := by decide
  have hlt : d.toBigUint < 2 ^ 160 := d.limbs.value_lt (by decide)
  rw [hmin] at hd ⊢
  rw [hmax]
  by_cases hheight : height.isGenesis = true
  · have hsame : ∀ t, difficultyControl t oldTimestamp d target height = some d :=
      fun _ => if_pos hheight
    exact ⟨d, d, hsame _, hsame _, hd, by omega, by omega, le_rfl⟩
  · have hle : newTimestamp.value.val ≤ laterTimestamp.value.val := hlater
    have herror : ∀ t : Timestamp, oldTimestamp ≤ t → t ≤ laterTimestamp → ∃ e,
        checkedI64 (wrapI64 (t - oldTimestamp).value - wrapI64 target.value) = some e ∧
        e = (t.value.val - oldTimestamp.value.val : ℕ) - wrapI64 target.value := by
      intro t ht htl
      have htl' : t.value.val ≤ laterTimestamp.value.val := htl
      have htarget' : target.value.val < 2 ^ 64 := target.value.isLt.trans (by decide)
      rw [val_sub_of_le ht, wrapI64, if_pos (by omega)]
      refine ⟨_, if_pos ?_, rfl⟩
      rw [wrapI64]
      split <;> omega
    obtain ⟨e, he, rfl⟩ := herror newTimestamp hnew hlater
    obtain ⟨e', he', rfl⟩ := herror laterTimestamp (Fin.le_trans hnew hlater)
      (Fin.le_refl _)
    obtain ⟨r, hr, hvalue⟩ := difficultyControl_eq (d := d) (by simpa using hheight) htarget he
    obtain ⟨r', hr', hvalue'⟩ := difficultyControl_eq (d := d) (by simpa using hheight) htarget he'
    refine ⟨r, r', hr, hr', ?_⟩
    set e := ((newTimestamp.value.val - oldTimestamp.value.val : ℕ) : ℤ) - wrapI64 target.value
    set e' := ((laterTimestamp.value.val - oldTimestamp.value.val : ℕ) : ℤ) - wrapI64 target.value
    obtain ⟨hlow, hhigh⟩ := adjustmentFactor_bounds e target.value
    have hanti := adjustmentFactor_anti (show e ≤ e' by omega) target.value
    have hlow' : d.toBigUint * (3 * 2 ^ 30) / u32Bound ≤
        d.toBigUint * (adjustmentFactor e target.value).toNat / u32Bound :=
      Nat.div_le_div_right (Nat.mul_le_mul_left _ (by omega))
    have hhigh' : d.toBigUint * (adjustmentFactor e target.value).toNat / u32Bound ≤
        d.toBigUint * (17 * 2 ^ 28) / u32Bound :=
      Nat.div_le_div_right (Nat.mul_le_mul_left _ (by omega))
    have hanti' : d.toBigUint * (adjustmentFactor e' target.value).toNat / u32Bound ≤
        d.toBigUint * (adjustmentFactor e target.value).toNat / u32Bound :=
      Nat.div_le_div_right (Nat.mul_le_mul_left _ (toNat_le_toNat hanti))
    rw [hvalue, hvalue']
    rw [u32Bound] at *
    omega

theorem difficultyControl_bounded_minutes :
    ∃ r r', difficultyControl (.minutes 1) (.minutes 0) .minimum (.minutes 10) ⟨1⟩ = some r ∧
      difficultyControl (.minutes 5) (.minutes 0) .minimum (.minutes 10) ⟨1⟩ = some r' ∧
      Difficulty.minimum.toBigUint ≤ r.toBigUint ∧
      3 * Difficulty.minimum.toBigUint / 4 ≤ r.toBigUint ∧
      r.toBigUint ≤ min (17 * Difficulty.minimum.toBigUint / 16) Difficulty.maximum.toBigUint ∧
      r'.toBigUint ≤ r.toBigUint :=
  difficultyControl_bounded (by decide) (by decide) (by decide) (by decide) (by decide)
    (.inl (by decide))

/-- A target of `2 ^ 63` milliseconds is negative as an `i64`. -/
theorem difficultyControl_overflows :
    difficultyControl ⟨.new (2 ^ 62)⟩ ⟨0⟩ .minimum ⟨.new (2 ^ 63)⟩ ⟨1⟩ = none := by
  decide

end

end NyksNode
