import NyksNode.Lib.Binary64
import NyksNode.Block.Difficulty

/-!
# How fast work can accumulate

An upper bound for the work that a chain can have accumulated after some blocks, if all of them
come at the highest speed.  It is computed with floating-point numbers.
-/

namespace NyksNode

open Binary64

namespace ProofOfWork

def maximum : ProofOfWork := ⟨⟨List.replicate 6 (u32Bound - 1), by simp, by decide⟩⟩

def ofBigUint (n : ℕ) : ProofOfWork where
  limbs :=
    { digits := (List.range 6).map fun i => n / u32Bound ^ i % u32Bound
      length_digits := by simp
      digits_lt := by
        intro d hd
        obtain ⟨i, -, rfl⟩ := List.mem_map.mp hd
        exact Nat.mod_lt _ (by decide) }

/-- `try_from` a floating-point number.  Numbers with more than six limbs become the maximum. -/
def tryFromF64 : Binary64 → Except String ProofOfWork
  | .nan => .error "cannot convert NaN to ProofOfWork value"
  | .infinity negative => .ok (if negative then zero else maximum)
  | .finite q _ =>
    if q < 0 then .ok zero
    else .ok (if 2 ^ 192 ≤ ⌊q⌋₊ then maximum else ofBigUint ⌊q⌋₊)

end ProofOfWork

def epsilon : Binary64 := .round (1 / 1000000)

def maxAdjustment (targetBlockInterval minimumBlockTime : Timestamp) : Option Binary64 :=
  if minimumBlockTime ≤ targetBlockInterval then
    some (((ofNat 1).add (((ofNat (targetBlockInterval.value.val - minimumBlockTime.value.val)).div
      (ofNat targetBlockInterval.value.val)).div (ofNat 16))).add epsilon)
  else none

/-- The loop of `max_cumulative_pow_after`.  No result means that the maximum is reached. -/
def maxPowLoop (f cap : Binary64) : ℕ → Binary64 → Binary64 → Option Binary64
  | 0, _, maxCumpow => some maxCumpow
  | n + 1, maxDifficulty, maxCumpow =>
    let maxDifficulty := maxDifficulty.mul f
    let maxCumpow := maxCumpow.add maxDifficulty
    if cap.le maxCumpow then none else maxPowLoop f cap n maxDifficulty maxCumpow

def maxCumulativePowAfter (cumulativePowStart : ProofOfWork) (difficultyStart : Difficulty)
    (numBlocks : ℕ) (targetBlockInterval minimumBlockTime : Timestamp) : Option ProofOfWork := do
  let f ← maxAdjustment targetBlockInterval minimumBlockTime
  let maxDifficulty := ofNat difficultyStart.toBigUint
  let maxCumpow := (ofNat cumulativePowStart.toBigUint).mul ((ofNat 1).add epsilon)
  let cap := ofNat ProofOfWork.maximum.toBigUint
  match maxPowLoop f cap numBlocks maxDifficulty maxCumpow with
  | none => some .maximum
  | some maxCumpow => (ProofOfWork.tryFromF64 maxCumpow).toOption

/-! ## It never fails -/

theorem ProofOfWork.exists_tryFromF64 {x : Binary64} (hx : x.IsNonneg) :
    ∃ p, (tryFromF64 x).toOption = some p := by
  cases x with
  | finite q hq =>
    rw [tryFromF64, if_neg (not_lt.mpr hx)]
    exact ⟨_, rfl⟩
  | infinity negative => exact ⟨_, rfl⟩
  | nan => exact hx.elim

theorem maxPowLoop_isNonneg {f cap maxDifficulty maxCumpow x : Binary64} {a b : ℚ}
    (hf : Within a b f) (ha : 0 < a) {n : ℕ} (hdifficulty : maxDifficulty.IsNonneg)
    (hcumpow : maxCumpow.IsNonneg) (hx : maxPowLoop f cap n maxDifficulty maxCumpow = some x) :
    x.IsNonneg := by
  induction n generalizing maxDifficulty maxCumpow with
  | zero =>
    cases hx
    exact hcumpow
  | succ n ih =>
    simp only [maxPowLoop] at hx
    split at hx
    · cases hx
    · have hnext := hdifficulty.mul hf ha
      exact ih hnext (hcumpow.add hnext) hx

theorem within_epsilon : Within (1 / 2000000) (1 / 500000) epsilon := by
  refine (within_round (a := 1 / 1000000) (b := 1 / 1000000) ?_ ?_ le_rfl le_rfl).mono ?_ ?_
  all_goals norm_num

section
variable {targetBlockInterval minimumBlockTime : Timestamp}
  (hlt : minimumBlockTime < targetBlockInterval)
include hlt

/-- Adjustments are positive and finite if blocks may come faster than they should. -/
theorem exists_maxAdjustment : ∃ f, maxAdjustment targetBlockInterval minimumBlockTime = some f ∧
      Within (1 / 16) (2 ^ 100) f := by
  have hlt' : minimumBlockTime.value.val < targetBlockInterval.value.val := hlt
  have hbound : targetBlockInterval.value.val ≤ 2 ^ 64 :=
    targetBlockInterval.value.isLt.le.trans (by decide)
  have hle : minimumBlockTime ≤ targetBlockInterval := le_of_lt hlt'
  refine ⟨_, if_pos hle, ?_⟩
  have hdifference := within_ofNat (n := targetBlockInterval.value.val - minimumBlockTime.value.val)
    (b := 2 ^ 64) (by omega) (by omega) (by norm_num)
  have htarget := within_ofNat (n := targetBlockInterval.value.val) (b := 2 ^ 64) (by omega) hbound
    (by norm_num)
  have hsixteen := within_ofNat (n := 16) (b := 16) (by norm_num) le_rfl (by norm_num)
  have hone := within_ofNat (n := 1) (b := 1) le_rfl le_rfl (by norm_num)
  have hquotient := hdifference.div htarget (by norm_num) (by norm_num) (by norm_num) (by norm_num)
  have herror := hquotient.div hsixteen (by norm_num) (by norm_num) (by norm_num) (by norm_num)
  have hsum := hone.add herror (by norm_num) (by norm_num)
  exact (hsum.add within_epsilon (by norm_num) (by norm_num)).mono (by norm_num) (by norm_num)

/-- **The bound can always be computed.** -/
theorem exists_maxCumulativePowAfter (cumulativePowStart : ProofOfWork)
    (difficultyStart : Difficulty) (numBlocks : ℕ) :
    ∃ p, maxCumulativePowAfter cumulativePowStart difficultyStart numBlocks targetBlockInterval
      minimumBlockTime = some p := by
  obtain ⟨f, hf, hwithin⟩ := exists_maxAdjustment hlt
  have hone := within_ofNat (n := 1) (b := 1) le_rfl le_rfl (by norm_num)
  have hfactor := hone.add within_epsilon (by norm_num) (by norm_num)
  have hstart := (isNonneg_ofNat cumulativePowStart.toBigUint).mul hfactor (by norm_num)
  rw [maxCumulativePowAfter, hf, Option.bind_eq_bind, Option.bind_some]
  cases hloop : maxPowLoop f (ofNat ProofOfWork.maximum.toBigUint) numBlocks
      (ofNat difficultyStart.toBigUint)
      ((ofNat cumulativePowStart.toBigUint).mul ((ofNat 1).add epsilon)) with
  | none =>
    simp only [hloop]
    exact ⟨_, rfl⟩
  | some x =>
    simp only [hloop]
    exact ProofOfWork.exists_tryFromF64 (maxPowLoop_isNonneg hwithin (by norm_num)
      (isNonneg_ofNat _) hstart hloop)

end

theorem Network.minimumBlockTime_lt (network : Network) :
    network.minimumBlockTime < network.targetBlockInterval := by
  cases network with
  | testnet i => exact (by decide : Timestamp.seconds 60 < .millis 384000)
  | _ => decide

end NyksNode
