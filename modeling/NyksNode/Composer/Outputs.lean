import NyksNode.Lib.Binary64
import NyksNode.Wallet.Output

/-!
# The outputs of a coinbase transaction

The composer leaves a fraction of the block subsidy to the guesser, and divides the rest between
a liquid and a timelocked output.  Fractions are lossy, so the liquid output is corrected by what
is left over.
-/

namespace NyksNode

/-! ## Fractions of amounts -/

namespace NativeCurrencyAmount

def scalarMul (a : NativeCurrencyAmount) (factor : ℕ) : Option NativeCurrencyAmount :=
  checkedI128 (a.nau * factor)

/-- `lossy_f64_fraction_mul` of an amount that is not negative. -/
def lossyFractionOf (a : NativeCurrencyAmount) (fraction : Binary64) : NativeCurrencyAmount :=
  if fraction.isEq (.ofNat 1) then a
  else
    match (Binary64.mul fraction (.ofInt a.nau)).toNat with
    | some i => ⟨max 0 (min i a.nau)⟩
    | none => zero

/-- `lossy_f64_fraction_mul`.  The fraction of a negative amount is that of its absolute value. -/
def lossyF64FractionMul (a : NativeCurrencyAmount) (fraction : Binary64) :
    Option NativeCurrencyAmount :=
  if (Binary64.ofNat 0).le fraction && fraction.le (.ofNat 1) then
    if a.isNegative then a.neg.map (·.lossyFractionOf fraction)
    else some (a.lossyFractionOf fraction)
  else none

end NativeCurrencyAmount

theorem Block.isNegative_blockSubsidy (height : BlockHeight) :
    (blockSubsidy height).isNegative = false := by
  have hcoins : ∀ n, (NativeCurrencyAmount.coins n).isNegative = false := by
    intro n
    rw [NativeCurrencyAmount.isNegative_eq_false_iff]
    exact Int.mul_nonneg (by decide) (Int.natCast_nonneg n)
  rw [blockSubsidy]
  cases blockSubsidyByGeneration[height.getGeneration]? with
  | none => exact hcoins 256
  | some n => exact hcoins n

/-! ## Corrections -/

namespace TxOutput
variable {D : Type}

def addToAmount (o : TxOutput D) (delta : NativeCurrencyAmount) : Option (TxOutput D) := do
  let amount ← o.amount.add delta
  some { o with amount := amount }

def totalNativeCoins (outputs : List (TxOutput D)) : Option NativeCurrencyAmount :=
  NativeCurrencyAmount.sum (outputs.map (·.amount))

/-- Correct the first liquid output, of which there must be one. -/
def correctFirstLiquid (delta : NativeCurrencyAmount) :
    List (TxOutput D) → Option (List (TxOutput D))
  | [] => none
  | o :: outputs =>
    if o.isTimelocked then (correctFirstLiquid delta outputs).map (o :: ·)
    else (o.addToAmount delta).map (· :: outputs)

end TxOutput

/-! ## The distribution of the coinbase -/

structure CoinbaseOutput (D : Type) where
  fractionInPromille : ℕ
  recipient : Address D
  timelocked : Bool
  deriving DecidableEq, Repr

namespace CoinbaseDistribution
variable {D : Type}

def tryNew (outputs : List (CoinbaseOutput D)) : Except String (List (CoinbaseOutput D)) :=
  if 1000 ≠ (outputs.map (·.fractionInPromille)).sum then
    .error "Output fractions must sum to 1000 ‰."
  else if ((outputs.filter (·.timelocked)).map (·.fractionInPromille)).sum < 500 then
    .error "At least half of output must be timelocked."
  else if outputs.all (·.timelocked) then .error "At least one output must be liquid"
  else .ok outputs

/-- `solo`: half is liquid and half is timelocked. -/
def solo (rewardAddress : Address D) : Option (List (CoinbaseOutput D)) :=
  (tryNew [⟨500, rewardAddress, false⟩, ⟨500, rewardAddress, true⟩]).toOption

end CoinbaseDistribution

def miningRewardTimeLockPeriod : Timestamp := ⟨.new (365240 * 2 * 60 * 60)⟩

/-- The arguments of the composer that a block depends on. -/
structure Args (D : Type) where
  address : Address D
  network : Network
  guesserFeeFraction : Binary64

namespace Args
variable {D : Type}

/-- One round of the loop over the distribution: the outputs, and what they distribute. -/
def distribute (senderRandomness : D) (totalComposerAmount : NativeCurrencyAmount)
    (timestamp : Timestamp) (x : List (TxOutput D) × NativeCurrencyAmount)
    (o : CoinbaseOutput D) : Option (List (TxOutput D) × NativeCurrencyAmount) := do
  let product ← totalComposerAmount.scalarMul o.fractionInPromille
  let amount : NativeCurrencyAmount := ⟨product.nau.tdiv 1000⟩
  let distributed ← x.2.add amount
  let releaseDate :=
    if o.timelocked then some (timestamp + miningRewardTimeLockPeriod + .minutes 30) else none
  some (x.1 ++ [⟨amount, releaseDate, senderRandomness, o.recipient⟩], distributed)

/-- What the liquid output is corrected by. -/
def correction (totalComposerAmount distributed : NativeCurrencyAmount) :
    Option NativeCurrencyAmount :=
  if distributed < totalComposerAmount then totalComposerAmount.checkedSub distributed
  else (distributed.checkedSub totalComposerAmount).bind NativeCurrencyAmount.neg

def txOutputs (args : Args D) (senderRandomness : D) (coinbaseAmount : NativeCurrencyAmount)
    (timestamp : Timestamp) : Option (List (TxOutput D)) := do
  let guesserFee ← coinbaseAmount.lossyF64FractionMul args.guesserFeeFraction
  let totalComposerAmount ← coinbaseAmount.checkedSub guesserFee
  if totalComposerAmount.isZero then some []
  else do
    let coinbaseDistribution ← CoinbaseDistribution.solo args.address
    let (ret, distributed) ← coinbaseDistribution.foldlM
      (distribute senderRandomness totalComposerAmount timestamp) ([], .zero)
    let delta ← correction totalComposerAmount distributed
    TxOutput.correctFirstLiquid delta ret

/-! ## The two halves -/

open NativeCurrencyAmount

section
variable {args : Args D} {senderRandomness : D} {coinbaseAmount fee : NativeCurrencyAmount}
  {timestamp : Timestamp}
  (hfee : coinbaseAmount.lossyF64FractionMul args.guesserFeeFraction = some fee)
  (hnonneg : 0 ≤ fee.nau) (hlt : fee.nau < coinbaseAmount.nau)
include hfee hnonneg hlt

/-- The rounding error goes to the liquid output. -/
theorem txOutputs_eq {n : ℤ} (hn : n = coinbaseAmount.nau - fee.nau) :
    args.txOutputs senderRandomness coinbaseAmount timestamp = if n * 500 < 2 ^ 127 then
        some [⟨⟨n - n / 2⟩, none, senderRandomness, args.address⟩,
          ⟨⟨n / 2⟩, some (timestamp + miningRewardTimeLockPeriod + .minutes 30), senderRandomness,
            args.address⟩] else none := by
  have htotal : coinbaseAmount.checkedSub fee = some ⟨n⟩ := by
    rw [checkedSub, if_pos (by simp [isNegative]; omega), hn]
  have hsolo : CoinbaseDistribution.solo args.address =
      some [⟨500, args.address, false⟩, ⟨500, args.address, true⟩] := by
    simp [CoinbaseDistribution.solo, CoinbaseDistribution.tryNew, Except.toOption]
  have hzero : isZero ⟨n⟩ = false := decide_eq_false (show ¬ n = 0 by omega)
  split_ifs with hfits
  · have hi128 : ∀ m : ℤ, 0 ≤ m → m ≤ n → checkedI128 m = some ⟨m⟩ := fun m h h' =>
      if_pos ⟨by omega, by omega⟩
    have hproduct : scalarMul ⟨n⟩ 500 = some ⟨n * 500⟩ :=
      if_pos ⟨show _ ≤ n * 500 by omega, hfits⟩
    have hdiv : (n * 500).tdiv 1000 = n / 2 := by
      rw [Int.tdiv_eq_ediv_of_nonneg (by omega)]
      omega
    have hcorrection : correction ⟨n⟩ ⟨n / 2 + n / 2⟩ = some ⟨n - n / 2 - n / 2⟩ := by
      by_cases hodd : (⟨n / 2 + n / 2⟩ : NativeCurrencyAmount) < ⟨n⟩
      · rw [correction, if_pos hodd, checkedSub, if_pos (by simp [isNegative]; omega), Int.sub_sub]
      · have heven : n / 2 + n / 2 = n := by
          have hge : n ≤ n / 2 + n / 2 := not_lt.mp hodd
          omega
        rw [correction, if_neg hodd, heven, checkedSub, if_pos (by simp [isNegative]; omega),
          Int.sub_sub, heven, Int.sub_self]
        rfl
    have hliquid : n / 2 + (n - n / 2 - n / 2) = n - n / 2 := by omega
    simp [txOutputs, hfee, htotal, hzero, hsolo, distribute, hproduct, hdiv, add, zero,
      hi128 (n / 2) (by omega) (by omega), hi128 (n / 2 + n / 2) (by omega) (by omega),
      hcorrection, TxOutput.correctFirstLiquid, TxOutput.isTimelocked, TxOutput.addToAmount,
      hliquid, hi128 (n - n / 2) (by omega) (by omega)]
  · have hproduct : scalarMul ⟨n⟩ 500 = none := if_neg fun h => hfits h.2
    simp [txOutputs, hfee, htotal, hzero, hsolo, distribute, hproduct]

/-- **When composer rewards are split safely.**  The time-locked half is not the smaller one only if
the remainder is even; the shares are computed only if their product with 500 is in range. -/
theorem txOutputs_safe_iff :
    (∃ outputs, args.txOutputs senderRandomness coinbaseAmount timestamp = some outputs ∧
        (outputs.map (·.amount.nau)).sum = coinbaseAmount.nau - fee.nau ∧
        (∀ o ∈ outputs, 0 ≤ o.amount.nau) ∧
        ((outputs.filter (!·.isTimelocked)).map (·.amount.nau)).sum ≤
          ((outputs.filter (·.isTimelocked)).map (·.amount.nau)).sum) ↔
      Even (coinbaseAmount.nau - fee.nau) ∧ (coinbaseAmount.nau - fee.nau) * 500 < 2 ^ 127 := by
  rw [txOutputs_eq hfee hnonneg hlt rfl, Int.even_iff]
  split_ifs with hfits
  · simp [TxOutput.isTimelocked]
    omega
  · simp
    omega

end

/-- A coinbase of three: two are liquid, and one is timelocked. -/
theorem txOutputs_favors_liquid : ((⟨⟨0, 0⟩, .main, .ofNat 0⟩ : Args ℕ).txOutputs 0 ⟨3⟩ ⟨0⟩).map
      (·.map fun o => (o.amount.nau, o.isTimelocked)) = some [(2, false), (1, true)] := by
  decide +kernel

theorem txOutputs_safe_two : ∃ outputs,
    (⟨⟨0, 0⟩, .main, .ofNat 0⟩ : Args ℕ).txOutputs 0 ⟨2⟩ ⟨0⟩ = some outputs ∧
      (outputs.map (·.amount.nau)).sum = 2 ∧ (∀ o ∈ outputs, 0 ≤ o.amount.nau) ∧
      ((outputs.filter (!·.isTimelocked)).map (·.amount.nau)).sum ≤
        ((outputs.filter (·.isTimelocked)).map (·.amount.nau)).sum :=
  (@txOutputs_safe_iff _ _ _ _ ⟨0⟩ _ (by decide +kernel) (by decide) (by decide)).mpr (by decide)

end Args

end NyksNode
