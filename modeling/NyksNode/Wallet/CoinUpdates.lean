import NyksNode.Wallet.UtxoPool

/-!
# Changes to the coins of a UTXO

Reading an amount or a release date takes all coins of a UTXO into account, while the functions
that change a UTXO write one coin.
-/

namespace NyksNode.Utxo

open List NativeCurrencyAmount

variable {D : Type} [DecidableEq D] [ConsensusOps D]

/-! ## Amounts -/

def isNative (c : Coin D) : Bool := c.typeScriptHash = ConsensusOps.nativeCurrencyHash

def newNativeCurrency (amount : NativeCurrencyAmount) : Coin D :=
  ⟨ConsensusOps.nativeCurrencyHash, ConsensusOps.encodeAmount D amount⟩

/-- Replace the first coin of the native currency, or add one. -/
def setNative (coins : List (Coin D)) (coin : Coin D) : List (Coin D) :=
  match coins.findIdx? isNative with
  | some i => coins.set i coin
  | none => coins ++ [coin]

theorem isNative_newNativeCurrency (a : NativeCurrencyAmount) :
    isNative (newNativeCurrency a : Coin D) = true := by
  simp [isNative, newNativeCurrency]

theorem setNative_cons (c coin : Coin D) (coins : List (Coin D)) : setNative (c :: coins) coin =
      if isNative c then coin :: coins else c :: setNative coins coin := by
  unfold setNative
  rw [findIdx?_cons]
  split_ifs with hc
  · rfl
  · cases coins.findIdx? isNative <;> rfl

theorem filter_not_setNative {coin : Coin D} (hcoin : isNative coin = true)
    (coins : List (Coin D)) :
    (setNative coins coin).filter (!isNative ·) = coins.filter (!isNative ·) := by
  induction coins with
  | nil => simp [setNative, hcoin]
  | cons c coins ih =>
    rw [setNative_cons]
    split_ifs with hc
    · simp [hc, hcoin]
    · simp [hc, ih]

variable [CoinOps D]

def addToAmount (u : Utxo D) (delta : NativeCurrencyAmount) : Option (Utxo D) := do
  let current ← u.getNativeCurrencyAmount
  let amount ← current.add delta
  some { u with coins := setNative u.coins (newNativeCurrency amount) }

def amounts (coins : List (Coin D)) : List NativeCurrencyAmount :=
  (coins.filter isNative).map fun c => (CoinOps.decodeAmount D c.state).getD .zero

theorem amounts_setNative {a : NativeCurrencyAmount}
    (hcodec : CoinOps.decodeAmount D (ConsensusOps.encodeAmount D a) = some a)
    (coins : List (Coin D)) :
    amounts (setNative coins (newNativeCurrency a)) = a :: (amounts coins).tail := by
  have hcoin := isNative_newNativeCurrency (D := D) a
  have hstate : CoinOps.decodeAmount D (newNativeCurrency a : Coin D).state = some a := hcodec
  induction coins with
  | nil => simp [setNative, amounts, hcoin, hstate]
  | cons c coins ih =>
    rw [setNative_cons]
    split_ifs with hc
    · simp [amounts, hc, hcoin, hstate]
    · simpa [amounts, hc] using ih

/-- **When an amount is added exactly.**  The first coin of the native currency gets the amount of
all of them, so the others must not change it when they are added again. -/
theorem addToAmount_exact_iff (u : Utxo D) {total delta amount : NativeCurrencyAmount}
    (htotal : u.getNativeCurrencyAmount = some total) (hamount : total.add delta = some amount)
    (hcodec : CoinOps.decodeAmount D (ConsensusOps.encodeAmount D amount) = some amount) :
    (∃ u', u.addToAmount delta = some u' ∧ u'.getNativeCurrencyAmount = some amount ∧
        u'.coins.filter (!isNative ·) = u.coins.filter (!isNative ·)) ↔
      (amounts u.coins).tail.foldlM add amount = some amount := by
  have hadd : u.addToAmount delta =
      some { u with coins := setNative u.coins (newNativeCurrency amount) } := by
    simp [addToAmount, htotal, hamount]
  have hzero : add zero amount = some amount := by
    rw [add, checkedI128, Option.ite_none_right_eq_some] at hamount
    have hnau : zero.nau + amount.nau = total.nau + delta.nau :=
      (zero_add _).trans (congrArg nau (Option.some_inj.mp hamount.2)).symm
    rw [add, checkedI128, hnau, if_pos hamount.1, hamount.2]
  have hsum : getNativeCurrencyAmount
      { u with coins := setNative u.coins (newNativeCurrency amount) } =
        (amounts u.coins).tail.foldlM add amount := by
    change sum (amounts (setNative u.coins _)) = _
    rw [amounts_setNative hcodec, NativeCurrencyAmount.sum, foldlM_cons, hzero]
    rfl
  simp only [hadd, Option.some.injEq, exists_eq_left', hsum,
    filter_not_setNative (isNative_newNativeCurrency _), and_true]

theorem addToAmount_exact_once :
    ∃ u', addToAmount (⟨.zero, [newNativeCurrency ⟨3⟩]⟩ : Utxo SymbolicDigest) ⟨1⟩ = some u' ∧
      u'.getNativeCurrencyAmount = some ⟨4⟩ ∧ u'.coins.filter (!isNative ·) = [] :=
  (addToAmount_exact_iff (⟨.zero, [newNativeCurrency ⟨3⟩]⟩ : Utxo SymbolicDigest)
    (show _ = some ⟨3⟩ by decide +kernel) (show _ = some ⟨4⟩ by decide +kernel)
    (by decide +kernel)).mpr (by decide +kernel)

/-- With two native coins, the addition is made to both. -/
theorem addToAmount_counts_twice :
    let u : Utxo SymbolicDigest := ⟨.zero, [newNativeCurrency ⟨3⟩, newNativeCurrency ⟨4⟩]⟩
    u.getNativeCurrencyAmount = some ⟨7⟩ ∧
      (u.addToAmount ⟨1⟩).bind getNativeCurrencyAmount = some ⟨12⟩ := by
  decide +kernel

/-! ## Time locks -/

section
variable [WalletOps D]

def isTimeLock (c : Coin D) : Bool := c.typeScriptHash = WalletOps.timeLockHash

def timeLockUntil (date : Timestamp) : Coin D := ⟨WalletOps.timeLockHash, [date.value]⟩

def coinReleaseDate (c : Coin D) : Option Timestamp :=
  if isTimeLock c then Timestamp.decode c.state else none

def releaseDate (u : Utxo D) : Option Timestamp := u.coins.findSome? coinReleaseDate

def withTimeLock (u : Utxo D) (date : Timestamp) : Utxo D :=
  if u.releaseDate.any (fun x => date ≤ x) then u
  else { u with coins := u.coins.filter (!isTimeLock ·) ++ [timeLockUntil date] }

/-- The coins other than time locks are valid. -/
def OthersValid (u : Utxo D) : Prop :=
  ∀ c ∈ u.coins, isTimeLock c = false → isKnownTypeScriptWithValidState c = true

/-- All time locks are over at a time. -/
def Released (u : Utxo D) (p : Timestamp → Prop) : Prop :=
  ∀ c ∈ u.coins, isTimeLock c = true → ∃ date, Timestamp.decode c.state = some date ∧ p date

variable {u : Utxo D} {date timestamp : Timestamp}

omit [DecidableEq D] [ConsensusOps D] [CoinOps D] [WalletOps D] in
theorem isReleased_iff (c : Coin D) : (match Timestamp.decode c.state with
    | some release => decide ¬ timestamp.value.val ≤ release.value.val
    | none => false) = true ↔ ∃ date, Timestamp.decode c.state = some date ∧ date < timestamp := by
  cases Timestamp.decode c.state with
  | none => simp
  | some release =>
    simp
    rfl

theorem canSpendAt_iff :
    u.canSpendAt timestamp = true ↔ u.OthersValid ∧ u.Released (· < timestamp) := by
  simp only [canSpendAt, Bool.and_eq_true, all_eq_true, mem_filter, decide_eq_true_eq, and_imp]
  constructor
  · rintro ⟨hvalid, hreleased⟩
    exact ⟨fun c hc _ => hvalid c hc,
      fun c hc h => (isReleased_iff c).mp (hreleased c hc (of_decide_eq_true h))⟩
  · rintro ⟨hvalid, hreleased⟩
    refine ⟨fun c hc => ?_,
      fun c hc h => (isReleased_iff c).mpr (hreleased c hc (decide_eq_true h))⟩
    cases h : isTimeLock c with
    | false => exact hvalid c hc h
    | true =>
      obtain ⟨date, hdate, -⟩ := hreleased c hc h
      simp [isKnownTypeScriptWithValidState, hdate, of_decide_eq_true h]

/-- After a change, only the new time lock counts. -/
theorem canSpendAt_withTimeLock_iff (h : ¬ u.releaseDate.any (fun x => date ≤ x) = true) :
    (u.withTimeLock date).canSpendAt timestamp = true ↔ u.OthersValid ∧ date < timestamp := by
  have hnew : isTimeLock (timeLockUntil date : Coin D) = true := by
    simp [isTimeLock, timeLockUntil]
  have hdate : Timestamp.decode (timeLockUntil date : Coin D).state = some date := rfl
  rw [withTimeLock, if_neg h, canSpendAt_iff]
  refine and_congr ?_ ?_
  · simp [OthersValid, or_imp, forall_and, hnew]
  · simp +contextual [Released, or_imp, hnew, hdate]

/-- **When a time lock does not loosen a UTXO.**  Its first release date is not before the new one,
or it can never be spent, or no time lock is replaced by an earlier one. -/
theorem withTimeLock_keeps_iff (u : Utxo D) (date : Timestamp) :
    (∀ timestamp, (u.withTimeLock date).canSpendAt timestamp = true →
        u.canSpendAt timestamp = true ∧ date < timestamp) ↔
      (∃ first, u.releaseDate = some first ∧ date ≤ first) ∨ ¬ u.OthersValid ∨
        u.Released (· ≤ date) ∨ ∀ timestamp : Timestamp, timestamp ≤ date := by
  have hany : u.releaseDate.any (fun x => date ≤ x) = true ↔
      ∃ first, u.releaseDate = some first ∧ date ≤ first := by
    simp [Option.any_eq_true]
  by_cases hlater : ∃ first, u.releaseDate = some first ∧ date ≤ first
  · refine iff_of_true (fun timestamp hspend => ?_) (.inl hlater)
    rw [withTimeLock, if_pos (hany.mpr hlater)] at hspend
    obtain ⟨first, hfirst, hle⟩ := hlater
    obtain ⟨c, hc, hdate⟩ := exists_of_findSome?_eq_some hfirst
    rw [coinReleaseDate, Option.ite_none_right_eq_some] at hdate
    obtain ⟨release, hrelease, hlt⟩ := (canSpendAt_iff.mp hspend).2 c hc hdate.1
    cases hdate.2.symm.trans hrelease
    exact ⟨hspend, Nat.lt_of_le_of_lt hle hlt⟩
  simp only [canSpendAt_withTimeLock_iff (mt hany.mp hlater), canSpendAt_iff, hlater, false_or]
  constructor
  · intro hkeeps
    refine or_iff_not_imp_left.mpr fun hvalid => or_iff_not_imp_right.mpr fun hmax => ?_
    -- the first timestamp after the date
    obtain ⟨after, hafter⟩ := not_forall.mp hmax
    have hafter : date.value.val < after.value.val := Nat.lt_of_not_le hafter
    have hnext := hkeeps ⟨⟨date.value.val + 1, by omega⟩⟩ ⟨not_not.mp hvalid, Nat.lt_succ_self _⟩
    intro c hc hlock
    obtain ⟨release, hrelease, hlt⟩ := hnext.1.2 c hc hlock
    exact ⟨release, hrelease, Nat.le_of_lt_succ hlt⟩
  · rintro (hinvalid | hall | hmax) timestamp ⟨hvalid, hlt⟩
    · exact absurd hvalid hinvalid
    · refine ⟨⟨hvalid, fun c hc hlock => ?_⟩, hlt⟩
      obtain ⟨release, hrelease, hle⟩ := hall c hc hlock
      exact ⟨release, hrelease, Nat.lt_of_le_of_lt hle hlt⟩
    · exact absurd (hmax timestamp) (Nat.not_le_of_lt hlt)

end

/-- Of two time locks, the later one is lost when one in between is set. -/
theorem withTimeLock_loosens : let u : Utxo SymbolicDigest :=
      ⟨.zero, [newNativeCurrency ⟨1⟩, timeLockUntil ⟨10⟩, timeLockUntil ⟨100⟩]⟩
    (u.withTimeLock ⟨50⟩).canSpendAt ⟨60⟩ = true ∧ u.canSpendAt ⟨60⟩ = false := by
  decide +kernel

end NyksNode.Utxo
