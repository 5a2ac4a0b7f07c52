import NyksNode.Block.Validate

/-!
# Amounts, addresses and outputs

Amounts are signed 128-bit integers; an operation that overflows panics.  An output pays an amount
to an address, at once or from a release date on.
-/

namespace NyksNode

open Option

/-! ## Amounts -/

namespace NativeCurrencyAmount

/-- The result of an operation on `i128`, which panics if there is an overflow. -/
def checkedI128 (nau : ℤ) : Option NativeCurrencyAmount :=
  if -2 ^ 127 ≤ nau ∧ nau < 2 ^ 127 then some ⟨nau⟩ else none

def zero : NativeCurrencyAmount := ⟨0⟩

def isZero (a : NativeCurrencyAmount) : Bool := a.nau = 0

def add (a b : NativeCurrencyAmount) : Option NativeCurrencyAmount := checkedI128 (a.nau + b.nau)

def neg (a : NativeCurrencyAmount) : Option NativeCurrencyAmount := checkedI128 (-a.nau)

def sum (amounts : List NativeCurrencyAmount) : Option NativeCurrencyAmount :=
  amounts.foldlM add zero

/-- `checked_sub`: no amount involved is negative. -/
def checkedSub (a v : NativeCurrencyAmount) : Option NativeCurrencyAmount :=
  if ¬ a.isNegative ∧ ¬ v.isNegative ∧ v.nau ≤ a.nau then some ⟨a.nau - v.nau⟩ else none

theorem isNegative_eq_false_iff {a : NativeCurrencyAmount} : a.isNegative = false ↔ 0 ≤ a.nau := by
  rw [isNegative, decide_eq_false_iff_not, not_lt]

theorem add_eq_some {a b c : NativeCurrencyAmount} (h : a.add b = some c) :
    c.nau = a.nau + b.nau := by
  rw [add, checkedI128, ite_none_right_eq_some, some_inj] at h
  rw [← h.2]

theorem checkedSub_eq_some {a v d : NativeCurrencyAmount} (h : a.checkedSub v = some d) :
    d.nau = a.nau - v.nau := by
  rw [checkedSub, ite_none_right_eq_some, some_inj] at h
  rw [← h.2]

theorem isNegative_of_checkedSub {a v d : NativeCurrencyAmount} (h : a.checkedSub v = some d) :
    d.isNegative = false := by
  rw [checkedSub, ite_none_right_eq_some, some_inj] at h
  rw [isNegative_eq_false_iff, ← h.2]
  exact Int.sub_nonneg_of_le h.1.2.2

end NativeCurrencyAmount

/-! ## Outputs -/

/-- The two digests of an address that an output depends on. -/
structure Address (D : Type) where
  lockScriptHash : D
  privacyDigest : D
  deriving DecidableEq, Repr

/-- Functions of the wallet's libraries. -/
class WalletOps (D : Type) where
  timeLockHash : D
  /-- `create_private_note`, as an announcement. -/
  createPrivateNote : Address D → Utxo D → D → Announcement

/-- `TxOutput`, with an on-chain notification.  The coins of its UTXO are given by the amount and
the release date. -/
structure TxOutput (D : Type) where
  amount : NativeCurrencyAmount
  releaseDate : Option Timestamp
  senderRandomness : D
  recipient : Address D
  deriving DecidableEq, Repr

namespace TxOutput
variable {D : Type} [Tip5 D] [ConsensusOps D] [WalletOps D]

def utxo (o : TxOutput D) : Utxo D where
  lockScriptHash := o.recipient.lockScriptHash
  coins := o.amount.toNativeCoins ++
    (o.releaseDate.map fun date => ⟨WalletOps.timeLockHash, [date.value]⟩).toList

def additionRecord (o : TxOutput D) : AdditionRecord D :=
  commit (ConsensusOps.hashVarlen (.utxo o.utxo)) o.senderRandomness o.recipient.privacyDigest

def announcement (o : TxOutput D) : Announcement :=
  WalletOps.createPrivateNote o.recipient o.utxo o.senderRandomness

omit [Tip5 D] [ConsensusOps D] [WalletOps D]

def isTimelocked (o : TxOutput D) : Bool := o.releaseDate.isSome

end TxOutput

end NyksNode
