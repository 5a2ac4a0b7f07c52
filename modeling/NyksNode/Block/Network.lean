import NyksNode.MutatorSet.Data

/-!
# Timestamps, heights, amounts and networks

Timestamps and block heights are single elements of the field with
`2 ^ 64 - 2 ^ 32 + 1` elements.  They are added and subtracted in the field, and
compared as integers, so a sum may be smaller than its summands.
-/

namespace NyksNode

/-- `BFieldElement`, ordered by its canonical representative. -/
abbrev BFieldElement := Fin (2 ^ 64 - 2 ^ 32 + 1)

instance (priority := 1100) neZeroModulus : NeZero (2 ^ 64 - 2 ^ 32 + 1) := ⟨by decide⟩

instance (priority := 1100) neZeroByte : NeZero 256 := ⟨by decide⟩

namespace BFieldElement

/-- `BFieldElement::P`. -/
def modulus : ℕ := 2 ^ 64 - 2 ^ 32 + 1

def new (value : ℕ) : BFieldElement := Fin.ofNat _ value

end BFieldElement

/-! ## Timestamps -/

/-- Milliseconds. -/
@[ext]
structure Timestamp where
  value : BFieldElement
  deriving DecidableEq, Repr

namespace Timestamp

instance : Add Timestamp := ⟨fun a b => ⟨a.value + b.value⟩⟩

instance : Sub Timestamp := ⟨fun a b => ⟨a.value - b.value⟩⟩

instance : LE Timestamp := ⟨fun a b => a.value ≤ b.value⟩

instance : LT Timestamp := ⟨fun a b => a.value < b.value⟩

instance : DecidableLE Timestamp := fun a b => inferInstanceAs (Decidable (a.value ≤ b.value))

instance : DecidableLT Timestamp := fun a b => inferInstanceAs (Decidable (a.value < b.value))

def millis (num : ℕ) : Timestamp := ⟨.new num⟩

def seconds (num : ℕ) : Timestamp := ⟨.new (num * 1000)⟩

def minutes (num : ℕ) : Timestamp := ⟨.new (num * 60 * 1000)⟩

end Timestamp

/-! ## Heights -/

/-- The distance from the genesis block. -/
@[ext]
structure BlockHeight where
  value : BFieldElement
  deriving DecidableEq, Repr

def blocksPerGeneration : ℕ := 6750

namespace BlockHeight

instance : LE BlockHeight := ⟨fun a b => a.value ≤ b.value⟩

instance : LT BlockHeight := ⟨fun a b => a.value < b.value⟩

instance : DecidableLE BlockHeight := fun a b => inferInstanceAs (Decidable (a.value ≤ b.value))

instance : DecidableLT BlockHeight := fun a b => inferInstanceAs (Decidable (a.value < b.value))

def genesis : BlockHeight := ⟨0⟩

def next (h : BlockHeight) : BlockHeight := ⟨h.value + 1⟩

def isGenesis (h : BlockHeight) : Bool := h.value = 0

def previous (h : BlockHeight) : Option BlockHeight :=
  if h.isGenesis then none else some ⟨h.value - 1⟩

def getGeneration (h : BlockHeight) : ℕ := h.value / blocksPerGeneration

end BlockHeight

/-! ## Amounts -/

@[ext]
structure NativeCurrencyAmount where
  nau : ℤ
  deriving DecidableEq, Repr

namespace NativeCurrencyAmount

instance : LT NativeCurrencyAmount := ⟨fun a b => a.nau < b.nau⟩

instance : DecidableLT NativeCurrencyAmount := fun a b =>
  inferInstanceAs (Decidable (a.nau < b.nau))

def conversionFactor : ℤ := 10 ^ 8

/-- `coins`, whose argument is a constant within its bound wherever it is called here. -/
def coins (numWholeCoins : ℕ) : NativeCurrencyAmount := ⟨conversionFactor * numWholeCoins⟩

def isNegative (a : NativeCurrencyAmount) : Bool := a.nau < 0

end NativeCurrencyAmount

/-! ## Networks -/

inductive Network where
  | main
  | testnetMock
  | regTest
  | testnet (i : Fin 256)
  deriving DecidableEq, Repr

namespace Network

def launchDate (_network : Network) : Timestamp := .millis 1784905200000

def allowsMockPow : Network → Bool
  | regTest => true
  | main | testnetMock | testnet _ => false

def targetBlockInterval : Network → Timestamp
  | regTest => .millis 100
  | main | testnet _ | testnetMock => .millis 384000

def minimumBlockTime : Network → Timestamp
  | regTest => .millis 1
  | testnetMock => .millis 100
  | main | testnet _ => .seconds 60

/-- `difficulty_reset_interval`: twice the target interval, on one network only. -/
def difficultyResetInterval : Network → Option Timestamp
  | testnetMock => some ⟨testnetMock.targetBlockInterval.value * 2⟩
  | main | regTest | testnet _ => none

end Network

def maxNumInputsOutputsAnnouncements : ℕ := 2 ^ 14

inductive ConsensusRuleSet where
  | launch
  deriving DecidableEq, Repr

namespace ConsensusRuleSet

def inferFrom (network : Network) (_blockHeight : BlockHeight) : ConsensusRuleSet :=
  match network with
  | .main | .testnetMock | .regTest | .testnet _ => launch

def maxBlockSize : ConsensusRuleSet → ℕ
  | launch => 1000000

def maxNumInputs : ConsensusRuleSet → ℕ
  | launch => maxNumInputsOutputsAnnouncements

def maxNumOutputs : ConsensusRuleSet → ℕ
  | launch => maxNumInputsOutputsAnnouncements

def maxNumAnnouncements : ConsensusRuleSet → ℕ
  | launch => maxNumInputsOutputsAnnouncements

end ConsensusRuleSet

end NyksNode
