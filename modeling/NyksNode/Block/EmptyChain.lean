import NyksNode.Block.Agreement

/-!
# Chains of empty blocks

On a block one can put an empty block, and then the next one.  What their headers contain follows
from the timestamps alone, without the digests.
-/

namespace NyksNode

open List Fallible

/-! ## Headers without digests -/

/-- What the checks of a header read, apart from digests. -/
structure HeaderData where
  height : BlockHeight
  timestamp : Timestamp
  difficulty : Difficulty
  work : ProofOfWork
  deriving DecidableEq, Repr

namespace HeaderData

def ofHeader {D : Type} (h : BlockHeader D) : HeaderData :=
  ⟨h.height, h.timestamp, h.difficulty, h.cumulativeProofOfWork⟩

def nextDifficulty (network : Network) (x : HeaderData) (timestamp : Timestamp) :
    Option Difficulty :=
  if Block.shouldResetDifficulty network timestamp x.timestamp then some network.genesisDifficulty
  else difficultyControl timestamp x.timestamp x.difficulty network.targetBlockInterval x.height

/-- The header of an empty block, some time after another header. -/
def next (network : Network) (x : HeaderData) (delay : Timestamp) : Option HeaderData :=
  let timestamp := x.timestamp + delay
  if x.timestamp + network.minimumBlockTime ≤ timestamp ∧ timestamp < timestamp + futuredatingLimit
      ∧ ¬ x.height.next.isGenesis then
    (x.nextDifficulty network timestamp).map fun difficulty =>
      ⟨x.height.next, timestamp, difficulty, x.work.add difficulty⟩
  else none

def run (network : Network) : HeaderData → List Timestamp → Option (List HeaderData)
  | _, [] => some []
  | x, delay :: delays => do
    let y ← x.next network delay
    let ys ← run network y delays
    some (y :: ys)

end HeaderData

namespace Block

variable [MmrIndexing]

def ValidOn (network : Network) (B : Block SymbolicDigest) (Bs : List (Block SymbolicDigest)) :
    Prop :=
  List.IsChain (fun P B => ∃ now, (B.validate P now network).Returns ()) (B :: Bs)

/-- Empty blocks with the timestamps and difficulties of some headers. -/
def emptyChain (B : Block SymbolicDigest) (ds : List SymbolicDigest) :
    List HeaderData → List (Block SymbolicDigest)
  | [] => []
  | x :: xs =>
    let B' := B.emptySuccessor (B.mutatorSetAccumulatorAfter.unwrap.getD .empty)
      (.ofLeafs (ds ++ [B.hash])) x.timestamp x.difficulty
    B' :: emptyChain B' (ds ++ [B.hash]) xs

end Block

/-! ## Digests of blocks -/

namespace SymbolicDigest

/-- The places of the height and of the timestamp in the digest of a block. -/
theorem exists_hash_eq (B : Block SymbolicDigest) : ∃ x y z u v w,
    B.hash = pair (tagged 0 [pair (pair (tagged 0 [pair (pair
      (pair x (tagged 2 [atom B.header.height.value.val]))
      (pair y (tagged 2 [atom B.header.timestamp.value.val]))) z]) u) v]) w :=
  ⟨_, _, _, _, _, _, rfl⟩

theorem key_of_hash_eq {B B' : Block SymbolicDigest} (h : B.hash = B'.hash) :
    B.header.height = B'.header.height ∧ B.header.timestamp = B'.header.timestamp := by
  obtain ⟨_, _, _, _, _, _, hB⟩ := exists_hash_eq B
  obtain ⟨_, _, _, _, _, _, hB'⟩ := exists_hash_eq B'
  rw [hB, hB'] at h
  simp only [tagged, ofList, foldr_cons, foldr_nil, pair.injEq, atom.injEq, and_true, true_and] at h
  exact ⟨BlockHeight.ext (Fin.ext h.1.1.1.1.1.2), Timestamp.ext (Fin.ext h.1.1.1.1.2.2)⟩

end SymbolicDigest

end NyksNode
