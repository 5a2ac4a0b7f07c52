import NyksNode.Block.Validate

/-!
# Sync challenges

A peer that claims a much higher tip is asked for ten pairs of a block and its parent, at heights
that were chosen for it, for its tip, and for the headers right below the tip.  Blocks travel
without their digests, so the receiver computes the digests.
-/

namespace NyksNode

def syncChallengePowWitnessLength : ℕ := 10

def syncChallengeNumBlockPairs : ℕ := 10

variable {D : Type}

/-- `try_into` an array, and `unwrap`. -/
def tryIntoArray {α : Type} (n : ℕ) (xs : List α) : Option (Vector α n) :=
  if h : xs.length = n then some ⟨xs.toArray, by simpa using h⟩ else none

/-! ## Blocks in transfer -/

structure TransferBlock (D : Type) where
  header : BlockHeader D
  body : BlockBody D
  appendix : BlockAppendix D
  proof : NyksProof
  deriving DecidableEq, Repr

namespace TransferBlock

/-- `TransferBlock::try_from` a block. -/
def ofBlock (block : Block D) : Except String (TransferBlock D) :=
  match block.proof with
  | .singleProof proof =>
    .ok ⟨block.kernel.header, block.kernel.body, block.kernel.appendix, proof⟩
  | .genesis => .error "The Genesis block cannot be transferred"
  | .invalid => .error "Invalid blocks cannot be transferred"

/-- `Block::try_from` a block in transfer. -/
def toBlock (t : TransferBlock D) : Except String (Block D) :=
  if t.header.height = .genesis then
    .error "The genesis block cannot be transferred or decoded from transfer"
  else .ok ⟨⟨t.header, t.body, t.appendix⟩, .singleProof t.proof⟩

variable {block : Block D} {t : TransferBlock D}

theorem header_of_ofBlock (ht : ofBlock block = .ok t) : t.header = block.header := by
  obtain ⟨kernel, proof⟩ := block
  cases proof <;> cases ht
  rfl

theorem height_ne_of_toBlock (ht : t.toBlock = .ok block) : t.header.height ≠ .genesis := by
  intro hzero
  rw [toBlock, if_pos hzero] at ht
  cases ht

theorem header_of_toBlock (ht : t.toBlock = .ok block) : block.header = t.header := by
  rw [toBlock] at ht
  split at ht
  · cases ht
  · cases ht
    rfl

theorem toBlock_of_ofBlock (ht : ofBlock block = .ok t) (hheight : block.header.height ≠ .genesis) :
    t.toBlock = .ok block := by
  obtain ⟨⟨header, body, appendix⟩, proof⟩ := block
  cases proof with
  | singleProof proof =>
    cases ht
    exact if_neg hheight
  | genesis => cases ht
  | invalid => cases ht

end TransferBlock

/-! ## Headers with witnesses -/

/-- The leafs that a block header leaves open. -/
structure HeaderToBlockHashWitness (D : Type) where
  bodyLeaf : D
  appendixLeaf : D
  proofLeaf : D
  deriving DecidableEq, Repr

structure BlockHeaderWithBlockHashWitness (D : Type) where
  header : BlockHeader D
  witness : HeaderToBlockHashWitness D
  deriving DecidableEq, Repr

section
variable [Tip5 D] [ConsensusOps D]

/-- `HeaderToBlockHashWitness::from` a block. -/
def HeaderToBlockHashWitness.ofBlock (block : Block D) : HeaderToBlockHashWitness D where
  bodyLeaf := ConsensusOps.hashVarlen (.digest block.body.mastHash)
  appendixLeaf := ConsensusOps.hashVarlen (.appendix block.appendix)
  proofLeaf := ConsensusOps.hashVarlen (.proof block.proof)

namespace BlockHeaderWithBlockHashWitness

def hash (h : BlockHeaderWithBlockHashWitness D) : D :=
  let blockHeaderLeaf := ConsensusOps.hashVarlen (.digest h.header.mastHash)
  let kernelHash := mastRoot 2
    [blockHeaderLeaf, h.witness.bodyLeaf, h.witness.appendixLeaf, Tip5.zeroDigest]
  mastRoot 1 [ConsensusOps.hashVarlen (.digest kernelHash), h.witness.proofLeaf]

def isSuccessorOf [DecidableEq D] (h parent : BlockHeaderWithBlockHashWitness D) : Bool :=
  h.header.prevBlockDigest = parent.hash

theorem hash_ofBlock (block : Block D) : hash ⟨block.header, .ofBlock block⟩ = block.hash := by
  rfl

end BlockHeaderWithBlockHashWitness

/-- **Three ways to the hash of a block.**  The paths of the proof-of-work field lead to it with any
value of the field, and so does the witness of the header. -/
theorem Block.fastMastHash_powMastPaths (b : Block D) :
    b.powMastPaths.fastMastHash b.header.pow = b.mastHash ∧
    (∀ pow, b.powMastPaths.fastMastHash pow = mastHash { b with kernel.header.pow := pow }) ∧
    BlockHeaderWithBlockHashWitness.hash ⟨b.header, .ofBlock b⟩ = b.hash := by
  have hpaths : ∀ pow, b.powMastPaths.fastMastHash pow =
      mastHash { b with kernel.header.pow := pow } := by
    intro pow
    simp only [PowMastPaths.fastMastHash, powMastPaths, mastPath, Vector.getElem_ofFn]
    rfl
  exact ⟨hpaths _, hpaths, BlockHeaderWithBlockHashWitness.hash_ofBlock b⟩

end

/-! ## Challenges and responses -/

structure SyncChallenge (D : Type) where
  tipDigest : D
  challenges : Vector BlockHeight syncChallengeNumBlockPairs
  deriving DecidableEq, Repr

structure SyncChallengeResponse (D : Type) where
  /-- Parents and children. -/
  blocks : Vector (TransferBlock D × TransferBlock D) syncChallengeNumBlockPairs
  membershipProofs : Vector (MmrMembershipProof D) syncChallengeNumBlockPairs
  tipParent : TransferBlock D
  tip : TransferBlock D
  /-- From the tip downwards. -/
  powWitnesses : Vector (BlockHeaderWithBlockHashWitness D) syncChallengePowWitnessLength
  deriving DecidableEq, Repr

end NyksNode
