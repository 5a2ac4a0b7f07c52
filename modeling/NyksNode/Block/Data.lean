import NyksNode.Block.Difficulty

/-!
# Blocks

The data of a block, and its digest.  A block, its kernel, its header, its body and its
transaction kernel are each hashed as a Merkle tree over their fields (a MAST), so that a
path proves a single field.

How a value is encoded as field elements, what the Triton VM programs hash to, and
whether a proof verifies is not part of the repository; `ConsensusOps` lists what the
node calls.
-/

namespace NyksNode

class DigestOps (D : Type) where
  /-- `Digest::new(bfe_array![..])`. -/
  new : List ℕ → D
  /-- `Digest::try_from_hex(..).unwrap()`, of a literal. -/
  ofHex : String → D
  values : D → List BFieldElement
  /-- `<=` on digests. -/
  le : D → D → Bool
  toBigUint : D → ℕ
  /-- `Digest::try_from`; a number that is too large has no digest. -/
  ofBigUint : ℕ → Option D

/-! ## Transactions -/

structure Announcement where
  message : List BFieldElement
  deriving DecidableEq, Repr

structure Coin (D : Type) where
  typeScriptHash : D
  state : List BFieldElement
  deriving DecidableEq, Repr

structure Utxo (D : Type) where
  lockScriptHash : D
  coins : List (Coin D)
  deriving DecidableEq, Repr

structure TransactionKernel (D : Type) where
  inputs : List (RemovalRecord D)
  outputs : List (AdditionRecord D)
  announcements : List Announcement
  fee : NativeCurrencyAmount
  coinbase : Option NativeCurrencyAmount
  timestamp : Timestamp
  mutatorSetHash : D
  mergeBit : Bool
  deriving DecidableEq, Repr

/-! ## Headers -/

/-- A solution of the proof-of-work puzzle, with paths in a Merkle tree of the given height. -/
structure Pow (D : Type) (merkleTreeHeight : ℕ) where
  root : D
  pathA : Vector D merkleTreeHeight
  pathB : Vector D merkleTreeHeight
  nonce : D
  deriving DecidableEq, Repr

def powMemoryTreeHeight : ℕ := 27

abbrev BlockPow (D : Type) := Pow D powMemoryTreeHeight

structure GuesserReceiverData (D : Type) where
  receiverDigest : D
  lockScriptHash : D
  deriving DecidableEq, Repr

structure BlockHeader (D : Type) where
  version : BFieldElement
  height : BlockHeight
  prevBlockDigest : D
  timestamp : Timestamp
  pow : BlockPow D
  cumulativeProofOfWork : ProofOfWork
  /-- The difficulty of the next block. -/
  difficulty : Difficulty
  guesserReceiverData : GuesserReceiverData D
  deriving DecidableEq, Repr

/-! ## Bodies and blocks -/

structure BlockBody (D : Type) where
  transactionKernel : TransactionKernel D
  /-- The mutator set after the transaction, but before the guesser fee. -/
  mutatorSetAccumulator : MutatorSetAccumulator D
  lockFreeMmrAccumulator : MmrAccumulator D
  /-- The digests of all earlier blocks. -/
  blockMmrAccumulator : MmrAccumulator D
  deriving DecidableEq, Repr

structure Claim (D : Type) where
  programDigest : D
  input : List BFieldElement
  output : List BFieldElement
  deriving DecidableEq, Repr

structure BlockAppendix (D : Type) where
  claims : List (Claim D)
  deriving DecidableEq, Repr

structure BlockKernel (D : Type) where
  header : BlockHeader D
  body : BlockBody D
  appendix : BlockAppendix D
  deriving DecidableEq, Repr

/-- A proof, as the Triton VM stores it. -/
structure NyksProof where
  proof : List BFieldElement
  deriving DecidableEq, Repr

inductive BlockProof where
  | genesis
  | invalid
  | singleProof (proof : NyksProof)
  deriving DecidableEq, Repr

structure Block (D : Type) where
  kernel : BlockKernel D
  proof : BlockProof
  deriving DecidableEq, Repr

/-- The values whose encodings are hashed. -/
inductive EncodedValue (D : Type) where
  | digest (d : D)
  | digests (ds : List D)
  | fieldElement (v : BFieldElement)
  | boolean (b : Bool)
  | pow {merkleTreeHeight : ℕ} (p : Pow D merkleTreeHeight)
  | proofOfWork (p : ProofOfWork)
  | difficulty (d : Difficulty)
  | guesserReceiverData (g : GuesserReceiverData D)
  | inputs (rrs : List (RemovalRecord D))
  | outputs (rs : List (AdditionRecord D))
  | announcements (as : List Announcement)
  | amount (a : NativeCurrencyAmount)
  | coinbase (a : Option NativeCurrencyAmount)
  | mutatorSetAccumulator (A : MutatorSetAccumulator D)
  | mmrAccumulator (m : MmrAccumulator D)
  | appendix (a : BlockAppendix D)
  | claim (c : Claim D)
  | proof (p : BlockProof)
  | utxo (u : Utxo D)
  deriving DecidableEq, Repr

/-- Functions of the encoding and of the virtual machine. -/
class ConsensusOps (D : Type) where
  /-- `Tip5::hash_varlen` of the encoding of a value. -/
  hashVarlen : EncodedValue D → D
  /-- `encode` of an amount. -/
  encodeAmount : NativeCurrencyAmount → List BFieldElement
  /-- `encode().len()` of a block. -/
  encodedLength : Block D → ℕ
  nativeCurrencyHash : D
  singleProofHash : D
  blockProgramHash : D
  /-- `verify(claim, proof, network)`. -/
  verify : Claim D → NyksProof → Network → Bool

/-! ## Digests of blocks -/

section
variable {D : Type} [Tip5 D]

/-- The leafs of a MAST, padded with the zero digest. -/
def mastRow (leafs : List D) (i : ℕ) : D := leafs.getD i Tip5.zeroDigest

/-- `mast_hash`: the root of the tree of the given height. -/
def mastRoot (height : ℕ) (leafs : List D) : D := Merkle.node Tip5.hashPair (mastRow leafs) height 0

/-- `mast_path`: the siblings from a leaf upwards. -/
def mastPath (height : ℕ) (leafs : List D) (index : ℕ) : Vector D height :=
  .ofFn fun t => Merkle.node Tip5.hashPair (mastRow leafs) t (Merkle.sibling (index / 2 ^ t.val))

variable [ConsensusOps D]

open ConsensusOps (hashVarlen)

namespace TransactionKernel

def mastLeafs (k : TransactionKernel D) : List D :=
  [hashVarlen (.inputs k.inputs), hashVarlen (.outputs k.outputs),
    hashVarlen (.announcements k.announcements), hashVarlen (.amount k.fee),
    hashVarlen (.coinbase k.coinbase), hashVarlen (.fieldElement k.timestamp.value),
    hashVarlen (.digest k.mutatorSetHash), hashVarlen (.boolean k.mergeBit)]

def mastHash (k : TransactionKernel D) : D := mastRoot 3 k.mastLeafs

end TransactionKernel

namespace BlockHeader

def mastLeafs (h : BlockHeader D) : List D :=
  [hashVarlen (.fieldElement h.version), hashVarlen (.fieldElement h.height.value),
    hashVarlen (.digest h.prevBlockDigest), hashVarlen (.fieldElement h.timestamp.value),
    hashVarlen (.pow h.pow), hashVarlen (.proofOfWork h.cumulativeProofOfWork),
    hashVarlen (.difficulty h.difficulty), hashVarlen (.guesserReceiverData h.guesserReceiverData)]

def mastHash (h : BlockHeader D) : D := mastRoot 3 h.mastLeafs

end BlockHeader

namespace BlockBody

def mastLeafs (b : BlockBody D) : List D :=
  [hashVarlen (.digest b.transactionKernel.mastHash),
    hashVarlen (.mutatorSetAccumulator b.mutatorSetAccumulator),
    hashVarlen (.mmrAccumulator b.lockFreeMmrAccumulator),
    hashVarlen (.mmrAccumulator b.blockMmrAccumulator)]

def mastHash (b : BlockBody D) : D := mastRoot 2 b.mastLeafs

end BlockBody

namespace BlockKernel

def mastLeafs (k : BlockKernel D) : List D :=
  [hashVarlen (.digest k.header.mastHash), hashVarlen (.digest k.body.mastHash),
    hashVarlen (.appendix k.appendix)]

def mastHash (k : BlockKernel D) : D := mastRoot 2 k.mastLeafs

end BlockKernel

end

namespace Block
variable {D : Type}

def header (b : Block D) : BlockHeader D := b.kernel.header

def body (b : Block D) : BlockBody D := b.kernel.body

def appendix (b : Block D) : BlockAppendix D := b.kernel.appendix

variable [Tip5 D] [ConsensusOps D]

def mastLeafs (b : Block D) : List D :=
  [ConsensusOps.hashVarlen (.digest b.kernel.mastHash), ConsensusOps.hashVarlen (.proof b.proof)]

def mastHash (b : Block D) : D := mastRoot 1 b.mastLeafs

/-- `hash`, without its cache. -/
def hash (b : Block D) : D := b.mastHash

def size (b : Block D) : ℕ := ConsensusOps.encodedLength b

end Block

end NyksNode
