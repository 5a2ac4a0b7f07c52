import NyksNode.Composer.Outputs
import NyksNode.Mempool.Transaction

/-!
# The block that the composer builds

The composer makes a coinbase transaction on top of the tip, merges it with a transaction from the
mempool or with an empty one, and puts the result in a block.

The composer reads the clock twice, for the coinbase transaction and for the empty transaction, and
asks for the mempool twice.  The block gets the timestamp of the merged transaction.
-/

namespace NyksNode

/-! ## What the composer does not do itself -/

/-- A generator of random numbers that shuffles lists. -/
class ShuffleRng (σ : Type) where
  fromSeed : Vector (Fin 256) 32 → σ
  shuffle : {α : Type} → List α → σ → List α × σ
  shuffle_perm : ∀ {α : Type} (l : List α) (rng : σ), (shuffle l rng).1.Perm l

/-- The prover, which succeeds. -/
class ProverOps (D : Type) where
  prove : Claim D → NyksProof

variable {D : Type}

/-! ## Merging -/

def Timestamp.max (a b : Timestamp) : Timestamp := if a ≤ b then b else a

namespace MergeWitness
variable (σ : Type) [ShuffleRng σ]

def newKernel [DecidableEq D] (leftKernel rightKernel : TransactionKernel D)
    (shuffleSeed : Vector (Fin 256) 32) : Option (TransactionKernel D) :=
  if leftKernel.mutatorSetHash ≠ rightKernel.mutatorSetHash then none
  else if rightKernel.fee.isNegative then none
  else if rightKernel.coinbase.isSome then none
  else
    let rng : σ := ShuffleRng.fromSeed shuffleSeed
    let inputs := ShuffleRng.shuffle (leftKernel.inputs ++ rightKernel.inputs) rng
    let outputs := ShuffleRng.shuffle (leftKernel.outputs ++ rightKernel.outputs) inputs.2
    let announcements :=
      ShuffleRng.shuffle (leftKernel.announcements ++ rightKernel.announcements) outputs.2
    do
      let fee ← leftKernel.fee.add rightKernel.fee
      some
        { inputs := inputs.1
          outputs := outputs.1
          announcements := announcements.1
          fee := fee
          coinbase := leftKernel.coinbase
          timestamp := .max leftKernel.timestamp rightKernel.timestamp
          mutatorSetHash := leftKernel.mutatorSetHash
          mergeBit := true }

/-- `new_block_transaction_kernel`, with a regular transaction on the left: the inputs are
packed. -/
def newBlockTransactionKernel [Tip5 D] [DecidableEq D] [MmrIndexing]
    (leftKernel rightKernel : TransactionKernel D) (shuffleSeed : Vector (Fin 256) 32) :
    Option (TransactionKernel D) := do
  let newKernel ← newKernel σ leftKernel rightKernel shuffleSeed
  let inputs ← RemovalRecordList.pack newKernel.inputs
  some { newKernel with inputs := inputs }

end MergeWitness

def singleProofClaim [Tip5 D] [ConsensusOps D] [DigestOps D] (kernel : TransactionKernel D) :
    Claim D :=
  ⟨ConsensusOps.singleProofHash, (DigestOps.values kernel.mastHash).reverse, []⟩

/-! ## Transactions -/

/-- A kernel of the transaction builder, without inputs. -/
def TransactionBuilder.build [Tip5 D] [MmrOps D] [ConsensusOps D] [WalletOps D]
    (outputs : List (TxOutput D)) (fee : NativeCurrencyAmount)
    (coinbase : Option NativeCurrencyAmount) (timestamp : Timestamp)
    (mutatorSetAccumulator : MutatorSetAccumulator D) : TransactionKernel D where
  inputs := []
  outputs := outputs.map (·.additionRecord)
  announcements := outputs.map (·.announcement)
  fee := fee
  coinbase := coinbase
  timestamp := timestamp
  mutatorSetHash := mutatorSetAccumulator.hash
  mergeBit := false

/-- What the composer is told from outside. -/
structure Circumstances (D : Type) where
  tip : Block D
  coinbaseTime : Timestamp
  /-- The mempool before the empty transaction is made. -/
  mempool : List (Option (Transaction D))
  nopTime : Timestamp
  /-- The mempool after the empty transaction is made. -/
  mempoolAfterNop : List (Option (Transaction D))
  shuffleSeed : Vector (Fin 256) 32

namespace TransactionProver

section
variable [Tip5 D] [DecidableEq D] [MmrOps D]

/-- `find_mempool_merger`: the first transaction with a single proof that is in step with the
tip. -/
def findMempoolMerger (mutatorSetAccumulator : MutatorSetAccumulator D)
    (mempoolTxs : List (Option (Transaction D))) : Option (Transaction D) :=
  mempoolTxs.findSome? fun entry => entry.filter fun tx =>
    tx.proof.isSingleProof ∧ tx.kernel.mutatorSetHash = mutatorSetAccumulator.hash

end

variable [Tip5 D] [DecidableEq D] [MmrOps D] [MmrIndexing] [ConsensusOps D] [DigestOps D]
  [WalletOps D]

/-- `prepare_coinbase_transaction`, without its proof. -/
def prepareCoinbaseTransaction (args : Args D) (tip : Block D) (timestamp : Timestamp)
    (mutatorSetAccumulator : MutatorSetAccumulator D) : Option (TransactionKernel D) := do
  let coinbaseAmount := blockSubsidy tip.header.height.next
  let composerOutputs ← args.txOutputs tip.hash coinbaseAmount timestamp
  let totalComposerFee ← TxOutput.totalNativeCoins composerOutputs
  let guesserFee ← coinbaseAmount.checkedSub totalComposerFee
  some (TransactionBuilder.build composerOutputs guesserFee (some coinbaseAmount) timestamp
    mutatorSetAccumulator)

variable [ProverOps D]

def prepareNopTransaction (timestamp : Timestamp)
    (mutatorSetAccumulator : MutatorSetAccumulator D) : Transaction D :=
  let kernel := TransactionBuilder.build [] .zero none timestamp mutatorSetAccumulator
  ⟨kernel, .singleProof (ProverOps.prove (singleProofClaim kernel))⟩

def prepareMergeTransaction (c : Circumstances D)
    (mutatorSetAccumulator : MutatorSetAccumulator D) : Transaction D :=
  match findMempoolMerger mutatorSetAccumulator c.mempool with
  | some tx => tx
  | none =>
    (findMempoolMerger mutatorSetAccumulator c.mempoolAfterNop).getD
      (prepareNopTransaction c.nopTime mutatorSetAccumulator)

variable (σ : Type) [ShuffleRng σ]

/-- `prepare_block_transaction`: the kernel of the merged transaction.  A transaction without a
single proof cannot be merged. -/
def prepareBlockTransaction (args : Args D) (c : Circumstances D) :
    Option (TransactionKernel D) := do
  let mutatorSetAccumulator ← c.tip.mutatorSetAccumulatorAfter.unwrap
  let coinbaseTransaction ←
    prepareCoinbaseTransaction args c.tip c.coinbaseTime mutatorSetAccumulator
  let mergeTx := prepareMergeTransaction c mutatorSetAccumulator
  if mergeTx.proof.isSingleProof then
    MergeWitness.newBlockTransactionKernel σ coinbaseTransaction mergeTx.kernel c.shuffleSeed
  else none

end TransactionProver

/-! ## Blocks -/

def BlockHeader.templateHeader [Tip5 D] (predecessorHeader : BlockHeader D) (predecessorDigest : D)
    (timestamp targetBlockInterval : Timestamp) : Option (BlockHeader D) := do
  let difficulty ← difficultyControl timestamp predecessorHeader.timestamp
    predecessorHeader.difficulty targetBlockInterval predecessorHeader.height
  some
    { version := 0
      height := predecessorHeader.height.next
      prevBlockDigest := predecessorDigest
      timestamp := timestamp
      pow :=
        { root := Tip5.zeroDigest
          pathA := .replicate _ Tip5.zeroDigest
          pathB := .replicate _ Tip5.zeroDigest
          nonce := Tip5.zeroDigest }
      cumulativeProofOfWork := predecessorHeader.cumulativeProofOfWork.add difficulty
      difficulty := difficulty
      guesserReceiverData := ⟨Tip5.zeroDigest, Tip5.zeroDigest⟩ }

variable [Tip5 D] [DecidableEq D] [MmrOps D] [MmrIndexing] [ConsensusOps D] [DigestOps D]

def MutatorSetUpdate.applyToAccumulatorUnsafe (u : MutatorSetUpdate D)
    (msAccumulator : MutatorSetAccumulator D) : Option (MutatorSetAccumulator D) :=
  (u.applyToAccumulator msAccumulator).map Prod.fst

def BlockPrimitiveWitness.body (predecessorBlock : Block D)
    (transactionKernel : TransactionKernel D) : Option (BlockBody D) := do
  let predecessorMsa ← predecessorBlock.mutatorSetAccumulatorAfter.unwrap
  if predecessorMsa.hash ≠ transactionKernel.mutatorSetHash then none
  else do
    let unpacked ← RemovalRecordList.tryUnpack transactionKernel.inputs
    let inputs ← unpacked.toOption
    let mutatorSet ← MutatorSetUpdate.applyToAccumulatorUnsafe
      ⟨inputs, transactionKernel.outputs⟩ predecessorMsa
    let (blockMmr, _) ←
      MmrOps.append predecessorBlock.body.blockMmrAccumulator predecessorBlock.hash
    some ⟨transactionKernel, mutatorSet, predecessorBlock.body.lockFreeMmrAccumulator, blockMmr⟩

variable [ProverOps D]

def BlockProver.composeBlock (network : Network) (tip : Block D)
    (transactionKernel : TransactionKernel D) (blockTimestamp : Timestamp) : Option (Block D) :=
  let txClaim := singleProofClaim transactionKernel
  if ConsensusOps.verify txClaim (ProverOps.prove txClaim) network = false then none
  else if transactionKernel.mergeBit = false then none
  else do
    let body ← BlockPrimitiveWitness.body tip transactionKernel
    let header ← BlockHeader.templateHeader tip.header tip.hash blockTimestamp
      network.targetBlockInterval
    let appendix : BlockAppendix D := ⟨[txClaim]⟩
    some
      { kernel := ⟨header, body, appendix⟩
        proof := .singleProof (ProverOps.prove (Block.blockProgramClaim body appendix)) }

variable [WalletOps D] (σ : Type) [ShuffleRng σ]

/-- `run_pipeline`: the block that is submitted to the node. -/
def BlockBuilder.runPipeline (args : Args D) (c : Circumstances D) : Option (Block D) := do
  let transaction ← TransactionProver.prepareBlockTransaction σ args c
  BlockProver.composeBlock args.network c.tip transaction transaction.timestamp

end NyksNode
