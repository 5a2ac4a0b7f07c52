import NyksNode.Block.MutatorSetUpdate
import NyksNode.Block.Pow
import NyksNode.Packing.RemovalRecordList

/-!
# Validating blocks

The functions of a block that its validation calls, and the validation itself with all
its checks in the order of the source.  A panic is `none`.
-/

namespace NyksNode

inductive BlockValidationError where
  | blockHeight
  | prevBlockDigest
  | blockMmrUpdate
  | minimumBlockTime
  | difficulty
  | cumulativeProofOfWork
  | futureDating
  | appendixMissingClaim
  | appendixTooLarge
  | proofQuality
  | proofValidity
  | maxSize
  | removalRecordsUnpackFailure
  | removalRecordsValidity
  | removalRecordsUniqueness
  | mutatorSetUpdateImpossible
  | mutatorSetUpdateIntegrity
  | transactionTimestamp
  | coinbaseTooBig
  | negativeCoinbase
  | negativeFee
  | tooManyInputs
  | tooManyOutputs
  | tooManyAnnouncements
  | transactionMutatorSetMismatch
  deriving DecidableEq, Repr

open Fallible

def futuredatingLimit : Timestamp := .minutes 5

def maxNumClaims : ℕ := 500

/-! ## Subsidies -/

/-- `BLOCK_SUBSIDY_BY_GENERATION`, in coins. -/
def blockSubsidyByGeneration : List ℕ :=
  [12800, 12217, 11661, 11130, 10624, 10141, 9679, 9239, 8818, 8417, 8034, 7668, 7319, 6986, 6668,
    6365, 6075, 5799, 5535, 5283, 5043, 4813, 4594, 4385, 4185, 3995, 3813, 3640, 3474, 3316, 3165,
    3021, 2883, 2752, 2627, 2507, 2393, 2284, 2180, 2081, 1986, 1896, 1810, 1727, 1649, 1574, 1502,
    1434, 1368, 1306, 1247, 1190, 1136, 1084, 1035, 988, 943, 900, 859, 820, 782, 747, 713, 680,
    649, 620, 591, 565, 539, 514, 491, 469, 447, 427, 407, 389, 371, 354, 338, 323, 308, 294, 280,
    268]

def tailEmissionBlockSubsidy : NativeCurrencyAmount := .coins 256

def blockSubsidy (blockHeight : BlockHeight) : NativeCurrencyAmount :=
  (blockSubsidyByGeneration[blockHeight.getGeneration]?.map .coins).getD tailEmissionBlockSubsidy

variable {D : Type} [Tip5 D]

/-! ## The guesser fee -/

def BlockBody.totalGuesserReward (b : BlockBody D) :
    Except BlockValidationError NativeCurrencyAmount :=
  if b.transactionKernel.fee.isNegative then .error .negativeFee else .ok b.transactionKernel.fee

section
variable [ConsensusOps D]

def NativeCurrencyAmount.toNativeCoins (a : NativeCurrencyAmount) : List (Coin D) :=
  [⟨ConsensusOps.nativeCurrencyHash, ConsensusOps.encodeAmount D a⟩]

namespace BlockKernel

/-- `guesser_fee_utxos`: none for the genesis block. -/
def guesserFeeUtxos (k : BlockKernel D) : Except BlockValidationError (List (Utxo D)) :=
  if k.header.height.isGenesis then .ok []
  else do
    let totalGuesserReward ← k.body.totalGuesserReward
    .ok [⟨k.header.guesserReceiverData.lockScriptHash, totalGuesserReward.toNativeCoins⟩]

def guesserFeeAdditionRecords (k : BlockKernel D) (blockHash : D) :
    Except BlockValidationError (List (AdditionRecord D)) := do
  let utxos ← k.guesserFeeUtxos
  .ok (utxos.map fun utxo => commit (ConsensusOps.hashVarlen (.utxo utxo)) blockHash
    k.header.guesserReceiverData.receiverDigest)

def allAdditionRecords (k : BlockKernel D) (blockHash : D) :
    Except BlockValidationError (List (AdditionRecord D)) := do
  let guesserAdditionRecords ← k.guesserFeeAdditionRecords blockHash
  .ok (k.body.transactionKernel.outputs ++ guesserAdditionRecords)

def unpackedInputs [MmrIndexing] (k : BlockKernel D) :
    Fallible BlockValidationError (List (RemovalRecord D)) := do
  match ← orPanic (RemovalRecordList.tryUnpack k.body.transactionKernel.inputs) with
  | .error _ => throw .removalRecordsUnpackFailure
  | .ok inputs => pure inputs

def mutatorSetUpdate [MmrIndexing] (k : BlockKernel D) (blockHash : D) :
    Fallible BlockValidationError (MutatorSetUpdate D) := do
  let outputs ← liftExcept (k.allAdditionRecords blockHash)
  let inputs ← k.unpackedInputs
  pure ⟨inputs, outputs⟩

end BlockKernel

end

/-! ## The mutator set after a block -/

/-- `BlockBody::mutator_set_accumulator_after`, which expects that additions succeed. -/
def BlockBody.mutatorSetAccumulatorAfter [MmrOps D] (b : BlockBody D)
    (guesserFeeAdditionRecords : List (AdditionRecord D)) : Option (MutatorSetAccumulator D) := do
  let (msa, outcome) ← MutatorSetUpdate.applyToAccumulator ⟨[], guesserFeeAdditionRecords⟩
    b.mutatorSetAccumulator
  match outcome with
  | .ok () => some msa
  | .error _ => none

namespace Block
variable [ConsensusOps D]

def guesserFeeAdditionRecords (b : Block D) :
    Except BlockValidationError (List (AdditionRecord D)) :=
  b.kernel.guesserFeeAdditionRecords b.hash

def mutatorSetAccumulatorAfter [MmrOps D] (b : Block D) :
    Fallible BlockValidationError (MutatorSetAccumulator D) := do
  let guesserFeeAdditionRecords ← liftExcept b.guesserFeeAdditionRecords
  orPanic (b.body.mutatorSetAccumulatorAfter guesserFeeAdditionRecords)

def mutatorSetUpdate [MmrIndexing] (b : Block D) :
    Fallible BlockValidationError (MutatorSetUpdate D) :=
  b.kernel.mutatorSetUpdate b.hash

/-! ## Validation -/

def shouldResetDifficulty (network : Network)
    (currentBlockTimestamp previousBlockTimestamp : Timestamp) : Bool :=
  match network.difficultyResetInterval with
  | none => false
  | some resetInterval => resetInterval ≤ currentBlockTimestamp - previousBlockTimestamp

/-- The difficulty that a block must have, by its timestamp and its predecessor. -/
def expectedDifficulty (b previousBlock : Block D) (network : Network) : Option Difficulty :=
  if shouldResetDifficulty network b.header.timestamp previousBlock.header.timestamp then
    some network.genesisDifficulty
  else
    difficultyControl b.header.timestamp previousBlock.header.timestamp
      previousBlock.header.difficulty network.targetBlockInterval previousBlock.header.height

/-- `consensus_claims`: the claim that the transaction is valid. -/
def consensusClaims [DigestOps D] (body : BlockBody D) (_rules : ConsensusRuleSet) :
    List (Claim D) :=
  [⟨ConsensusOps.singleProofHash, (DigestOps.values body.transactionKernel.mastHash).reverse, []⟩]

/-- `BlockProgram::claim`. -/
def blockProgramClaim [DigestOps D] (body : BlockBody D) (appendix : BlockAppendix D) : Claim D :=
  ⟨ConsensusOps.blockProgramHash, (DigestOps.values body.mastHash).reverse,
    appendix.claims.flatMap fun c => DigestOps.values (ConsensusOps.hashVarlen (.claim c))⟩

variable [DecidableEq D] [MmrOps D] [MmrIndexing] [DigestOps D]

def validateBlockProof (b : Block D) (network : Network) : Except BlockValidationError Unit :=
  let consensusRuleSet := ConsensusRuleSet.inferFrom network b.header.height
  -- 1.a)
  if ¬ ∀ c ∈ consensusClaims b.body consensusRuleSet, c ∈ b.appendix.claims then
    .error .appendixMissingClaim
  -- 1.b)
  else if maxNumClaims < b.appendix.claims.length then .error .appendixTooLarge
  else
    match b.proof with
    | .singleProof proof =>
      -- 1.d)
      if ConsensusOps.verify (blockProgramClaim b.body b.appendix) proof network then .ok ()
      else .error .proofValidity
    -- 1.c)
    | .genesis | .invalid => .error .proofQuality

/-- The checks 0.a to 0.g: the header fits the previous block. -/
def validateHeader (b previousBlock : Block D) (now : Timestamp) (network : Network) :
    Fallible BlockValidationError Unit := do
  ensure (previousBlock.header.height.next = b.header.height) .blockHeight
  ensure (previousBlock.hash = b.header.prevBlockDigest) .prevBlockDigest
  let (mmra, _) ← orPanic (MmrOps.append previousBlock.body.blockMmrAccumulator previousBlock.hash)
  ensure (mmra = b.body.blockMmrAccumulator) .blockMmrUpdate
  ensure (previousBlock.header.timestamp + network.minimumBlockTime ≤ b.header.timestamp)
    .minimumBlockTime
  let expectedDifficulty ← orPanic (b.expectedDifficulty previousBlock network)
  ensure (b.header.difficulty = expectedDifficulty) .difficulty
  ensure (b.header.cumulativeProofOfWork =
    previousBlock.header.cumulativeProofOfWork.add b.header.difficulty) .cumulativeProofOfWork
  ensure (b.header.timestamp < now + futuredatingLimit) .futureDating

/-- The checks 2.a to 2.e, and 2.m: the mutator set evolves with the transaction.  Returns the
unpacked inputs. -/
def validateMutatorSet (b previousBlock : Block D) :
    Fallible BlockValidationError (List (RemovalRecord D)) := do
  let inputs ← b.kernel.unpackedInputs
  let msaBefore ← previousBlock.mutatorSetAccumulatorAfter
  inputs.forM fun removalRecord => do
    let canRemove ← orPanic (msaBefore.canRemove removalRecord)
    ensure canRemove .removalRecordsValidity
  ensure (msaBefore.hash = b.body.transactionKernel.mutatorSetHash) .transactionMutatorSetMismatch
  -- sorting and dropping repetitions leaves the distinct index sets
  ensure ((inputs.map fun rr => rr.absoluteIndices.toArray).dedup.length = inputs.length)
    .removalRecordsUniqueness
  let (msa, outcome) ← orPanic (MutatorSetUpdate.applyToAccumulator
    ⟨inputs, b.body.transactionKernel.outputs⟩ msaBefore)
  ensure outcome.isOk .mutatorSetUpdateImpossible
  ensure (msa.hash = b.body.mutatorSetAccumulator.hash) .mutatorSetUpdateIntegrity
  pure inputs

/-- The checks 2.g and 2.h, on the coinbase. -/
def validateCoinbase (b : Block D) : Fallible BlockValidationError Unit :=
  match b.body.transactionKernel.coinbase with
  | some coinbase => do
    ensure (¬ blockSubsidy b.header.height < coinbase) .coinbaseTooBig
    ensure (¬ coinbase.isNegative) .negativeCoinbase
  | none => pure ()

/-- The checks 2.f to 2.l, on the amounts and counts of the transaction. -/
def validateTransaction (b : Block D) (rules : ConsensusRuleSet)
    (inputs : List (RemovalRecord D)) : Fallible BlockValidationError Unit := do
  let kernel := b.body.transactionKernel
  ensure (kernel.timestamp ≤ b.header.timestamp) .transactionTimestamp
  b.validateCoinbase
  ensure (¬ kernel.fee.isNegative) .negativeFee
  ensure (inputs.length ≤ rules.maxNumInputs) .tooManyInputs
  ensure (kernel.outputs.length ≤ rules.maxNumOutputs) .tooManyOutputs
  ensure (kernel.announcements.length ≤ rules.maxNumAnnouncements) .tooManyAnnouncements

def validate (b previousBlock : Block D) (now : Timestamp) (network : Network) :
    Fallible BlockValidationError Unit := do
  let consensusRuleSet := ConsensusRuleSet.inferFrom network b.header.height
  b.validateHeader previousBlock now network
  liftExcept (b.validateBlockProof network)
  -- 1.e)
  ensure (b.size ≤ consensusRuleSet.maxBlockSize) .maxSize
  let inputs ← b.validateMutatorSet previousBlock
  b.validateTransaction consensusRuleSet inputs

def isValid (b previousBlock : Block D) (now : Timestamp) (network : Network) : Option Bool :=
  (b.validate previousBlock now network).run.map Except.isOk

/-! ## Proof-of-work -/

end Block

def Difficulty.target [DigestOps D] (d : Difficulty) : Option D :=
  if d.toBigUint = 0 then none
  else
    let maxThreshold : D := DigestOps.new (List.replicate 5 (BFieldElement.modulus - 1))
    DigestOps.ofBigUint (DigestOps.toBigUint maxThreshold / d.toBigUint)

namespace Block
variable [ConsensusOps D] [DecidableEq D] [DigestOps D]

def isValidMockPow (b : Block D) (target : D) : Bool := DigestOps.le b.hash target

def powVerify (b : Block D) (target : D) : Option Bool :=
  (b.header.pow.validate b.powMastPaths target b.header.prevBlockDigest).run.map Except.isOk

def hasProofOfWork (b : Block D) (network : Network) (previousBlockHeader : BlockHeader D) :
    Option Bool :=
  if shouldResetDifficulty network b.header.timestamp previousBlockHeader.timestamp ∧
      b.header.difficulty = network.genesisDifficulty then some true
  else if b.header.difficulty < Difficulty.minimum then some false
  else do
    let target ← b.header.difficulty.target
    if network.allowsMockPow ∧ b.isValidMockPow target then some true
    else b.powVerify target

end Block

/-! ## The genesis block -/

section
variable [DigestOps D]

def premineMaxSize : NativeCurrencyAmount := .coins 800000000

def BlockHeader.genesis (network : Network) : BlockHeader D where
  version := 0
  height := .genesis
  prevBlockDigest := Tip5.zeroDigest
  timestamp := network.launchDate
  pow :=
    { root := DigestOps.new [0x49b65c974fa81f3e, 0x6f2f87aec83ada68, 0x236af11c284ed263,
        0xc5965b6ae3644d10, 0x0f5a2b594d4b810a]
      pathA := .replicate _ Tip5.zeroDigest
      pathB := .replicate _ Tip5.zeroDigest
      nonce := DigestOps.new [0, 0x0000fcefca46c809, 0xda3f97528a19e8c3, 0xf3a1a10f3888004d, 0] }
  cumulativeProofOfWork := .zero
  difficulty := network.genesisDifficulty
  guesserReceiverData :=
    { receiverDigest := DigestOps.new [0x5472756D7020746F, 0x20546F7572204665,
        0x646572616C205265, 0x73657276652C2052, 0x616D70696E672055]
      lockScriptHash := DigestOps.new [0x7020507265737375, 0x72652043616D7061,
        0x69676E206F6E2050, 0x6F77656C6C000000, 0x0A57534A00000000] }

def genesisAllocations : List (AdditionRecord D) :=
  [⟨DigestOps.ofHex
      "a04e994cb3c3b932041db40ae5232c427d3f6d503607b96613f4f8f9add668f02b692ebe59067d10"⟩,
    ⟨DigestOps.ofHex
      "0b79503c2c3cff27dc97edaba224ebe458d6f6c164e16b78af2721317e229d038232b6acf792b2f9"⟩]

def Block.genesis [MmrOps D] (network : Network) : Option (Block D) := do
  let genesisMutatorSet ← genesisAllocations.foldlM MutatorSetAccumulator.add .empty
  let genesisTxk : TransactionKernel D :=
    { inputs := []
      outputs := genesisAllocations
      announcements := []
      fee := .coins 0
      coinbase := some premineMaxSize
      timestamp := network.launchDate
      mutatorSetHash := MutatorSetAccumulator.empty.hash
      mergeBit := false }
  some
    { kernel :=
        { header := .genesis network
          body := ⟨genesisTxk, genesisMutatorSet, .empty, .empty⟩
          appendix := ⟨[]⟩ }
      proof := .genesis }

end

end NyksNode
