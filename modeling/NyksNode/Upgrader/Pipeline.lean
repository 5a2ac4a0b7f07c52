import NyksNode.Composer.Pipeline
import NyksNode.Lib.Effect
import NyksNode.Wallet.UtxoPool

/-!
# The transaction that the upgrader submits

The upgrader gives a transaction a single proof, and charges for it.  Before it submits the
transaction, it brings it up to date with the tip, and merges it with a gobbling transaction, which
has a negative fee and pays the upgrader.

The tip is asked for by every function that needs it: by the one that submits, by the updater, and
by the updater again if an old gobbling transaction is brought up to date.
-/

namespace NyksNode

open Effect (orPanic attempt read update outcome)

/-! ## What the upgrader does not do itself -/

/-- What the upgrader is told from outside.  Calls are numbered in the order in which they are
made. -/
structure Answers (D : Type) where
  tip : ℕ → Block D
  /-- `get_block`, by digest. -/
  getBlock : ℕ → D → Except RpcError (Option (Block D))
  submitTransaction : ℕ → Transaction D → Except RpcError Unit
  /-- `prove_sp_program`, which may be cancelled. -/
  proveSpProgram : ℕ → Claim D → Option NyksProof
  now : ℕ → Timestamp

/-- The calls that were made, and the cache of the gobbler, with the most recent entry first. -/
structure UpgraderState (D : Type) where
  calls : ℕ
  cache : List (D × Transaction D)

variable {D : Type}

def Answers.call {α : Type} (answer : ℕ → α) : Effect (UpgraderState D) Unit α := do
  let s ← read
  update fun s => { s with calls := s.calls + 1 }
  pure (answer s.calls)

/-- Make a call that may fail, as with the operator `?`. -/
def Answers.callOrGiveUp {α : Type} (answer : ℕ → Option α) : Effect (UpgraderState D) Unit α := do
  let response ← call answer
  attempt (response.elim (.error ()) .ok)

open Answers (call callOrGiveUp)

section
variable [Tip5 D] [DecidableEq D] [MmrOps D] [MmrIndexing] [ConsensusOps D] [DigestOps D]
variable (env : Answers D)

/-! ## The updater -/

namespace Updater

/-- The walk of `update_kernel_and_proof`: the mutator set with the given hash, and the blocks after
it in chronological order.  Nothing but the node's answers ends the walk. -/
def findOldMsa (oldHash : D) : ℕ → Block D → List (Block D) →
    Effect (UpgraderState D) Unit (MutatorSetAccumulator D × List (Block D))
  | 0, _, _ => orPanic none
  | fuel + 1, currentBlock, blocksAfter => do
    let msa ← orPanic currentBlock.mutatorSetAccumulatorAfter.unwrap
    if msa.hash = oldHash then pure (msa, blocksAfter)
    else do
      let block ← callOrGiveUp fun i =>
        (env.getBlock i currentBlock.header.prevBlockDigest).toOption.join
      findOldMsa oldHash fuel block (currentBlock :: blocksAfter)

/-- One round of the loop over the blocks: the mutator set and the inputs. -/
def applyBlock (x : MutatorSetAccumulator D × List (RemovalRecord D)) (block : Block D) :
    Effect (UpgraderState D) Unit (MutatorSetAccumulator D × List (RemovalRecord D)) := do
  let response ← orPanic block.mutatorSetUpdate.run
  let u ← attempt (response.mapError fun _ => ())
  let (progress, result) ← orPanic (u.applyToAccumulatorAndRecords x.1 x.2 [])
  orPanic result.toOption
  pure (progress.accumulator, progress.removalRecords)

def updateKernelAndProof (fuel : ℕ) (oldKernel : TransactionKernel D) (oldProof : NyksProof) :
    Effect (UpgraderState D) Unit (TransactionKernel D × NyksProof) := do
  let tipBlock ← call env.tip
  let tipMsa ← orPanic tipBlock.mutatorSetAccumulatorAfter.unwrap
  if tipMsa.hash = oldKernel.mutatorSetHash then pure (oldKernel, oldProof)
  else do
    let (oldMsa, blocksAfter) ← findOldMsa env oldKernel.mutatorSetHash fuel tipBlock []
    let (msa, inputs) ← blocksAfter.foldlM applyBlock (oldMsa, oldKernel.inputs)
    let newKernel := { oldKernel with inputs := inputs, mutatorSetHash := msa.hash }
    let newProof ← callOrGiveUp fun i => env.proveSpProgram i (singleProofClaim newKernel)
    pure (newKernel, newProof)

/-- `sync_transaction`, for transactions with a single proof only. -/
def syncTransaction (fuel : ℕ) (tx : Transaction D) :
    Effect (UpgraderState D) Unit (Transaction D) := do
  let oldProof ← orPanic tx.proof.asSingleProof
  let (newKernel, newProof) ← updateKernelAndProof env fuel tx.kernel oldProof
  pure ⟨newKernel, .singleProof newProof⟩

end Updater

/-- `MergeWitness::from_transactions`: the kernel of the merger. -/
def MergeWitness.fromTransactions (σ : Type) [ShuffleRng σ] (left right : Transaction D)
    (shuffleSeed : Vector (Fin 256) 32) : Option (TransactionKernel D) :=
  if left.proof.isSingleProof ∧ right.proof.isSingleProof then
    if left.kernel.coinbase.isNone ∧ right.kernel.coinbase.isNone then
      newKernel σ left.kernel right.kernel shuffleSeed
    else none
  else none

/-! ## The gobbler -/

def gobblerCacheSize : ℕ := 12

namespace Gobbler

def cacheLookup (cache : List (D × Transaction D)) (hash : D) : Option (Transaction D) :=
  (cache.find? (·.1 = hash)).map Prod.snd

def cacheInsert (cache : List (D × Transaction D)) (hash : D) (tx : Transaction D) :
    List (D × Transaction D) :=
  ((hash, tx) :: cache.filter (·.1 ≠ hash)).take gobblerCacheSize

variable [WalletOps D] (fuel : ℕ) (output : TxOutput D)

/-- `build_from_scratch`.  The wallet's own proofs, which the single proof stands on, succeed. -/
def buildFromScratch (msa : MutatorSetAccumulator D) :
    Effect (UpgraderState D) Unit (Transaction D) := do
  let fee ← orPanic output.amount.neg
  let timestamp ← call env.now
  let kernel := TransactionBuilder.build [output] fee none timestamp msa
  let proof ← callOrGiveUp fun i => env.proveSpProgram i (singleProofClaim kernel)
  pure ⟨kernel, .singleProof proof⟩

/-- Bring the most recent gobbling transaction up to date, if that leads to the given hash. -/
def updateMostRecent (targetHash : D) : Effect (UpgraderState D) Unit (Option (Transaction D)) := do
  let s ← read
  match s.cache.head? with
  | none => pure none
  | some (_, cachedTx) => do
    let updated ← outcome (Updater.syncTransaction env fuel cachedTx)
    pure (updated.filter fun tx => tx.kernel.mutatorSetHash = targetHash)

def fetchGobbler (msa : MutatorSetAccumulator D) :
    Effect (UpgraderState D) Unit (Transaction D) := do
  let s ← read
  match cacheLookup s.cache msa.hash with
  | some tx => pure tx
  | none => do
    let updated ← updateMostRecent env fuel msa.hash
    let tx ← updated.elim (buildFromScratch env output msa) pure
    update fun s => { s with cache := cacheInsert s.cache msa.hash tx }
    pure tx

variable (σ : Type) [ShuffleRng σ]

def gobble (tx : Transaction D) (msa : MutatorSetAccumulator D) :
    Effect (UpgraderState D) Unit (Transaction D) := do
  let gobblingTransaction ← fetchGobbler env fuel output msa
  let newKernel ← orPanic (MergeWitness.fromTransactions σ gobblingTransaction tx (.replicate 32 0))
  let proof ← callOrGiveUp fun i => env.proveSpProgram i (singleProofClaim newKernel)
  pure ⟨newKernel, .singleProof proof⟩

end Gobbler

/-! ## Submission -/

/-- How a submission ends, as it is logged. -/
inductive Submission where
  | notSynced
  | notGobbled
  | notSubmitted
  | submitted
  deriving DecidableEq, Repr

def submitUpgradedTransaction [WalletOps D] (fuel : ℕ) (output : TxOutput D) (σ : Type)
    [ShuffleRng σ] (tx : Transaction D) : Effect (UpgraderState D) Unit Submission := do
  let tipBlock ← call env.tip
  let tipMsa ← orPanic tipBlock.mutatorSetAccumulatorAfter.unwrap
  match ← outcome (Updater.syncTransaction env fuel tx) with
  | none => pure .notSynced
  | some synced =>
    match ← outcome (Gobbler.gobble env fuel output σ synced tipMsa) with
    | none => pure .notGobbled
    | some gobbled => do
      let response ← call fun i => env.submitTransaction i gobbled
      pure (if response.toBool then .submitted else .notSubmitted)

end

end NyksNode
