import NyksNode.Lib.Picking
import NyksNode.Wallet.BlockScan

/-!
# The pool of coins

The pool holds the coins of the wallet with their membership proofs, and an index from the Bloom
filter indices of a coin to its key.  Proofs are brought up to date only when a coin is to be spent:
the node is asked for the proofs of the selected coins, a coin whose new proof does not verify is
evicted, and the selection starts again.

The node is any function from the number of a request and its index sets to an answer.  The loops
have fuel; here `none` is a loop that is not finished, and a panic is an error, with its reason.
-/

namespace NyksNode

/-! ## Coins -/

class CoinOps (D : Type) where
  decodeAmount : List BFieldElement → Option NativeCurrencyAmount

def Timestamp.decode : List BFieldElement → Option Timestamp
  | [value] => some ⟨value⟩
  | _ => none

namespace Utxo
variable {D : Type} [DecidableEq D] [ConsensusOps D] [CoinOps D]

def getNativeCurrencyAmount (u : Utxo D) : Option NativeCurrencyAmount :=
  NativeCurrencyAmount.sum
    ((u.coins.filter fun c => c.typeScriptHash = ConsensusOps.nativeCurrencyHash).map
      fun c => (CoinOps.decodeAmount D c.state).getD .zero)

variable [WalletOps D]

def isKnownTypeScriptWithValidState (c : Coin D) : Bool :=
  ((CoinOps.decodeAmount D c.state).isSome && c.typeScriptHash = ConsensusOps.nativeCurrencyHash) ||
    ((Timestamp.decode c.state).isSome && c.typeScriptHash = WalletOps.timeLockHash)

def canSpendAt (u : Utxo D) (timestamp : Timestamp) : Bool :=
  u.coins.all isKnownTypeScriptWithValidState &&
    (u.coins.filter fun c => c.typeScriptHash = WalletOps.timeLockHash).all fun c =>
      match Timestamp.decode c.state with
      | some releaseDate => ¬ timestamp.value.val ≤ releaseDate.value.val
      | none => false

end Utxo

inductive MonitoredUtxoStatus (D : Type) where
  | unspent
  | spentInUnknownBlock
  | spentIn (blockHash : D) (blockHeight : BlockHeight)
  deriving DecidableEq, Repr

structure MonitoredUtxo (D : Type) where
  utxo : Utxo D
  membershipProof : MsMembershipProof D
  status : MonitoredUtxoStatus D
  inclusionBlock : Option (D × BlockHeight)
  deriving DecidableEq, Repr

@[ext]
structure UtxoKey (D : Type) where
  additionRecord : AdditionRecord D
  aoclIndex : ℕ
  deriving DecidableEq, Repr

section
variable {D : Type} [Tip5 D] [ConsensusOps D]

def IncomingUtxo.indices (u : IncomingUtxo D) : AbsoluteIndexSet :=
  .compute (ConsensusOps.hashVarlen (.utxo u.utxo)) u.senderRandomness u.receiverPreimage
    u.aoclLeafIndex

def IncomingUtxo.finalize [DecidableEq D] (u : IncomingUtxo D) (mp : MsMembershipProof D) :
    Option (MonitoredUtxo D) :=
  if u.senderRandomness = mp.senderRandomness ∧ u.receiverPreimage = mp.receiverPreimage ∧
      u.aoclLeafIndex = mp.aoclLeafIndex then
    some ⟨u.utxo, mp, .unspent, u.inclusionBlock⟩
  else none

namespace MonitoredUtxo

def mutatorSetItem (u : MonitoredUtxo D) : D := ConsensusOps.hashVarlen (.utxo u.utxo)

def additionRecord (u : MonitoredUtxo D) : AdditionRecord D :=
  u.membershipProof.additionRecord u.mutatorSetItem

def indices (u : MonitoredUtxo D) : AbsoluteIndexSet :=
  u.membershipProof.computeIndices u.mutatorSetItem

end MonitoredUtxo

def UtxoKey.new (u : MonitoredUtxo D) : UtxoKey D :=
  ⟨u.additionRecord, u.membershipProof.aoclLeafIndex⟩

end

/-! ## Requests -/

inductive RpcError where
  | server
  | restoreMembershipProof
  | submitTransaction
  | submitBlock
  | emptyFilteringConditions
  | invalidAddress
  | invalidMultiaddr
  | restrictedAccess
  deriving DecidableEq, Repr

structure RpcMsMembershipProofPrivacyPreserving (D : Type) where
  aoclAuthPaths : AssocMap ℕ (MmrMembershipProof D)
  targetChunks : ChunkDictionary D

def RpcMsMembershipProofPrivacyPreserving.extractMsMembershipProof {D : Type}
    (p : RpcMsMembershipProofPrivacyPreserving D) (aoclLeafIndex : ℕ)
    (senderRandomness receiverPreimage : D) : Option (MsMembershipProof D) :=
  (p.aoclAuthPaths.get? aoclLeafIndex).map fun path =>
    ⟨senderRandomness, receiverPreimage, path, aoclLeafIndex, p.targetChunks⟩

structure RpcMsMembershipSnapshot (D : Type) where
  syncedHash : D
  syncedMutatorSet : MutatorSetAccumulator D
  membershipProofs : List (RpcMsMembershipProofPrivacyPreserving D)

/-- What the node answers to the requests for membership proofs, by their number. -/
abbrev ProofServer (D : Type) :=
  ℕ → List AbsoluteIndexSet → Except RpcError (RpcMsMembershipSnapshot D)

/-- Why the pool panics. -/
inductive PoolPanic where
  | rpc (error : RpcError)
  /-- The assertion of `restore_proofs`. -/
  | noIndexSets
  | insufficientFunds
  /-- A restored proof has no path for the leaf. -/
  | noAuthPath
  | overflow
  /-- A restored proof has indices out of range. -/
  | membershipProof
  /-- An assertion of `finalize`, or a selected key that is not in the pool. -/
  | lookup
  deriving DecidableEq, Repr

/-! ## The pool -/

structure UtxoPool (D : Type) where
  utxos : AssocMap (UtxoKey D) (MonitoredUtxo D)
  index : AssocMap AbsoluteIndexSet (UtxoKey D)

structure UtxosSelection (D : Type) where
  utxos : List (MonitoredUtxo D)
  change : NativeCurrencyAmount
  msa : MutatorSetAccumulator D
  invalidatedUtxos : List (UtxoKey D × MonitoredUtxo D)

def restoreBatchLimit : ℕ := 128

namespace UtxoPool
variable {D : Type}

def new : UtxoPool D := ⟨.empty, .empty⟩

section
variable [DecidableEq D]

/-- One request for each chunk, from the given number on. -/
def requestChunks (server : ProofServer D) :
    ℕ → List (List AbsoluteIndexSet) → Except PoolPanic (List (RpcMsMembershipSnapshot D))
  | _, [] => .ok []
  | request, chunk :: chunks =>
    match server request chunk with
    | .error e => .error (.rpc e)
    | .ok snapshot =>
      match requestChunks server (request + 1) chunks with
      | .error e => .error e
      | .ok snapshots => .ok (snapshot :: snapshots)

/-- `restore_proofs`: the proofs, the mutator set they belong to, and the number of the next
request.  The proofs are asked for again if the tip changes between two chunks. -/
def restoreProofs (server : ProofServer D) (indexSets : List AbsoluteIndexSet) : ℕ → ℕ →
    Fallible PoolPanic
      (List (RpcMsMembershipProofPrivacyPreserving D) × MutatorSetAccumulator D × ℕ)
  | 0, _ => .unfinished
  | fuel + 1, request => do
    let snapshots ← liftExcept (requestChunks server request (batches restoreBatchLimit indexSets))
    match snapshots, snapshots.getLast? with
    | first :: _, some last =>
      if snapshots.any fun s => s.syncedHash ≠ first.syncedHash then
        restoreProofs server indexSets fuel (request + snapshots.length)
      else
        pure (snapshots.flatMap (·.membershipProofs), last.syncedMutatorSet,
          request + snapshots.length)
    | _, _ => throw .noIndexSets

end

variable [DecidableEq D] [Tip5 D] [ConsensusOps D]

def insertUtxo (pool : UtxoPool D) (u : MonitoredUtxo D) : UtxoPool D :=
  ⟨pool.utxos.insert (.new u) u, pool.index.insert u.indices (.new u)⟩

/-- `import_utxo`: whether the coin is new, and the pool. -/
def importUtxo (pool : UtxoPool D) (u : MonitoredUtxo D) : Bool × UtxoPool D :=
  ((pool.utxos.get? (.new u)).isNone, pool.insertUtxo u)

/-- The new coin of a received one and its restored proof. -/
def finalizeWith (c : IncomingUtxo D × RpcMsMembershipProofPrivacyPreserving D) :
    Fallible PoolPanic (MonitoredUtxo D) := do
  let mp ← .orElse (c.2.extractMsMembershipProof c.1.aoclLeafIndex c.1.senderRandomness
    c.1.receiverPreimage) .noAuthPath
  .orElse (c.1.finalize mp) .lookup

/-- `add_utxos`: the new coins with their keys, the pool, and the number of the next request. -/
def addUtxos (server : ProofServer D) (fuel request : ℕ) (pool : UtxoPool D)
    (utxos : List (IncomingUtxo D)) :
    Fallible PoolPanic (List (UtxoKey D × MonitoredUtxo D) × UtxoPool D × ℕ) :=
  if utxos.isEmpty then pure ([], pool, request)
  else do
    let (proofs, _, request) ← restoreProofs server (utxos.map (·.indices)) fuel request
    let added ← (utxos.zip proofs).mapM finalizeWith
    pure (added.map fun u => (.new u, u), added.foldl insertUtxo pool, request)

/-! ## Selecting -/

section
variable [CoinOps D] [WalletOps D]

/-- A coin that is not taken into account. -/
def passesOver (timestamp : Timestamp) (exclude : Option (List (UtxoKey D)))
    (e : UtxoKey D × MonitoredUtxo D) : Bool :=
  (exclude.any fun keys => e.1 ∈ keys) || !e.2.utxo.canSpendAt timestamp

def addCoin (total : NativeCurrencyAmount) (e : UtxoKey D × MonitoredUtxo D) :
    Option NativeCurrencyAmount :=
  e.2.utxo.getNativeCurrencyAmount.bind total.add

/-- The candidates and their total. -/
def candidates [IterOrder] (pool : UtxoPool D) (amount : NativeCurrencyAmount)
    (timestamp : Timestamp) (exclude : Option (List (UtxoKey D))) :
    Option (List (UtxoKey D × MonitoredUtxo D) × NativeCurrencyAmount) :=
  pickUntil (fun total : NativeCurrencyAmount => amount.nau ≤ total.nau)
    (passesOver timestamp exclude) addCoin .zero (IterOrder.iter pool.utxos.entries)

variable [MmrOps D]

/-- A candidate is refreshed with its restored proof, or marked as spent.  The state is the pool,
the selected coins and the keys of the spent ones. -/
def refreshCandidate (msa : MutatorSetAccumulator D)
    (s : UtxoPool D × List (MonitoredUtxo D) × List (UtxoKey D))
    (c : UtxoKey D × RpcMsMembershipProofPrivacyPreserving D) :
    Fallible PoolPanic (UtxoPool D × List (MonitoredUtxo D) × List (UtxoKey D)) := do
  let existing ← .orElse (s.1.utxos.get? c.1) .lookup
  let mp ← .orElse (c.2.extractMsMembershipProof existing.membershipProof.aoclLeafIndex
    existing.membershipProof.senderRandomness existing.membershipProof.receiverPreimage) .noAuthPath
  let valid ← .orElse (msa.verify existing.mutatorSetItem mp) .membershipProof
  if valid then
    let updated := { existing with membershipProof := mp }
    pure ({ s.1 with utxos := s.1.utxos.put c.1 updated }, s.2.1 ++ [updated], s.2.2)
  else pure (s.1, s.2.1, s.2.2 ++ [c.1])

/-- A spent coin is evicted from the pool and from the index. -/
def evict (s : UtxoPool D × List (UtxoKey D × MonitoredUtxo D)) (key : UtxoKey D) :
    Fallible PoolPanic (UtxoPool D × List (UtxoKey D × MonitoredUtxo D)) := do
  let utxo ← .orElse (s.1.utxos.get? key) .lookup
  pure (⟨s.1.utxos.erase key, s.1.index.erase utxo.indices⟩,
    s.2 ++ [(key, { utxo with status := .spentInUnknownBlock })])

/-- How a round of the selection ends. -/
inductive Round (D : Type) where
  | selected (selection : UtxosSelection D) (pool : UtxoPool D) (request : ℕ)
  | retry (pool : UtxoPool D) (invalidated : List (UtxoKey D × MonitoredUtxo D)) (request : ℕ)

def selectRound [IterOrder] (server : ProofServer D) (amount : NativeCurrencyAmount)
    (timestamp : Timestamp) (exclude : Option (List (UtxoKey D))) (fuel : ℕ) (pool : UtxoPool D)
    (invalidated : List (UtxoKey D × MonitoredUtxo D)) (request : ℕ) :
    Fallible PoolPanic (Round D) := do
  let (picked, total) ← .orElse (pool.candidates amount timestamp exclude) .overflow
  let change ← .orElse (total.checkedSub amount) .insufficientFunds
  let (proofs, msa, request) ← restoreProofs server (picked.map (·.2.indices)) fuel request
  let (pool, selected, spent) ←
    ((picked.map (·.1)).zip proofs).foldlM (refreshCandidate msa) (pool, [], [])
  if spent.isEmpty then pure (.selected ⟨selected, change, msa, invalidated⟩ pool request)
  else do
    let (pool, invalidated) ← spent.foldlM evict (pool, invalidated)
    pure (.retry pool invalidated request)

def selectLoop [IterOrder] (server : ProofServer D) (amount : NativeCurrencyAmount)
    (timestamp : Timestamp) (exclude : Option (List (UtxoKey D))) (fuel : ℕ) : ℕ → UtxoPool D →
    List (UtxoKey D × MonitoredUtxo D) → ℕ → Fallible PoolPanic (UtxosSelection D × UtxoPool D × ℕ)
  | 0, _, _, _ => .unfinished
  | rounds + 1, pool, invalidated, request => do
    match ← selectRound server amount timestamp exclude fuel pool invalidated request with
    | .selected selection pool request => pure (selection, pool, request)
    | .retry pool invalidated request =>
      selectLoop server amount timestamp exclude fuel rounds pool invalidated request

/-- `select_utxos`: the selection, the pool, and the number of the next request. -/
def selectUtxos [IterOrder] (server : ProofServer D) (fuel request : ℕ) (pool : UtxoPool D)
    (amount : NativeCurrencyAmount) (timestamp : Timestamp)
    (exclude : Option (List (UtxoKey D))) :
    Fallible PoolPanic (UtxosSelection D × UtxoPool D × ℕ) :=
  selectLoop server amount timestamp exclude fuel fuel pool [] request

end

end UtxoPool

/-! ## Symbolic coins -/

namespace SymbolicDigest

instance : CoinOps SymbolicDigest where
  decodeAmount
    | [a] => some ⟨a.val⟩
    | _ => none

instance : WalletOps SymbolicDigest where
  timeLockHash := .atom 4
  createPrivateNote recipient _ _ := ⟨[1, recipient.receiverIdentifier]⟩

end SymbolicDigest

end NyksNode
