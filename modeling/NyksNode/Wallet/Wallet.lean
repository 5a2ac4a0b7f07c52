import NyksNode.Mempool.Transaction
import NyksNode.Wallet.ChainScanner
import NyksNode.Wallet.UtxoPool

/-!
# The wallet

The wallet puts its parts together: the addresses it has derived, the scanners of the chain and of
the mempool, the pool of coins, and a queue of events for the next call of `sync`.

What the node answers during a call is an argument of the call.  A call that gets an error from the
node where it unwraps the answer panics.
-/

namespace NyksNode

open Effect

/-! ## Addresses -/

/-- What is derived from the secret of the wallet. -/
structure WalletEntropy (D : Type) where
  /-- `derive`: the viewing key with its address. -/
  derive : KeyType → ℕ → ViewingKey D
  generateSenderRandomness : BlockHeight → D → D

structure AddressBook (D : Type) where
  entropy : WalletEntropy D
  generation : AssocMap ℕ (ViewingKey D)
  symmetric : AssocMap ℕ (ViewingKey D)

namespace AddressBook
variable {D : Type}

def byIndex (b : AddressBook D) : KeyType → AssocMap ℕ (ViewingKey D)
  | .generation => b.generation
  | .symmetric => b.symmetric

def deriveThrough (entropy : WalletEntropy D) (keyType : KeyType) (index : ℕ) :
    AssocMap ℕ (ViewingKey D) :=
  (List.range (index + 1)).foldl (fun m i => m.put i (entropy.derive keyType i)) .empty

def withAddressIndexes (entropy : WalletEntropy D) (generationIndex symmetricIndex : ℕ) :
    AddressBook D where
  entropy := entropy
  generation := deriveThrough entropy .generation (generationIndex + 1)
  symmetric := deriveThrough entropy .symmetric (symmetricIndex + 1)

def viewingKeys [IterOrder] (b : AddressBook D) : List (ViewingKey D) :=
  (IterOrder.iter [b.generation, b.symmetric]).flatMap (·.values)

def lastIndex (b : AddressBook D) (keyType : KeyType) : Option ℕ := (b.byIndex keyType).keys.max?

def latestAddress (b : AddressBook D) (keyType : KeyType) : Option (Address D) :=
  ((b.lastIndex keyType).bind (b.byIndex keyType).get?).map (·.address)

def record (b : AddressBook D) (keyType : KeyType) (index : ℕ) (key : ViewingKey D) :
    AddressBook D :=
  match keyType with
  | .generation => { b with generation := b.generation.put index key }
  | .symmetric => { b with symmetric := b.symmetric.put index key }

/-- `next_address`: the viewing key with its address, its index, and the book. -/
def nextAddress (b : AddressBook D) (keyType : KeyType) : ViewingKey D × ℕ × AddressBook D :=
  let index := ((b.lastIndex keyType).map (· + 1)).getD 1
  let key := b.entropy.derive keyType index
  (key, index, b.record keyType index key)

/-- `spending_key`, as the type and the index of the key. -/
def spendingKey [DecidableEq D] [IterOrder] (b : AddressBook D) (lockScriptHash : D) :
    Option (KeyType × ℕ) :=
  (IterOrder.iter [KeyType.generation, .symmetric]).findSome? fun keyType =>
    ((b.byIndex keyType).entries.find? fun e => e.2.address.lockScriptHash = lockScriptHash).map
      fun e => (keyType, e.1)

end AddressBook

/-! ## The mempool -/

/-- `MempoolScanner`; the index is that of the pool. -/
structure MempoolScanner (D : Type) where
  checkedIds : List D
  pendingSpends : AssocMap (UtxoKey D) (List D)

namespace MempoolScanner
variable {D : Type}

def new : MempoolScanner D := ⟨[], .empty⟩

def pendingSpendUtxos (s : MempoolScanner D) : List (UtxoKey D) := s.pendingSpends.keys

variable [DecidableEq D]

def idsToFetch (s : MempoolScanner D) (mempoolIds : List D) : List D :=
  mempoolIds.filter fun id => id ∉ s.checkedIds

/-- One input of a transaction: the pending spends, and the coins of the wallet it spends. -/
def scanInput (index : AssocMap AbsoluteIndexSet (UtxoKey D)) (id : D)
    (s : AssocMap (UtxoKey D) (List D) × List (UtxoKey D)) (input : RemovalRecord D) :
    AssocMap (UtxoKey D) (List D) × List (UtxoKey D) :=
  match index.get? input.absoluteIndices with
  | none => s
  | some key => (s.1.put key (((s.1.get? key).getD []).insert id), s.2 ++ [key])

def scan (index : AssocMap AbsoluteIndexSet (UtxoKey D)) (s : MempoolScanner D) :
    List (D × TransactionKernel D) → List (D × List (UtxoKey D)) × MempoolScanner D
  | [] => ([], s)
  | (id, transaction) :: rest =>
    let scanned := transaction.inputs.foldl (scanInput index id) (s.pendingSpends, [])
    let r := scan index ⟨s.checkedIds.insert id, scanned.1⟩ rest
    (if scanned.2.isEmpty then r.1 else (id, scanned.2) :: r.1, r.2)

/-- The entries of `evict_stale`: ids that are no longer there are dropped, and then coins without
an id. -/
def liveSpends (currentMempoolIds : List D) (m : AssocMap (UtxoKey D) (List D)) :
    AssocMap (UtxoKey D) (List D) where
  entries := (m.entries.map fun e => (e.1, e.2.filter (· ∈ currentMempoolIds))).filter fun e =>
    !e.2.isEmpty
  nodup_keys := by
    have hkeys : (m.entries.map fun e => (e.1, e.2.filter (· ∈ currentMempoolIds))).map (·.1) =
        m.entries.map (·.1) := by
      rw [List.map_map]
      rfl
    exact (hkeys ▸ m.nodup_keys).sublist (List.filter_sublist.map _)

def evictStale (s : MempoolScanner D) (currentMempoolIds : List D) : MempoolScanner D :=
  ⟨s.checkedIds.filter (· ∈ currentMempoolIds), liveSpends currentMempoolIds s.pendingSpends⟩

end MempoolScanner

/-! ## Calls -/

inductive WalletEvent (D : Type) where
  | utxoReceived (key : UtxoKey D) (utxo : MonitoredUtxo D)
  | utxoInvalidated (key : UtxoKey D) (utxo : MonitoredUtxo D)
  | utxosOutgoing (id : D) (utxos : List (UtxoKey D))
  | addressGenerated (keyType : KeyType) (index : ℕ) (address : Address D)
  deriving DecidableEq, Repr

inductive SyncError (D : Type) where
  | rpc (error : RpcError)
  | advance (error : AdvanceError D)
  deriving DecidableEq, Repr

/-- What the node answers during a call; a request that can be repeated has a number. -/
structure RpcAnswers (D : Type) where
  height : Except RpcError BlockHeight
  transactions : Except RpcError (List D)
  getTransactionKernel : ℕ → D → Except RpcError (Option (TransactionKernel D))
  getBlocks : BlockHeight → BlockHeight → Except RpcError (List (RpcWalletBlock D))
  restoreMembershipProof : ProofServer D
  submitTransaction : TransactionKernel D → Except RpcError Unit

structure Wallet (D : Type) where
  addresses : AddressBook D
  scanner : ChainScanner D
  mempoolScanner : MempoolScanner D
  utxos : UtxoPool D
  network : Network
  pendingEvents : List (WalletEvent D)

/-- `SpendableUtxo`, with the type and the index of its key. -/
structure SpendableUtxo (D : Type) where
  utxo : Utxo D
  membershipProof : MsMembershipProof D
  spendingKey : KeyType × ℕ

/-- What the builder makes: the inputs and outputs, and the kernel. -/
structure BuilderTransaction (D : Type) where
  inputs : List (SpendableUtxo D)
  outputs : List (TxOutput D)
  kernel : TransactionKernel D

def walletBatchSize : ℕ := 100

namespace Wallet
variable {D : Type}

def newWithIndexes [IterOrder] (entropy : WalletEntropy D) (height : Option BlockHeight)
    (network : Network) (generationIndex symmetricIndex : ℕ) : Wallet D :=
  let addresses := AddressBook.withAddressIndexes entropy generationIndex symmetricIndex
  { addresses := addresses
    scanner := .new height none addresses.viewingKeys network
    mempoolScanner := .new
    utxos := .new
    network := network
    pendingEvents := [] }

def new [IterOrder] (entropy : WalletEntropy D) (height : Option BlockHeight) (network : Network) :
    Wallet D :=
  newWithIndexes entropy height network 0 0

variable {ε : Type}

def queue (events : List (WalletEvent D)) : Effect (Wallet D) ε Unit :=
  Effect.update fun w => { w with pendingEvents := w.pendingEvents ++ events }

def nextAddress (keyType : KeyType) : Effect (Wallet D) ε (Address D) := do
  let w ← Effect.read
  let (key, index, addresses) := w.addresses.nextAddress keyType
  Effect.update fun w => { w with addresses := addresses, scanner := w.scanner.addKey key }
  queue [.addressGenerated keyType index key.address]
  pure key.address

def drainPendingEvents : Effect (Wallet D) ε (List (WalletEvent D)) := do
  let w ← Effect.read
  Effect.update fun w => { w with pendingEvents := [] }
  pure w.pendingEvents

section Unlocking
variable [DecidableEq D] [IterOrder]

def unlockWith (addresses : AddressBook D) (utxos : List (MonitoredUtxo D)) :
    Option (List (SpendableUtxo D)) :=
  utxos.mapM fun u => (addresses.spendingKey u.utxo.lockScriptHash).map fun key =>
    ⟨u.utxo, u.membershipProof, key⟩

def unlockUtxos (utxos : List (MonitoredUtxo D)) :
    Effect (Wallet D) ε (List (SpendableUtxo D)) := do
  let w ← Effect.read
  Effect.orPanic (unlockWith w.addresses utxos)

variable [Tip5 D] [ConsensusOps D]

/-- The loop of `import_utxos`; a coin that is already there fails an assertion. -/
def importAll (pool : UtxoPool D) (utxos : List (MonitoredUtxo D)) : Option (UtxoPool D) :=
  utxos.foldlM (fun pool u =>
    let (isUnique, pool) := pool.importUtxo u
    if isUnique then some pool else none) pool

def importUtxos (utxos : List (MonitoredUtxo D)) : Effect (Wallet D) ε Unit := do
  let _ ← unlockUtxos utxos
  let w ← Effect.read
  let pool ← Effect.orPanic (importAll w.utxos utxos)
  Effect.update fun w => { w with utxos := pool }

end Unlocking

section Syncing
variable [DecidableEq D]

/-- The kernels of transactions, from the given request on; a transaction that is gone is
skipped. -/
def fetchKernels (rpc : RpcAnswers D) : ℕ → List D → Option (List (D × TransactionKernel D))
  | _, [] => some []
  | request, id :: ids => do
    let kernel ← (rpc.getTransactionKernel request id).toOption
    let rest ← fetchKernels rpc (request + 1) ids
    some ((kernel.map fun k => (id, k)).toList ++ rest)

/-- The events that a scan of the mempool finds, and the scanner after it. -/
def scanMempool (rpc : RpcAnswers D) (index : AssocMap AbsoluteIndexSet (UtxoKey D))
    (s : MempoolScanner D) : Option (List (WalletEvent D) × MempoolScanner D) := do
  let mempoolTxs ← rpc.transactions.toOption
  let kernels ← fetchKernels rpc 0 (s.idsToFetch mempoolTxs)
  let (outgoing, s) := s.scan index kernels
  some (outgoing.map fun o => .utxosOutgoing o.1 o.2, s.evictStale mempoolTxs)

def syncMempool (rpc : RpcAnswers D) : Effect (Wallet D) ε (List (WalletEvent D)) := do
  let w ← Effect.read
  let (outgoing, scanner) ← Effect.orPanic (scanMempool rpc w.utxos.index w.mempoolScanner)
  Effect.update fun w => { w with mempoolScanner := scanner }
  pure outgoing

/-- The last height of a request for blocks from a height on. -/
def lastRequested (first networkHeight : BlockHeight) : BlockHeight :=
  let last := first.addUsize (walletBatchSize - 1)
  if networkHeight < last then networkHeight else last

variable [Tip5 D] [ConsensusOps D] [DigestOps D] [NoteOps D] [MmrOps D]

/-- The part of `sync_chain` after the request. -/
def receiveBlocks (rpc : RpcAnswers D) (fuel : ℕ) (blocks : List (RpcWalletBlock D)) :
    Effect (Wallet D) (SyncError D) (List (WalletEvent D)) := do
  let confirmed ← Effect.focus (·.scanner) (fun w scanner => { w with scanner := scanner })
    .advance (ChainScanner.advance blocks)
  let w ← Effect.read
  let (added, pool, _) ← Effect.orPanic
    (w.utxos.addUtxos rpc.restoreMembershipProof fuel 0 confirmed).unwrap
  Effect.update fun w => { w with utxos := pool }
  pure (added.map fun e => .utxoReceived e.1 e.2)

/-- The blocks of `sync_chain`, from the one after the scan tip on. -/
def requestBlocks (rpc : RpcAnswers D) (networkHeight tip : BlockHeight) :
    Except RpcError (List (RpcWalletBlock D)) :=
  rpc.getBlocks tip.next (lastRequested tip.next networkHeight)

def syncChain (rpc : RpcAnswers D) (fuel : ℕ) (networkHeight : BlockHeight) :
    Effect (Wallet D) (SyncError D) (Option (List (WalletEvent D))) := do
  let w ← Effect.read
  if networkHeight ≤ w.scanner.tipHeight then pure none
  else do
    let blocks ← Effect.attempt
      ((requestBlocks rpc networkHeight w.scanner.tipHeight).mapError .rpc)
    let events ← receiveBlocks rpc fuel blocks
    pure (some events)

def sync (rpc : RpcAnswers D) (fuel : ℕ) :
    Effect (Wallet D) (SyncError D) (List (WalletEvent D)) := do
  let networkHeight ← Effect.orPanic rpc.height.toOption
  let events ← drainPendingEvents
  let outgoing ← syncMempool rpc
  let chainEvents ← syncChain rpc fuel networkHeight
  pure (events ++ outgoing ++ chainEvents.getD [])

end Syncing

section Sending
variable [DecidableEq D] [Tip5 D] [ConsensusOps D] [CoinOps D] [WalletOps D] [MmrOps D]
  [IterOrder]

def selectInputs (rpc : RpcAnswers D) (fuel : ℕ) (target : NativeCurrencyAmount)
    (timestamp : Timestamp) : Effect (Wallet D) ε (UtxosSelection D) := do
  let w ← Effect.read
  let (selection, pool, _) ← Effect.orPanic (w.utxos.selectUtxos rpc.restoreMembershipProof fuel 0
    target timestamp (some w.mempoolScanner.pendingSpendUtxos)).unwrap
  Effect.update fun w => { w with utxos := pool }
  queue (selection.invalidatedUtxos.map fun e => .utxoInvalidated e.1 e.2)
  pure selection

/-- `TransactionBuilder::build`, for a transaction without a coinbase. -/
def build (inputs : List (SpendableUtxo D)) (outputs : List (TxOutput D))
    (fee : NativeCurrencyAmount) (timestamp : Timestamp) (msa : MutatorSetAccumulator D) :
    BuilderTransaction D where
  inputs := inputs
  outputs := outputs
  kernel :=
    { inputs := inputs.map fun u =>
        msa.drop (ConsensusOps.hashVarlen (.utxo u.utxo)) u.membershipProof
      outputs := outputs.map (·.additionRecord)
      announcements := outputs.map (·.announcement)
      fee := fee
      coinbase := none
      timestamp := timestamp
      mutatorSetHash := msa.hash
      mergeBit := false }

def sentOutputs (entropy : WalletEntropy D) (height : BlockHeight) (recipient : Address D)
    (amount : NativeCurrencyAmount) (changeAddress : Address D) (change : NativeCurrencyAmount) :
    List (TxOutput D) :=
  [⟨amount, none, entropy.generateSenderRandomness height recipient.privacyDigest, recipient⟩,
    ⟨change, none, entropy.generateSenderRandomness height changeAddress.privacyDigest,
      changeAddress⟩]

def buildTransaction (recipient : Address D) (amount fee : NativeCurrencyAmount)
    (timestamp : Timestamp) (height : BlockHeight) (selection : UtxosSelection D) :
    Effect (Wallet D) ε (BuilderTransaction D) := do
  let inputs ← unlockUtxos selection.utxos
  let w ← Effect.read
  let changeAddress ← Effect.orPanic (w.addresses.latestAddress .symmetric)
  let _ ← nextAddress .symmetric
  pure (build inputs
    (sentOutputs w.addresses.entropy height recipient amount changeAddress selection.change)
    fee timestamp selection.msa)

/-- The part of `send` before the proof. -/
def prepareTransaction (rpc : RpcAnswers D) (fuel : ℕ) (recipient : Address D)
    (amount fee : NativeCurrencyAmount) (timestamp : Timestamp) :
    Effect (Wallet D) ε (BuilderTransaction D) := do
  let target ← Effect.orPanic (amount.add fee)
  let selection ← selectInputs rpc fuel target timestamp
  let w ← Effect.read
  buildTransaction recipient amount fee timestamp w.scanner.tipHeight selection

/-- `send`.  The proof does not change the kernel. -/
def send [DigestOps D] [TransactionOps D] (rpc : RpcAnswers D) (fuel : ℕ) (recipient : Address D)
    (amount fee : NativeCurrencyAmount) (timestamp : Timestamp) : Effect (Wallet D) RpcError D := do
  let transaction ← prepareTransaction rpc fuel recipient amount fee timestamp
  Effect.attempt (rpc.submitTransaction transaction.kernel)
  pure transaction.kernel.txid

end Sending

/-! ## What a call leads to -/

section Syncing
variable [DecidableEq D] [Tip5 D] [ConsensusOps D] [DigestOps D] [NoteOps D] [MmrOps D]

/-- What a batch of blocks can lead to. -/
inductive Received (rpc : RpcAnswers D) (fuel : ℕ) (blocks : List (RpcWalletBlock D))
    (w : Wallet D) : Except (SyncError D) (List (WalletEvent D)) → Wallet D → Prop
  | failed {e : AdvanceError D} {scanner : ChainScanner D}
      (hadvance : (ChainScanner.advance blocks).start w.scanner = some (.error e, scanner)) :
      Received rpc fuel blocks w (.error (.advance e)) { w with scanner := scanner }
  | added {confirmed : List (IncomingUtxo D)} {scanner : ChainScanner D}
      {added : List (UtxoKey D × MonitoredUtxo D)} {pool : UtxoPool D} {request : ℕ}
      (hadvance : (ChainScanner.advance blocks).start w.scanner = some (.ok confirmed, scanner))
      (hadd : (w.utxos.addUtxos rpc.restoreMembershipProof fuel 0 confirmed).Returns
        (added, pool, request)) :
      Received rpc fuel blocks w (.ok (added.map fun e => .utxoReceived e.1 e.2))
        { w with scanner := scanner, utxos := pool }

variable {rpc : RpcAnswers D} {fuel : ℕ} {w w' : Wallet D}

theorem received_of_start {blocks : List (RpcWalletBlock D)}
    {outcome : Except (SyncError D) (List (WalletEvent D))}
    (h : (receiveBlocks rpc fuel blocks).start w = some (outcome, w')) :
    Received rpc fuel blocks w outcome w' := by
  rw [receiveBlocks, start_bind_eq_some_iff, start_focus] at h
  cases h with
  | inr herror =>
    obtain ⟨e, hfocus, rfl⟩ := herror
    obtain ⟨⟨result, scanner⟩, hadvance, heq⟩ := Option.map_eq_some_iff.mp hfocus
    cases result with
    | ok confirmed => cases heq
    | error e =>
      cases heq
      exact .failed hadvance
  | inl hok =>
    obtain ⟨confirmed, w₁, hfocus, h⟩ := hok
    obtain ⟨⟨result, scanner⟩, hadvance, heq⟩ := Option.map_eq_some_iff.mp hfocus
    cases result with
    | error e => cases heq
    | ok confirmed =>
      cases heq
      rw [start_read_bind, start_orPanic_bind, Option.bind_eq_some_iff] at h
      obtain ⟨⟨added, pool, request⟩, hadd, h⟩ := h
      cases h
      exact .added hadvance (Fallible.unwrap_eq_some_iff.mp hadd)

/-- What following the chain can lead to. -/
inductive ChainSynced (rpc : RpcAnswers D) (fuel : ℕ) (networkHeight : BlockHeight)
    (w : Wallet D) : Except (SyncError D) (Option (List (WalletEvent D))) → Wallet D → Prop
  | caughtUp (htip : networkHeight ≤ w.scanner.tipHeight) :
      ChainSynced rpc fuel networkHeight w (.ok none) w
  | refused {e : RpcError} (htip : ¬ networkHeight ≤ w.scanner.tipHeight)
      (hblocks : requestBlocks rpc networkHeight w.scanner.tipHeight = .error e) :
      ChainSynced rpc fuel networkHeight w (.error (.rpc e)) w
  | received {blocks : List (RpcWalletBlock D)} {w' : Wallet D}
      {result : Except (SyncError D) (List (WalletEvent D))}
      (htip : ¬ networkHeight ≤ w.scanner.tipHeight)
      (hblocks : requestBlocks rpc networkHeight w.scanner.tipHeight = .ok blocks)
      (hreceived : Received rpc fuel blocks w result w') :
      ChainSynced rpc fuel networkHeight w (result.map some) w'

theorem chainSynced_of_start {networkHeight : BlockHeight}
    {outcome : Except (SyncError D) (Option (List (WalletEvent D)))}
    (h : (syncChain rpc fuel networkHeight).start w = some (outcome, w')) :
    ChainSynced rpc fuel networkHeight w outcome w' := by
  rw [syncChain, start_read_bind] at h
  by_cases htip : networkHeight ≤ w.scanner.tipHeight
  · rw [if_pos htip] at h
    cases h
    exact .caughtUp htip
  · rw [if_neg htip] at h
    cases hblocks : requestBlocks rpc networkHeight w.scanner.tipHeight with
    | error e =>
      rw [hblocks] at h
      cases h
      exact .refused htip hblocks
    | ok blocks =>
      have hreceive : (do
          let events ← receiveBlocks rpc fuel blocks
          pure (some events)).start w = some (outcome, w') := by
        rw [hblocks] at h
        exact h
      cases start_bind_eq_some_iff.mp hreceive with
      | inl hok =>
        obtain ⟨events, w₁, hstart, hpure⟩ := hok
        cases hpure
        exact .received htip hblocks (received_of_start hstart)
      | inr herror =>
        obtain ⟨e, hstart, rfl⟩ := herror
        exact .received htip hblocks (received_of_start hstart)

section
omit [Tip5 D] [ConsensusOps D] [DigestOps D] [NoteOps D] [MmrOps D]

theorem start_syncMempool (rpc : RpcAnswers D) (w : Wallet D) :
    (syncMempool rpc : Effect (Wallet D) ε _).start w =
      (scanMempool rpc w.utxos.index w.mempoolScanner).map fun r =>
        (.ok r.1, { w with mempoolScanner := r.2 }) := by
  rw [syncMempool, start_read_bind, start_orPanic_bind]
  cases scanMempool rpc w.utxos.index w.mempoolScanner <;> rfl

theorem exists_of_mem_scanMempool {index : AssocMap AbsoluteIndexSet (UtxoKey D)}
    {s s' : MempoolScanner D} {found : List (WalletEvent D)}
    (h : scanMempool rpc index s = some (found, s')) {e : WalletEvent D} (he : e ∈ found) :
    ∃ id utxos, e = .utxosOutgoing id utxos := by
  simp only [scanMempool, bind_eq_some, Option.some_inj, Prod.mk.injEq] at h
  obtain ⟨_, _, _, _, rfl, _⟩ := h
  obtain ⟨o, -, rfl⟩ := List.mem_map.mp he
  exact ⟨o.1, o.2, rfl⟩

end

/-- A call of `sync`: the queue is drained and the mempool is scanned before the chain is
followed. -/
theorem exists_of_start_sync {outcome : Except (SyncError D) (List (WalletEvent D))}
    (h : (sync rpc fuel).start w = some (outcome, w')) :
    ∃ networkHeight found scanner result, rpc.height.toOption = some networkHeight ∧
      scanMempool rpc w.utxos.index w.mempoolScanner = some (found, scanner) ∧
      ChainSynced rpc fuel networkHeight
        { w with pendingEvents := [], mempoolScanner := scanner } result w' ∧
      outcome = result.map fun chain => w.pendingEvents ++ found ++ chain.getD [] := by
  rw [sync, start_orPanic_bind, Option.bind_eq_some_iff] at h
  obtain ⟨networkHeight, hheight, h⟩ := h
  have hdrain : (drainPendingEvents : Effect (Wallet D) (SyncError D) _).start w =
      some (.ok w.pendingEvents, { w with pendingEvents := [] }) := rfl
  rw [start_bind_of_ok hdrain, start_bind, start_syncMempool, Option.bind_eq_some_iff] at h
  obtain ⟨_, hmap, h⟩ := h
  obtain ⟨⟨found, scanner⟩, hscan, rfl⟩ := Option.map_eq_some_iff.mp hmap
  refine ⟨networkHeight, found, scanner, ?_⟩
  cases start_bind_eq_some_iff.mp h with
  | inl hok =>
    obtain ⟨chain, w₁, hchain, hpure⟩ := hok
    cases hpure
    exact ⟨.ok chain, hheight, hscan, chainSynced_of_start hchain, rfl⟩
  | inr herror =>
    obtain ⟨e, hchain, rfl⟩ := herror
    exact ⟨.error e, hheight, hscan, chainSynced_of_start hchain, rfl⟩

end Syncing

section Sending
variable [DecidableEq D] [Tip5 D] [ConsensusOps D] [CoinOps D] [WalletOps D] [MmrOps D]
  [IterOrder]

/-- The wallet with a new address of a type. -/
def withNextAddress (w : Wallet D) (keyType : KeyType) : Wallet D :=
  let next := w.addresses.nextAddress keyType
  { w with
    addresses := next.2.2
    scanner := w.scanner.addKey next.1
    pendingEvents := w.pendingEvents ++ [.addressGenerated keyType next.2.1 next.1.address] }

def withSelection (w : Wallet D) (selection : UtxosSelection D) (pool : UtxoPool D) : Wallet D :=
  { w with
    utxos := pool
    pendingEvents := w.pendingEvents ++
      selection.invalidatedUtxos.map fun e => .utxoInvalidated e.1 e.2 }

omit [DecidableEq D] [Tip5 D] [ConsensusOps D] [CoinOps D] [WalletOps D] [MmrOps D] [IterOrder] in
theorem start_nextAddress (keyType : KeyType) (w : Wallet D) :
    (nextAddress keyType : Effect (Wallet D) ε _).start w =
      some (.ok (w.addresses.nextAddress keyType).1.address, w.withNextAddress keyType) := rfl

omit [CoinOps D] [WalletOps D] [MmrOps D] in
theorem start_importUtxos (utxos : List (MonitoredUtxo D)) (w : Wallet D) :
    (importUtxos utxos : Effect (Wallet D) ε _).start w =
      (unlockWith w.addresses utxos).bind fun _ =>
        (importAll w.utxos utxos).map fun pool => (.ok (), { w with utxos := pool }) := by
  rw [importUtxos, unlockUtxos, bind_assoc, start_read_bind, start_orPanic_bind]
  congr 1
  funext _
  rw [start_read_bind, start_orPanic_bind]
  cases importAll w.utxos utxos <;> rfl

theorem start_selectInputs (rpc : RpcAnswers D) (fuel : ℕ) (target : NativeCurrencyAmount)
    (timestamp : Timestamp) (w : Wallet D) :
    (selectInputs rpc fuel target timestamp : Effect (Wallet D) ε _).start w =
      (w.utxos.selectUtxos rpc.restoreMembershipProof fuel 0 target timestamp
        (some w.mempoolScanner.pendingSpendUtxos)).unwrap.map fun r =>
          (.ok r.1, w.withSelection r.1 r.2.1) := by
  rw [selectInputs, start_read_bind, start_orPanic_bind]
  cases (w.utxos.selectUtxos rpc.restoreMembershipProof fuel 0 target timestamp
    (some w.mempoolScanner.pendingSpendUtxos)).unwrap <;> rfl

omit [CoinOps D] in
theorem start_buildTransaction (recipient : Address D) (amount fee : NativeCurrencyAmount)
    (timestamp : Timestamp) (height : BlockHeight) (selection : UtxosSelection D) (w : Wallet D) :
    (buildTransaction recipient amount fee timestamp height selection :
        Effect (Wallet D) ε _).start w = (unlockWith w.addresses selection.utxos).bind fun inputs =>
        (w.addresses.latestAddress .symmetric).map fun changeAddress =>
          (.ok (build inputs (sentOutputs w.addresses.entropy height recipient amount changeAddress
            selection.change) fee timestamp selection.msa), w.withNextAddress .symmetric) := by
  rw [buildTransaction, unlockUtxos, bind_assoc, start_read_bind, start_orPanic_bind]
  congr 1
  funext inputs
  rw [start_read_bind, start_orPanic_bind]
  cases w.addresses.latestAddress .symmetric <;> rfl

variable {rpc : RpcAnswers D} {fuel : ℕ} {recipient : Address D}
  {amount fee : NativeCurrencyAmount} {timestamp : Timestamp} {w w' : Wallet D}

theorem exists_of_start_prepareTransaction {outcome : Except ε (BuilderTransaction D)}
    (h : (prepareTransaction rpc fuel recipient amount fee timestamp).start w =
      some (outcome, w')) :
    ∃ target selection pool request inputs changeAddress, amount.add fee = some target ∧
      (w.utxos.selectUtxos rpc.restoreMembershipProof fuel 0 target timestamp
        (some w.mempoolScanner.pendingSpendUtxos)).Returns (selection, pool, request) ∧
      unlockWith w.addresses selection.utxos = some inputs ∧
      w.addresses.latestAddress .symmetric = some changeAddress ∧
      outcome = .ok (build inputs (sentOutputs w.addresses.entropy w.scanner.tipHeight recipient
        amount changeAddress selection.change) fee timestamp selection.msa) ∧
      w' = (w.withSelection selection pool).withNextAddress .symmetric := by
  rw [prepareTransaction, start_orPanic_bind, Option.bind_eq_some_iff] at h
  obtain ⟨target, htarget, h⟩ := h
  rw [start_bind, start_selectInputs, Option.bind_eq_some_iff] at h
  obtain ⟨_, hmap, h⟩ := h
  obtain ⟨⟨selection, pool, request⟩, hselect, rfl⟩ := Option.map_eq_some_iff.mp hmap
  dsimp only at h
  rw [start_read_bind, start_buildTransaction, Option.bind_eq_some_iff] at h
  obtain ⟨inputs, hinputs, h⟩ := h
  obtain ⟨changeAddress, hchange, heq⟩ := Option.map_eq_some_iff.mp h
  cases heq
  exact ⟨target, selection, pool, request, inputs, changeAddress, htarget,
    Fallible.unwrap_eq_some_iff.mp hselect, hinputs, hchange, rfl, rfl⟩

/-- A call of `send`, whether the node takes the transaction or not. -/
theorem exists_of_start_send [DigestOps D] [TransactionOps D] {outcome : Except RpcError D}
    (h : (send rpc fuel recipient amount fee timestamp).start w = some (outcome, w')) :
    ∃ transaction : BuilderTransaction D,
      (prepareTransaction rpc fuel recipient amount fee timestamp : Effect (Wallet D) RpcError
        _).start w = some (.ok transaction, w') := by
  rw [send, start_bind_eq_some_iff] at h
  cases h with
  | inr herror =>
    obtain ⟨e, hprepare, -⟩ := herror
    obtain ⟨_, _, _, _, _, _, _, _, _, _, heq, _⟩ := exists_of_start_prepareTransaction hprepare
    cases heq
  | inl hok =>
    obtain ⟨transaction, w₁, hprepare, h⟩ := hok
    refine ⟨transaction, ?_⟩
    rw [hprepare]
    cases hsubmit : rpc.submitTransaction transaction.kernel with
    | error e =>
      rw [hsubmit] at h
      cases h
      rfl
    | ok u =>
      rw [hsubmit] at h
      cases h
      rfl

end Sending

end Wallet

/-! ## Symbolic keys -/

namespace SymbolicDigest

def entropy : WalletEntropy SymbolicDigest where
  derive keyType index :=
    let seed : SymbolicDigest := .pair (if keyType = .generation then .atom 0 else .atom 1)
      (.atom index)
    ⟨keyType, ⟨.pair seed (.atom 2), digestHash (.pair seed (.atom 3))⟩, .pair seed (.atom 3),
      [.new index]⟩
  generateSenderRandomness height receiverDigest := .pair (.atom height.value.val) receiverDigest

def idleAnswers : RpcAnswers SymbolicDigest where
  height := .ok .genesis
  transactions := .ok []
  getTransactionKernel _ _ := .ok none
  getBlocks _ _ := .ok []
  restoreMembershipProof _ _ := .error .restoreMembershipProof
  submitTransaction _ := .ok ()

def brokenAnswers : RpcAnswers SymbolicDigest :=
  { idleAnswers with
    height := .ok ⟨1⟩
    getBlocks := fun _ _ => .error .server }

end SymbolicDigest

end NyksNode
