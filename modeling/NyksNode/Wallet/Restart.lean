import NyksNode.Lib.Trace
import NyksNode.Wallet.Ownership

/-!
# Restarting the command-line wallet

The command-line wallet keeps the last index of each key type, the coins and the confirmed height in
files.  A background loop calls `sync` and stores the events one after the other; meanwhile the user
asks for addresses and sends.  The process can be killed between any two writes, and each write is
atomic.

A started wallet tracks the addresses up to one above the stored index.  `next_address` hands out
the address above all tracked ones at once, but its index is stored only when the event has come
through a call of `sync`, and not at all if that call fails.  So an address can be handed out that a
restarted wallet does not know, and a coin can be stored that it cannot unlock.
-/

namespace NyksNode

open List Wallet AssocMap Function

/-! ## The files -/

/-- `Storage`.  The stored mnemonic gives the entropy. -/
structure WalletStorage (D : Type) where
  entropy : WalletEntropy D
  generationIndex : ℕ
  symmetricIndex : ℕ
  utxos : AssocMap (UtxoKey D) (MonitoredUtxo D)
  height : Option BlockHeight

namespace WalletStorage
variable {D : Type}

def new (entropy : WalletEntropy D) : WalletStorage D := ⟨entropy, 0, 0, .empty, none⟩

def lastIndex (s : WalletStorage D) : KeyType → ℕ
  | .generation => s.generationIndex
  | .symmetric => s.symmetricIndex

def setIndex (s : WalletStorage D) (keyType : KeyType) (index : ℕ) : WalletStorage D :=
  match keyType with
  | .generation => { s with generationIndex := index }
  | .symmetric => { s with symmetricIndex := index }

/-- What the loop of `run` does with an event. -/
def store [DecidableEq D] (s : WalletStorage D) : WalletEvent D → WalletStorage D
  | .utxoReceived key utxo => { s with utxos := s.utxos.put key utxo }
  | .utxoInvalidated key utxo => { s with utxos := s.utxos.put key utxo }
  | .utxosOutgoing _ _ => s
  | .addressGenerated keyType index _ => s.setIndex keyType index

/-- The start of the process: the wallet is made from the files, and the coins are imported. -/
def openWallet [DecidableEq D] [Tip5 D] [ConsensusOps D] [IterOrder] (s : WalletStorage D)
    (network : Network) : Option (Wallet D) :=
  ((Wallet.importUtxos (IterOrder.iter s.utxos.values) : Effect (Wallet D) RpcError Unit).start
    (.newWithIndexes s.entropy s.height network s.generationIndex s.symmetricIndex)).map (·.2)

theorem lastIndex_setIndex (s : WalletStorage D) (t : KeyType) (i : ℕ) :
    (s.setIndex t i).lastIndex = Function.update s.lastIndex t i := by
  funext t'
  cases t <;> cases t' <;> rfl

theorem startIndices_eq (s : WalletStorage D) :
    AddressBook.startIndices s.generationIndex s.symmetricIndex = fun t => s.lastIndex t + 1 := by
  funext t
  cases t <;> rfl

end WalletStorage

/-! ## The process -/

/-- The first part of `sync`: the height, the queued events, and the mempool. -/
def Wallet.beginSync {D : Type} [DecidableEq D] {ε : Type} (rpc : RpcAnswers D) :
    Effect (Wallet D) ε (BlockHeight × List (WalletEvent D)) := do
  let networkHeight ← Effect.orPanic rpc.height.toOption
  let events ← Wallet.drainPendingEvents
  let outgoing ← Wallet.syncMempool rpc
  pure (networkHeight, events ++ outgoing)

theorem Wallet.start_beginSync {D : Type} [DecidableEq D] {ε : Type} (rpc : RpcAnswers D)
    (w : Wallet D) : (Wallet.beginSync rpc : Effect (Wallet D) ε _).start w =
      rpc.height.toOption.bind fun networkHeight =>
        (Wallet.scanMempool rpc w.utxos.index w.mempoolScanner).map fun r =>
          (.ok (networkHeight, w.pendingEvents ++ r.1),
            { w with pendingEvents := [], mempoolScanner := r.2 }) := by
  rw [beginSync, Effect.start_orPanic_bind]
  congr 1
  funext networkHeight
  have hdrain : (drainPendingEvents : Effect (Wallet D) ε _).start w =
      some (.ok w.pendingEvents, { w with pendingEvents := [] }) := rfl
  rw [Effect.start_bind_of_ok hdrain, Effect.start_bind, start_syncMempool]
  cases scanMempool rpc w.utxos.index w.mempoolScanner <;> rfl

inductive SyncRound (D : Type) where
  | idle
  /-- In `sync`, before the chain is followed. -/
  | drained (networkHeight : BlockHeight) (events : List (WalletEvent D))
  /-- Events are being stored. -/
  | storing (events : List (WalletEvent D))

/-- The running wallet with its files.  Transactions that are being proven are kept with the index
of their change address; the addresses that were handed out or used in a submitted transaction are
kept over restarts. -/
structure WalletProcess (D : Type) where
  wallet : Wallet D
  storage : WalletStorage D
  round : SyncRound D
  prepared : List (BuilderTransaction D × ℕ)
  used : List (Address D)

/-- What the process can do; `send` is a transaction that is prepared and submitted. -/
inductive ProcessStep (D : Type) where
  | nextAddress (keyType : KeyType)
  | prepare (rpc : RpcAnswers D) (fuel : ℕ) (recipient : Address D)
      (amount fee : NativeCurrencyAmount) (timestamp : Timestamp)
  | submit (n : ℕ)
  | beginSync (rpc : RpcAnswers D)
  | syncChain (rpc : RpcAnswers D) (fuel : ℕ)
  | store
  | setHeight
  | restart (network : Network)

namespace SyncRound
variable {D : Type}

def events : SyncRound D → List (WalletEvent D)
  | .idle => []
  | .drained _ events => events
  | .storing events => events

/-- The loop goes on after `sync`; a failure is logged. -/
def afterSync (events : List (WalletEvent D)) :
    Except (SyncError D) (Option (List (WalletEvent D))) → SyncRound D
  | .ok chainEvents => .storing (events ++ chainEvents.getD [])
  | .error _ => .idle

end SyncRound

namespace WalletProcess
variable {D : Type}

def changeAddress (transaction : BuilderTransaction D) : Option (Address D) :=
  (transaction.outputs.map (·.recipient))[1]?

/-- The indices that are stored once some events are. -/
def indicesAfter (stored : KeyType → ℕ) (events : List (WalletEvent D)) : KeyType → ℕ :=
  events.foldl (fun stored e =>
    match e with
    | .addressGenerated t i _ => Function.update stored t i
    | _ => stored) stored

/-- The event does not announce an address. -/
def IsCoinEvent : WalletEvent D → Prop
  | .addressGenerated _ _ _ => False
  | _ => True

variable [DecidableEq D] [Tip5 D] [ConsensusOps D] [DigestOps D] [NoteOps D] [MmrOps D] [CoinOps D]
  [WalletOps D] [IterOrder]

def step (s : WalletProcess D) : ProcessStep D → Option (WalletProcess D)
  | .nextAddress keyType => do
    let (outcome, w) ← (Wallet.nextAddress keyType : Effect (Wallet D) RpcError _).start s.wallet
    some { s with wallet := w, used := s.used ++ outcome.toOption.toList }
  | .prepare rpc fuel recipient amount fee timestamp => do
    let index ← s.wallet.addresses.lastIndex .symmetric
    let (outcome, w) ← (Wallet.prepareTransaction rpc fuel recipient amount fee timestamp :
      Effect (Wallet D) RpcError _).start s.wallet
    some
      { s with
        wallet := w
        prepared := s.prepared ++ (outcome.toOption.map fun t => (t, index)).toList }
  | .submit n => do
    let (transaction, _) ← s.prepared[n]?
    some
      { s with
        prepared := s.prepared.eraseIdx n
        used := s.used ++ (changeAddress transaction).toList }
  | .beginSync rpc =>
    match s.round with
    | .idle => do
      let (outcome, w) ← (Wallet.beginSync rpc : Effect (Wallet D) RpcError _).start s.wallet
      let (networkHeight, events) ← outcome.toOption
      some { s with wallet := w, round := .drained networkHeight events }
    | _ => none
  | .syncChain rpc fuel =>
    match s.round with
    | .drained networkHeight events => do
      let (outcome, w) ← (Wallet.syncChain rpc fuel networkHeight).start s.wallet
      some { s with wallet := w, round := .afterSync events outcome }
    | _ => none
  | .store =>
    match s.round with
    | .storing (e :: events) =>
      some { s with storage := s.storage.store e, round := .storing events }
    | _ => none
  | .setHeight =>
    match s.round with
    | .storing [] =>
      some
        { s with
          storage := { s.storage with height := some s.wallet.scanner.height }
          round := .idle }
    | _ => none
  | .restart network => do
    let w ← s.storage.openWallet network
    some { s with wallet := w, round := .idle, prepared := [] }

/-- If the process is killed now, it starts again without a panic, on any network, and knows every
address that was handed out or used: its key is in the address book and scanned for. -/
def Recovers (s : WalletProcess D) : Prop :=
  ∀ network, ∃ w, s.storage.openWallet network = some w ∧
    ∀ a ∈ s.used, ∃ key ∈ w.scanner.keys, key.address = a ∧
      ∃ t i, (w.addresses.byIndex t).get? i = some key

/-- If blocks are scanned, all addresses but one of each type are stored or come before the coins
that are found; if following the chain fails, no address is among the events that are lost. -/
def CarefulOutcome (s : WalletProcess D) (events : List (WalletEvent D)) :
    Option (Except (SyncError D) (Option (List (WalletEvent D))) × Wallet D) → Prop
  | some (.ok _, _) => ∀ t, ∀ i ∈ s.wallet.addresses.lastIndex t,
    i ≤ indicesAfter s.storage.lastIndex events t + 1
  | some (.error _, _) => ∀ e ∈ events, IsCoinEvent e
  | none => True

/-- What is asked of the second part of `sync`. -/
def CarefulSync (s : WalletProcess D) (rpc : RpcAnswers D) (fuel : ℕ) : SyncRound D → Prop
  | .drained networkHeight events =>
    s.CarefulOutcome events ((Wallet.syncChain rpc fuel networkHeight).start s.wallet)
  | _ => True

/-- An address is handed out only if those before it are stored, and used for change only if those
before it are, except for one. -/
def Careful (s : WalletProcess D) : ProcessStep D → Prop
  | .nextAddress t => ∀ i ∈ s.wallet.addresses.lastIndex t, i ≤ s.storage.lastIndex t
  | .submit n => ∀ p ∈ s.prepared[n]?, p.2 ≤ s.storage.lastIndex .symmetric + 1
  | .syncChain rpc fuel => s.CarefulSync rpc fuel s.round
  | _ => True

instance (e : WalletEvent D) : Decidable (IsCoinEvent e) :=
  match e with
  | .addressGenerated _ _ _ => .isFalse id
  | .utxoReceived _ _ => .isTrue trivial
  | .utxoInvalidated _ _ => .isTrue trivial
  | .utxosOutgoing _ _ => .isTrue trivial

instance (P : KeyType → Prop) [DecidablePred P] : Decidable (∀ t, P t) :=
  decidable_of_iff (P .generation ∧ P .symmetric)
    ⟨fun h t => KeyType.casesOn t h.1 h.2, fun h => ⟨h _, h _⟩⟩

instance (s : WalletProcess D) (events : List (WalletEvent D))
    (r : Option (Except (SyncError D) (Option (List (WalletEvent D))) × Wallet D)) :
    Decidable (s.CarefulOutcome events r) :=
  match r with
  | some (.ok _, _) => inferInstanceAs (Decidable (∀ _ : KeyType, ∀ i ∈ _, i ≤ _))
  | some (.error _, _) => inferInstanceAs (Decidable (∀ e ∈ events, IsCoinEvent e))
  | none => .isTrue trivial

instance (s : WalletProcess D) (rpc : RpcAnswers D) (fuel : ℕ) (round : SyncRound D) :
    Decidable (s.CarefulSync rpc fuel round) :=
  match round with
  | .drained _ events => inferInstanceAs (Decidable (s.CarefulOutcome events _))
  | .idle => .isTrue trivial
  | .storing _ => .isTrue trivial

instance (s : WalletProcess D) (a : ProcessStep D) : Decidable (s.Careful a) :=
  match a with
  | .nextAddress _ => inferInstanceAs (Decidable (∀ i ∈ _, i ≤ _))
  | .submit n => inferInstanceAs (Decidable (∀ p ∈ s.prepared[n]?, p.2 ≤ _))
  | .syncChain rpc fuel => inferInstanceAs (Decidable (s.CarefulSync rpc fuel s.round))
  | .prepare _ _ _ _ _ _ | .beginSync _ | .store | .setHeight | .restart _ => .isTrue trivial

end WalletProcess

/-! ## Events on their way to the files -/

namespace WalletProcess
variable {D : Type}

theorem indicesAfter_append (stored : KeyType → ℕ) (es es' : List (WalletEvent D)) :
    indicesAfter stored (es ++ es') = indicesAfter (indicesAfter stored es) es' :=
  foldl_append

theorem indicesAfter_of_isCoinEvent {stored : KeyType → ℕ} {es : List (WalletEvent D)}
    (h : ∀ e ∈ es, IsCoinEvent e) : indicesAfter stored es = stored := by
  induction es with
  | nil => rfl
  | cons e es ih =>
    rw [forall_mem_cons] at h
    cases e with
    | addressGenerated t i a => exact absurd h.1 id
    | utxoReceived k u => exact ih h.2
    | utxoInvalidated k u => exact ih h.2
    | utxosOutgoing id us => exact ih h.2

variable [Tip5 D] [ConsensusOps D]

/-- An event can be stored: its coin can be unlocked after a restart, and its index is not below the
stored one. -/
def Storable (entropy : WalletEntropy D) (stored : KeyType → ℕ) : WalletEvent D → Prop
  | .utxoReceived k u => u.OwnedAs (LockedUpTo entropy fun t => stored t + 1) k
  | .utxoInvalidated k u => u.OwnedAs (LockedUpTo entropy fun t => stored t + 1) k
  | .utxosOutgoing _ _ => True
  | .addressGenerated t i _ => stored t ≤ i

def AllStorable (entropy : WalletEntropy D) : (KeyType → ℕ) → List (WalletEvent D) → Prop
  | _, [] => True
  | stored, e :: es => Storable entropy stored e ∧ AllStorable entropy (indicesAfter stored [e]) es

variable {entropy : WalletEntropy D} {stored : KeyType → ℕ} {es es' : List (WalletEvent D)}

theorem allStorable_append : AllStorable entropy stored (es ++ es') ↔
    AllStorable entropy stored es ∧ AllStorable entropy (indicesAfter stored es) es' := by
  induction es generalizing stored with
  | nil =>
    rw [nil_append, AllStorable, true_and]
    rfl
  | cons e es ih =>
    rw [cons_append, AllStorable, AllStorable, ih, and_assoc]
    rfl

theorem allStorable_of_isCoinEvent (h : ∀ e ∈ es, IsCoinEvent e ∧ Storable entropy stored e) :
    AllStorable entropy stored es := by
  induction es with
  | nil => trivial
  | cons e es ih =>
    rw [forall_mem_cons] at h
    have hsame : indicesAfter stored [e] = stored := by
      refine indicesAfter_of_isCoinEvent ?_
      rw [forall_mem_singleton]
      exact h.1.1
    rw [AllStorable, hsame]
    exact ⟨h.1.2, ih h.2⟩

theorem le_indicesAfter_singleton {e : WalletEvent D} (h : Storable entropy stored e) :
    stored ≤ indicesAfter stored [e] := by
  cases e with
  | addressGenerated t i a =>
    change stored ≤ update stored t i
    rw [le_update_iff]
    exact ⟨h, fun _ _ => le_rfl⟩
  | utxoReceived k u => exact le_rfl
  | utxoInvalidated k u => exact le_rfl
  | utxosOutgoing id us => exact le_rfl

end WalletProcess

/-! ## The invariant -/

namespace WalletStorage
variable {D : Type} [DecidableEq D]

theorem lastIndex_store (s : WalletStorage D) (e : WalletEvent D) :
    (s.store e).lastIndex = WalletProcess.indicesAfter s.lastIndex [e] := by
  cases e with
  | addressGenerated t i a => exact s.lastIndex_setIndex t i
  | utxoReceived k u => rfl
  | utxoInvalidated k u => rfl
  | utxosOutgoing id us => rfl

theorem entropy_store (s : WalletStorage D) (e : WalletEvent D) :
    (s.store e).entropy = s.entropy := by
  cases e with
  | addressGenerated t i a => cases t <;> rfl
  | utxoReceived k u => rfl
  | utxoInvalidated k u => rfl
  | utxosOutgoing id us => rfl

variable [Tip5 D] [ConsensusOps D]

/-- The stored coins can be unlocked after a restart. -/
def Consistent (s : WalletStorage D) : Prop :=
  ∀ k u, s.utxos.get? k = some u → u.OwnedAs (LockedUpTo s.entropy fun t => s.lastIndex t + 1) k

variable {s : WalletStorage D}

theorem Consistent.put (h : s.Consistent) {k : UtxoKey D} {u : MonitoredUtxo D}
    (hu : u.OwnedAs (LockedUpTo s.entropy fun t => s.lastIndex t + 1) k) :
    ∀ k' u', (s.utxos.put k u).get? k' = some u' →
      u'.OwnedAs (LockedUpTo s.entropy fun t => s.lastIndex t + 1) k' := by
  intro k' u' hget
  exact of_get?_put hget hu fun _ => h k' u'

theorem Consistent.store (h : s.Consistent) {e : WalletEvent D}
    (he : WalletProcess.Storable s.entropy s.lastIndex e) : (s.store e).Consistent := by
  cases e with
  | addressGenerated t i a =>
    have hle := WalletProcess.le_indicesAfter_singleton he
    intro k u hu
    rw [lastIndex_store, entropy_store]
    have hget : s.utxos.get? k = some u := by
      cases t <;> exact hu
    exact ⟨(h k u hget).1, (h k u hget).2.mono fun t => Nat.add_le_add_right (hle t) 1⟩
  | utxoReceived k u => exact h.put he
  | utxoInvalidated k u => exact h.put he
  | utxosOutgoing id us => exact h

theorem Consistent.exists_openWallet [IterOrder] (h : s.Consistent) (network : Network) :
    ∃ w, s.openWallet network = some w ∧ w.Owns s.entropy (fun t => s.lastIndex t + 1) ∧
      w.pendingEvents = [] ∧ w.scanner.keys = w.addresses.viewingKeys := by
  have howns := owns_newWithIndexes s.entropy s.height network s.generationIndex
    s.symmetricIndex
  rw [startIndices_eq] at howns
  have hmem : ∀ u ∈ IterOrder.iter s.utxos.values, ∃ k, s.utxos.get? k = some u :=
    fun u hu => mem_values.mp (IterOrder.mem_iter.mp hu)
  have hlocked : ∀ u ∈ IterOrder.iter s.utxos.values,
      LockedUpTo s.entropy (fun t => s.lastIndex t + 1) u.utxo := by
    intro u hu
    obtain ⟨k, hk⟩ := hmem u hu
    exact (h k u hk).2
  have hunlocked : ∃ inputs, unlockWith (newWithIndexes s.entropy s.height network
      s.generationIndex s.symmetricIndex).addresses (IterOrder.iter s.utxos.values) =
        some inputs := by
    rw [← Option.isSome_iff_exists, unlockWith, isSome_mapM_iff]
    intro u hu
    obtain ⟨t, i, hi, hlock⟩ := hlocked u hu
    rw [Option.isSome_map, hlock]
    exact howns.book.isSome_spendingKey hi
  have hnodup : ((IterOrder.iter s.utxos.values).map UtxoKey.new).Nodup := by
    have hkeys : s.utxos.values.map UtxoKey.new = s.utxos.keys := by
      rw [AssocMap.values, AssocMap.keys, map_map]
      refine map_congr_left fun e he => ?_
      exact (h e.1 e.2 (get?_eq_some_iff.mpr he)).1
    rw [((IterOrder.iter_perm _).map _).nodup_iff, hkeys]
    exact s.utxos.nodup_keys
  obtain ⟨inputs, hinputs⟩ := hunlocked
  obtain ⟨pool, hpool, howned⟩ := howns.pool.importAll hlocked (fun _ _ => rfl) hnodup
  refine ⟨{ newWithIndexes s.entropy s.height network s.generationIndex s.symmetricIndex with
    utxos := pool }, ?_, ⟨howns.book, howns.scanner, howned⟩, rfl, rfl⟩
  rw [openWallet, start_importUtxos, hinputs, Option.bind_some, hpool]
  rfl

end WalletStorage

namespace WalletProcess

section
variable {D : Type} [DecidableEq D] [Tip5 D] [ConsensusOps D]

/-- The events that are not stored yet, in the order in which they would be. -/
def undelivered (s : WalletProcess D) : List (WalletEvent D) :=
  s.round.events ++ s.wallet.pendingEvents

def finalIndices (s : WalletProcess D) : KeyType → ℕ :=
  indicesAfter s.storage.lastIndex s.undelivered

/-- The files can be opened, now and after each event that is on its way to them.  With all of these
events they will have all indices but the last of each type. -/
structure Sound (last : KeyType → ℕ) (s : WalletProcess D) : Prop where
  owns : s.wallet.Owns s.storage.entropy last
  consistent : s.storage.Consistent
  storable : AllStorable s.storage.entropy s.storage.lastIndex s.undelivered
  finalIndices_le : s.finalIndices ≤ last
  le_finalIndices : ∀ t, last t ≤ s.finalIndices t + 1
  prepared : ∀ p ∈ s.prepared,
    changeAddress p.1 = some (s.storage.entropy.derive .symmetric p.2).address
  used : ∀ a ∈ s.used, ∃ t i, i ≤ s.storage.lastIndex t + 1 ∧
    a = (s.storage.entropy.derive t i).address

variable {s s' : WalletProcess D} {last last' : KeyType → ℕ}

theorem Sound.recovers [IterOrder] (h : s.Sound last) : s.Recovers := by
  intro network
  obtain ⟨w, hw, howns, -, hkeys⟩ := h.consistent.exists_openWallet network
  refine ⟨w, hw, fun a ha => ?_⟩
  obtain ⟨t, i, hi, rfl⟩ := h.used a ha
  refine ⟨s.storage.entropy.derive t i, ?_, rfl, t, i, ?_⟩
  · rw [hkeys, howns.book.mem_viewingKeys_iff]
    exact ⟨t, i, hi, rfl⟩
  · rw [howns.book.get?_eq, if_pos hi]

variable {w : Wallet D}

theorem Sound.queue (h : s.Sound last) (howns : w.Owns s.storage.entropy last')
    {events : List (WalletEvent D)} (hpending : w.pendingEvents = s.wallet.pendingEvents ++ events)
    (hstorable : AllStorable s.storage.entropy s.finalIndices events)
    (hle : indicesAfter s.finalIndices events ≤ last')
    (hge : ∀ t, last' t ≤ indicesAfter s.finalIndices events t + 1) :
    Sound last' { s with wallet := w } := by
  have hundelivered : undelivered { s with wallet := w } = s.undelivered ++ events := by
    rw [undelivered, undelivered, hpending, append_assoc]
  have hfinal : finalIndices { s with wallet := w } = indicesAfter s.finalIndices events := by
    rw [finalIndices, hundelivered, indicesAfter_append, finalIndices]
  refine ⟨howns, h.consistent, ?_, hfinal ▸ hle, hfinal ▸ hge, h.prepared, h.used⟩
  rw [hundelivered, allStorable_append]
  exact ⟨h.storable, hstorable⟩

theorem Sound.of_undelivered (h : s.Sound last) {round : SyncRound D}
    (howns : w.Owns s.storage.entropy last)
    (hstorable : AllStorable s.storage.entropy s.storage.lastIndex
      (round.events ++ w.pendingEvents))
    (hsame : indicesAfter s.storage.lastIndex (round.events ++ w.pendingEvents) = s.finalIndices) :
    Sound last { s with wallet := w, round := round } := by
  have hfinal : finalIndices { s with wallet := w, round := round } = s.finalIndices := hsame
  exact ⟨howns, h.consistent, hstorable, hfinal ▸ h.finalIndices_le, hfinal ▸ h.le_finalIndices,
    h.prepared, h.used⟩

omit [DecidableEq D] [Tip5 D] [ConsensusOps D] in
theorem indicesAfter_addressGenerated (stored : KeyType → ℕ) (t : KeyType) (i : ℕ) (a : Address D) :
    indicesAfter stored [.addressGenerated t i a] = Function.update stored t i := rfl

/-- An address is generated, after some coins were found to be gone. -/
theorem Sound.generate (h : s.Sound last) {t : KeyType}
    (howns : w.Owns s.storage.entropy (Function.update last t (last t + 1)))
    {invalidated : List (UtxoKey D × MonitoredUtxo D)} {a : Address D}
    (hinvalidated : ∀ e ∈ invalidated, e.2.OwnedAs (LockedUpTo s.storage.entropy last) e.1)
    (hpending : w.pendingEvents = s.wallet.pendingEvents ++
      ((invalidated.map fun e => .utxoInvalidated e.1 e.2) ++
      [.addressGenerated t (last t + 1) a])) :
    Sound (Function.update last t (last t + 1)) { s with wallet := w } := by
  have hcoins : ∀ e ∈ invalidated.map fun e => WalletEvent.utxoInvalidated e.1 e.2,
      IsCoinEvent e ∧ Storable s.storage.entropy s.finalIndices e := by
    intro e he
    obtain ⟨i, hi, rfl⟩ := mem_map.mp he
    exact ⟨trivial, (hinvalidated i hi).1, (hinvalidated i hi).2.mono h.le_finalIndices⟩
  have hsame : indicesAfter s.finalIndices
      (invalidated.map fun e => WalletEvent.utxoInvalidated e.1 e.2) = s.finalIndices :=
    indicesAfter_of_isCoinEvent fun e he => (hcoins e he).1
  refine h.queue howns hpending ?_ ?_ ?_
  · rw [allStorable_append, hsame]
    refine ⟨allStorable_of_isCoinEvent hcoins, ?_, trivial⟩
    exact (h.finalIndices_le t).trans (Nat.le_succ _)
  · rw [indicesAfter_append, hsame, indicesAfter_addressGenerated]
    exact update_le_update_iff.mpr ⟨le_rfl, fun t' _ => h.finalIndices_le t'⟩
  · intro t'
    rw [indicesAfter_append, hsame, indicesAfter_addressGenerated]
    by_cases ht : t' = t
    · rw [ht, update_self, update_self]
      exact Nat.le_succ _
    · rw [update_of_ne ht, update_of_ne ht]
      exact h.le_finalIndices t'

end

/-! ## Steps and runs -/

section
variable {D : Type} [DecidableEq D] [Tip5 D] [ConsensusOps D] [DigestOps D] [NoteOps D] [MmrOps D]
  [CoinOps D] [WalletOps D] [IterOrder] {s s' : WalletProcess D} {last : KeyType → ℕ}

theorem Sound.nextAddress (h : s.Sound last) {t : KeyType} (hcareful : s.Careful (.nextAddress t))
    (hstep : s.step (.nextAddress t) = some s') : ∃ last', s'.Sound last' := by
  simp only [step, start_nextAddress, some_bind, Option.some_inj] at hstep
  subst hstep
  have hpending : (s.wallet.withNextAddress t).pendingEvents = s.wallet.pendingEvents ++
      ((([] : List (UtxoKey D × MonitoredUtxo D)).map fun e => .utxoInvalidated e.1 e.2) ++
        [.addressGenerated t (last t + 1) (s.storage.entropy.derive t (last t + 1)).address]) :=
    h.owns.pendingEvents_withNextAddress t
  have hsound := h.generate (h.owns.withNextAddress t) (by simp) hpending
  refine ⟨_, { hsound with used := ?_ }⟩
  intro a ha
  cases mem_append.mp ha with
  | inl ha => exact h.used a ha
  | inr ha =>
    have hle : last t ≤ s.storage.lastIndex t := hcareful _ (h.owns.book.lastIndex_eq t)
    rw [h.owns.book.nextAddress_eq] at ha
    refine ⟨t, last t + 1, Nat.succ_le_succ hle, ?_⟩
    exact mem_singleton.mp ha

variable {rpc : RpcAnswers D}

section
variable (h : s.Sound last)
include h

theorem Sound.prepare {fuel : ℕ} {recipient : Address D}
    {amount fee : NativeCurrencyAmount} {timestamp : Timestamp}
    (hstep : s.step (.prepare rpc fuel recipient amount fee timestamp) = some s') :
    ∃ last', s'.Sound last' := by
  simp only [step, h.owns.book.lastIndex_eq, some_bind,
    bind_eq_some, Prod.exists, Option.some_inj] at hstep
  obtain ⟨outcome, w, hstart, rfl⟩ := hstep
  obtain ⟨transaction, invalidated, rfl, houtputs, howns, hinvalidated, hpending⟩ :=
    h.owns.prepareTransaction hstart
  rw [append_assoc] at hpending
  have hsound := h.generate howns hinvalidated hpending
  refine ⟨_, { hsound with prepared := ?_ }⟩
  intro p hp
  cases mem_append.mp hp with
  | inl hp => exact h.prepared p hp
  | inr hp =>
    rw [mem_singleton.mp hp, changeAddress, houtputs]
    rfl

theorem Sound.submit {n : ℕ} (hcareful : s.Careful (.submit n))
    (hstep : s.step (.submit n) = some s') : s'.Sound last := by
  simp only [step, bind_eq_some, Prod.exists, Option.some_inj] at hstep
  obtain ⟨transaction, index, hn, rfl⟩ := hstep
  have hchange := h.prepared _ (mem_of_getElem? hn)
  refine ⟨h.owns, h.consistent, h.storable, h.finalIndices_le, h.le_finalIndices, ?_, ?_⟩
  · intro p hp
    exact h.prepared p (mem_of_mem_eraseIdx hp)
  · intro a ha
    cases mem_append.mp ha with
    | inl ha => exact h.used a ha
    | inr ha =>
      rw [hchange] at ha
      exact ⟨.symmetric, index, hcareful _ hn, mem_singleton.mp ha⟩

theorem Sound.beginSync (hstep : s.step (.beginSync rpc) = some s') : s'.Sound last := by
  cases hround : s.round with
  | drained networkHeight events => simp [step, hround] at hstep
  | storing events => simp [step, hround] at hstep
  | idle =>
    simp only [step, hround, start_beginSync, Option.bind_eq_bind, Option.bind_eq_some_iff,
      Option.map_eq_some_iff, Prod.exists] at hstep
    obtain ⟨_, w, ⟨networkHeight, -, found, scanner, hscan, heq⟩, _, events, hevents, hs'⟩ := hstep
    cases heq
    cases hevents
    cases hs'
    have hfound : ∀ e ∈ found, IsCoinEvent e ∧ Storable s.storage.entropy s.finalIndices e := by
      intro e he
      obtain ⟨id, utxos, rfl⟩ := exists_of_mem_scanMempool hscan he
      exact ⟨trivial, trivial⟩
    have hbefore : s.undelivered = s.wallet.pendingEvents := by
      rw [undelivered, hround]
      rfl
    have hafter : (SyncRound.drained networkHeight (s.wallet.pendingEvents ++ found)).events ++ [] =
        s.undelivered ++ found := by
      rw [hbefore, append_nil]
      rfl
    refine h.of_undelivered ⟨h.owns.book, h.owns.scanner, h.owns.pool⟩ ?_ ?_
    · rw [hafter, allStorable_append]
      exact ⟨h.storable, allStorable_of_isCoinEvent hfound⟩
    · rw [hafter, indicesAfter_append]
      exact indicesAfter_of_isCoinEvent fun e he => (hfound e he).1

theorem Sound.syncChain {fuel : ℕ} (hcareful : s.Careful (.syncChain rpc fuel))
    (hstep : s.step (.syncChain rpc fuel) = some s') : s'.Sound last := by
  cases hround : s.round with
  | idle => simp [step, hround] at hstep
  | storing events => simp [step, hround] at hstep
  | drained networkHeight events =>
    simp only [step, hround, bind_eq_some, Prod.exists, Option.some_inj] at hstep
    obtain ⟨outcome, w, hstart, rfl⟩ := hstep
    simp only [Careful, CarefulSync, hround, hstart] at hcareful
    obtain ⟨howns, hpending, hchain⟩ := h.owns.syncChain hstart
    have hstorable := h.storable
    have hfinal : s.finalIndices = indicesAfter (indicesAfter s.storage.lastIndex events)
        s.wallet.pendingEvents := by
      rw [finalIndices, undelivered, hround, indicesAfter_append]
      rfl
    rw [undelivered, hround, allStorable_append] at hstorable
    cases outcome with
    | error e =>
      -- The events are lost, but there is no address among them.
      have hsame : indicesAfter s.storage.lastIndex events = s.storage.lastIndex :=
        indicesAfter_of_isCoinEvent hcareful
      refine h.of_undelivered howns ?_ ?_
      · rw [hpending]
        have hqueue := hstorable.2
        change AllStorable _ (indicesAfter _ events) _ at hqueue
        rwa [hsame] at hqueue
      · rw [hpending, hfinal, hsame]
        rfl
    | ok chain =>
      have hfound : ∀ e ∈ chain.getD [], IsCoinEvent e ∧
          Storable s.storage.entropy (indicesAfter s.storage.lastIndex events) e := by
        intro e he
        obtain ⟨k, u, rfl, howned⟩ := hchain chain rfl e he
        refine ⟨trivial, howned.1, howned.2.mono fun t => ?_⟩
        exact hcareful t _ (h.owns.book.lastIndex_eq t)
      have hsame : indicesAfter (indicesAfter s.storage.lastIndex events) (chain.getD []) =
          indicesAfter s.storage.lastIndex events :=
        indicesAfter_of_isCoinEvent fun e he => (hfound e he).1
      refine h.of_undelivered howns ?_ ?_
      · change AllStorable _ _ ((events ++ chain.getD []) ++ w.pendingEvents)
        rw [hpending, allStorable_append, allStorable_append, indicesAfter_append, hsame]
        exact ⟨⟨hstorable.1, allStorable_of_isCoinEvent hfound⟩, hstorable.2⟩
      · change indicesAfter _ ((events ++ chain.getD []) ++ w.pendingEvents) = _
        rw [hpending, indicesAfter_append, indicesAfter_append, hsame, hfinal]

theorem Sound.store (hstep : s.step .store = some s') : s'.Sound last := by
  cases hround : s.round with
  | idle => simp [step, hround] at hstep
  | drained networkHeight events => simp [step, hround] at hstep
  | storing events =>
    cases events with
    | nil => simp [step, hround] at hstep
    | cons e events =>
      simp only [step, hround] at hstep
      cases hstep
      have hundelivered : s.undelivered = e :: (events ++ s.wallet.pendingEvents) := by
        rw [undelivered, hround]
        rfl
      have hstorable := h.storable
      rw [hundelivered] at hstorable
      have hindices := s.storage.lastIndex_store e
      have hentropy := s.storage.entropy_store e
      have hfinal : finalIndices { s with
          storage := s.storage.store e, round := .storing events } = s.finalIndices := by
        rw [finalIndices, finalIndices, hundelivered, hindices]
        rfl
      refine ⟨?_, h.consistent.store hstorable.1, ?_, hfinal ▸ h.finalIndices_le,
        hfinal ▸ h.le_finalIndices, ?_, ?_⟩
      · rw [hentropy]
        exact h.owns
      · rw [hentropy, hindices]
        exact hstorable.2
      · rw [hentropy]
        exact h.prepared
      · intro a ha
        obtain ⟨t, i, hi, rfl⟩ := h.used a ha
        rw [hentropy, hindices]
        have hle := le_indicesAfter_singleton hstorable.1 t
        exact ⟨t, i, hi.trans (Nat.add_le_add_right hle 1), rfl⟩

theorem Sound.setHeight (hstep : s.step .setHeight = some s') : s'.Sound last := by
  cases hround : s.round with
  | idle => simp [step, hround] at hstep
  | drained networkHeight events => simp [step, hround] at hstep
  | storing events =>
    cases events with
    | cons e events => simp [step, hround] at hstep
    | nil =>
      simp only [step, hround] at hstep
      cases hstep
      have hundelivered : s.undelivered = s.wallet.pendingEvents := by
        rw [undelivered, hround]
        rfl
      have hstorable := h.storable
      have hle := h.finalIndices_le
      have hge := h.le_finalIndices
      rw [finalIndices, hundelivered] at hle hge
      rw [hundelivered] at hstorable
      exact ⟨h.owns, h.consistent, hstorable, hle, hge, h.prepared, h.used⟩

end

omit [DigestOps D] [NoteOps D] [MmrOps D] [CoinOps D] [WalletOps D] in
theorem sound_of_openWallet {storage : WalletStorage D} (h : storage.Consistent)
    {used : List (Address D)} (hused : ∀ a ∈ used, ∃ t i, i ≤ storage.lastIndex t + 1 ∧
      a = (storage.entropy.derive t i).address) {network : Network} {w : Wallet D}
    (hw : storage.openWallet network = some w) :
    Sound (fun t => storage.lastIndex t + 1) ⟨w, storage, .idle, [], used⟩ := by
  obtain ⟨w', hw', howns, hpending, -⟩ := h.exists_openWallet network
  rw [hw] at hw'
  cases hw'
  have hundelivered : undelivered ⟨w, storage, .idle, [], used⟩ = [] := hpending
  have hfinal : finalIndices ⟨w, storage, .idle, [], used⟩ = storage.lastIndex := by
    rw [finalIndices, hundelivered]
    rfl
  refine ⟨howns, h, ?_, ?_, ?_, by simp, hused⟩
  · rw [hundelivered]
    trivial
  · rw [hfinal]
    exact fun t => Nat.le_succ _
  · rw [hfinal]
    exact fun t => le_rfl

theorem Sound.step (h : s.Sound last) {a : ProcessStep D} (hcareful : s.Careful a)
    (hstep : s.step a = some s') : ∃ last', s'.Sound last' := by
  cases a with
  | nextAddress t => exact h.nextAddress hcareful hstep
  | prepare rpc fuel recipient amount fee timestamp => exact h.prepare hstep
  | submit n => exact ⟨_, h.submit hcareful hstep⟩
  | beginSync rpc => exact ⟨_, h.beginSync hstep⟩
  | syncChain rpc fuel => exact ⟨_, h.syncChain hcareful hstep⟩
  | store => exact ⟨_, h.store hstep⟩
  | setHeight => exact ⟨_, h.setHeight hstep⟩
  | restart network =>
    simp only [WalletProcess.step, bind_eq_some, Option.some_inj] at hstep
    obtain ⟨w, hw, rfl⟩ := hstep
    exact ⟨_, sound_of_openWallet h.consistent h.used hw⟩

/-- In a run of careful steps from files that can be opened, the process can be killed at every
moment: it starts again, and knows every address that was handed out or used. -/
theorem recovers_of_careful {storage : WalletStorage D} (hstorage : storage.Consistent)
    {network : Network} {w : Wallet D} (hw : storage.openWallet network = some w)
    {as : List (ProcessStep D)} {ss : List (WalletProcess D)}
    (ht : trace WalletProcess.step ⟨w, storage, .idle, [], []⟩ as = some ss)
    (hcareful : ∀ x ∈ steps ⟨w, storage, .idle, [], []⟩ as ss, x.1.Careful x.2) :
    ∀ s ∈ ss, s.Recovers := by
  have hstart : ∃ last, Sound last (⟨w, storage, .idle, [], []⟩ : WalletProcess D) :=
    ⟨_, sound_of_openWallet hstorage (by simp) hw⟩
  have hrun := forall_trace_of_step (I := fun s : WalletProcess D => ∃ last, s.Sound last)
    (fun s a s' hs hC hstep => hs.choose_spec.step hC hstep) hstart ht hcareful
  intro s hs
  obtain ⟨last, hsound⟩ := hrun s hs
  exact hsound.recovers

end

end WalletProcess

/-! ## Two transactions -/

namespace TwoSends

def coin : MonitoredUtxo SymbolicDigest where
  utxo := ⟨(SymbolicDigest.entropy.derive .symmetric 0).address.lockScriptHash,
    NativeCurrencyAmount.toNativeCoins ⟨30⟩⟩
  membershipProof := ⟨.atom 8, .atom 7, [], 0, .empty⟩
  status := .unspent
  inclusionBlock := none

def storage : WalletStorage SymbolicDigest :=
  { WalletStorage.new SymbolicDigest.entropy with
    utxos := ⟨[(.new coin, coin)], by simp⟩
    height := some ⟨1⟩ }

def rpc : RpcAnswers SymbolicDigest :=
  let msa := ((MutatorSetAccumulator.empty : MutatorSetAccumulator SymbolicDigest).add
    coin.additionRecord).getD .empty
  { SymbolicDigest.idleAnswers with
    restoreMembershipProof := fun _ sets =>
      .ok ⟨.atom 9, msa, sets.map fun _ => ⟨⟨[(0, [])], by decide⟩, .empty⟩⟩ }

def send : List (ProcessStep SymbolicDigest) :=
  [.prepare rpc 10 ⟨.atom 5, .atom 6⟩ ⟨10⟩ ⟨1⟩ (.millis 100), .submit 0]

def syncRound : List (ProcessStep SymbolicDigest) :=
  [.beginSync rpc, .syncChain rpc 10, .store, .setHeight]

def careful : List (ProcessStep SymbolicDigest) :=
  send ++ syncRound ++ [.nextAddress .symmetric, .restart .main]

theorem consistent_storage : storage.Consistent := by
  intro k u hu
  rw [get?_eq_some_iff] at hu
  cases mem_singleton.mp hu
  exact ⟨rfl, .symmetric, 0, Nat.zero_le _, rfl⟩

section

local instance keptOrder : IterOrder := .asKept

theorem recovers_after_sync : ∃ w, storage.openWallet .main = some w ∧
      ∃ ss, trace WalletProcess.step ⟨w, storage, .idle, [], []⟩ careful = some ss ∧
        ss.map (fun s => s.used.length) = [0, 1, 1, 1, 1, 1, 2, 2] ∧ ∀ s ∈ ss, s.Recovers := by
  have hrun : ∃ w, storage.openWallet .main = some w ∧
      ∃ ss, trace WalletProcess.step ⟨w, storage, .idle, [], []⟩ careful = some ss ∧
        ss.map (fun s => s.used.length) = [0, 1, 1, 1, 1, 1, 2, 2] ∧
          ∀ x ∈ steps ⟨w, storage, .idle, [], []⟩ careful ss, x.1.Careful x.2 := by
    decide +kernel
  obtain ⟨w, hw, ss, hss, hlengths, hcareful⟩ := hrun
  exact ⟨w, hw, ss, hss, hlengths,
    WalletProcess.recovers_of_careful consistent_storage hw hss hcareful⟩

/-- Two transactions are sent before an event is stored; the change of the second one goes to an
address that a restarted wallet does not know. -/
theorem two_sends_not_recovered : ∃ w, storage.openWallet .main = some w ∧
      ∃ ss, trace WalletProcess.step ⟨w, storage, .idle, [], []⟩ (send ++ send) = some ss ∧
        ss.map (fun s => s.used.length) = [0, 1, 1, 2] ∧ ∃ s ∈ ss, ¬ s.Recovers := by
  have hrun : ∃ w, storage.openWallet .main = some w ∧
      ∃ ss, trace WalletProcess.step ⟨w, storage, .idle, [], []⟩ (send ++ send) = some ss ∧
        ss.map (fun s => s.used.length) = [0, 1, 1, 2] ∧
          ∃ s ∈ ss, ∃ w, s.storage.openWallet .main = some w ∧
            ∃ a ∈ s.used, ∀ key ∈ w.scanner.keys, key.address ≠ a := by
    decide +kernel
  obtain ⟨w, hw, ss, hss, hlengths, s, hs, w', hw', a, ha, hunknown⟩ := hrun
  refine ⟨w, hw, ss, hss, hlengths, s, hs, fun hrecovers => ?_⟩
  obtain ⟨w'', hw'', hknown⟩ := hrecovers .main
  obtain rfl := Option.some_inj.mp (hw'.symm.trans hw'')
  obtain ⟨key, hkey, heq, -⟩ := hknown a ha
  exact hunknown key hkey heq

end

end TwoSends

end NyksNode
