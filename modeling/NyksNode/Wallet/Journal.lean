import NyksNode.Lib.Trace
import NyksNode.Wallet.Wallet

/-!
# Events of the wallet

`next_address` and `send` queue events for the next call of `sync`, and `sync` itself finds events
when it scans the mempool.  The journal keeps all events that were raised and all that a successful
call of `sync` has returned.

`sync` takes the events out of the queue, and marks the transactions of the mempool as checked,
before it follows the chain.  If that fails, the events are neither returned nor queued.
-/

namespace NyksNode

open List Option Wallet SymbolicDigest

inductive WalletCall (D : Type) where
  | nextAddress (keyType : KeyType)
  | send (rpc : RpcAnswers D) (fuel : ℕ) (recipient : Address D)
      (amount fee : NativeCurrencyAmount) (timestamp : Timestamp)
  | sync (rpc : RpcAnswers D) (fuel : ℕ)

/-- The wallet, the events that were raised, and those that were returned. -/
structure Journal (D : Type) where
  wallet : Wallet D
  raised : List (WalletEvent D)
  delivered : List (WalletEvent D)

/-- An event that does not come from the chain. -/
def WalletEvent.isQueued {D : Type} : WalletEvent D → Bool
  | .utxoReceived _ _ => false
  | _ => true

namespace Journal
variable {D : Type} [DecidableEq D] [Tip5 D] [ConsensusOps D] [DigestOps D] [NoteOps D] [MmrOps D]
  [CoinOps D] [WalletOps D] [TransactionOps D] [IterOrder]

/-- The events that a successful call of `sync` returns, without those of the chain. -/
def returned : Except (SyncError D) (List (WalletEvent D)) → List (WalletEvent D)
  | .ok events => events.filter (·.isQueued)
  | .error _ => []

/-- The events that the scan of the mempool finds. -/
def foundBy (rpc : RpcAnswers D) (w : Wallet D) : List (WalletEvent D) :=
  ((Wallet.scanMempool rpc w.utxos.index w.mempoolScanner).map (·.1)).getD []

def queueing (j : Journal D) (w : Wallet D) : Journal D :=
  { j with
    wallet := w
    raised := j.raised ++ w.pendingEvents.drop j.wallet.pendingEvents.length }

def call (j : Journal D) : WalletCall D → Option (Journal D)
  | .nextAddress keyType => do
    let (_, w) ← (Wallet.nextAddress keyType : Effect (Wallet D) RpcError _).start j.wallet
    some (j.queueing w)
  | .send rpc fuel recipient amount fee timestamp => do
    let (_, w) ← (Wallet.send rpc fuel recipient amount fee timestamp).start j.wallet
    some (j.queueing w)
  | .sync rpc fuel => do
    let (outcome, w) ← (Wallet.sync rpc fuel).start j.wallet
    some ⟨w, j.raised ++ foundBy rpc j.wallet, j.delivered ++ returned outcome⟩

/-- Every event that was raised was returned, once and in order, or is still queued. -/
structure Settled (j : Journal D) : Prop where
  queued : ∀ e ∈ j.wallet.pendingEvents, e.isQueued = true
  raised_eq : j.raised = j.delivered ++ j.wallet.pendingEvents

instance (j : Journal D) : Decidable j.Settled :=
  decidable_of_iff (_ ∧ _) ⟨fun h => ⟨h.1, h.2⟩, fun h => ⟨h.1, h.2⟩⟩

/-- A failing call of `sync` has nothing to lose. -/
def Harmless (j : Journal D) : WalletCall D → Prop
  | .sync rpc fuel => (∃ e w, (Wallet.sync rpc fuel).start j.wallet = some (.error e, w)) →
    j.wallet.pendingEvents = [] ∧ foundBy rpc j.wallet = []
  | _ => True

variable {j : Journal D}

omit [DecidableEq D] [Tip5 D] [ConsensusOps D] [DigestOps D] [NoteOps D] [MmrOps D] [CoinOps D]
  [WalletOps D] [TransactionOps D] [IterOrder] in
theorem Settled.queueing (h : j.Settled) {w : Wallet D} {events : List (WalletEvent D)}
    (hw : w.pendingEvents = j.wallet.pendingEvents ++ events)
    (hevents : ∀ e ∈ events, e.isQueued = true) : (j.queueing w).Settled where
  queued := by
    change ∀ e ∈ w.pendingEvents, _
    rw [hw, forall_mem_append]
    exact ⟨h.queued, hevents⟩
  raised_eq := by
    change j.raised ++ w.pendingEvents.drop _ = j.delivered ++ w.pendingEvents
    rw [hw, drop_left, h.raised_eq, append_assoc]

variable {rpc : RpcAnswers D}

omit [Tip5 D] [ConsensusOps D] [DigestOps D] [NoteOps D] [MmrOps D] [CoinOps D] [WalletOps D]
  [TransactionOps D] [IterOrder] in
theorem isQueued_of_scanMempool {index : AssocMap AbsoluteIndexSet (UtxoKey D)}
    {s s' : MempoolScanner D} {found : List (WalletEvent D)}
    (h : Wallet.scanMempool rpc index s = some (found, s')) : ∀ e ∈ found, e.isQueued = true := by
  intro e he
  obtain ⟨id, utxos, rfl⟩ := exists_of_mem_scanMempool h he
  rfl

variable {fuel : ℕ}

omit [CoinOps D] [WalletOps D] [TransactionOps D] [IterOrder] in
/-- Following the chain leaves the queue alone, and finds nothing that would be queued. -/
theorem of_chainSynced {networkHeight : BlockHeight} {w w' : Wallet D}
    {result : Except (SyncError D) (Option (List (WalletEvent D)))}
    (h : Wallet.ChainSynced rpc fuel networkHeight w result w') :
    w'.pendingEvents = w.pendingEvents ∧
      ∀ chain, result = .ok chain → (chain.getD []).filter (·.isQueued) = [] := by
  cases h with
  | caughtUp _ =>
    refine ⟨rfl, fun chain hchain => ?_⟩
    cases hchain
    rfl
  | refused _ _ =>
    refine ⟨rfl, fun chain hchain => ?_⟩
    cases hchain
  | received _ _ hreceived =>
    cases hreceived with
    | failed _ =>
      refine ⟨rfl, fun chain hchain => ?_⟩
      cases hchain
    | added _ _ =>
      refine ⟨rfl, fun chain hchain => ?_⟩
      cases hchain
      rw [getD_some, filter_eq_nil_iff]
      intro e he
      obtain ⟨a, -, rfl⟩ := mem_map.mp he
      exact Bool.false_ne_true

theorem settled_sync_iff {j' : Journal D} (h : j.Settled)
    (hcall : j.call (.sync rpc fuel) = some j') : j'.Settled ↔ j.Harmless (.sync rpc fuel) := by
  simp only [call, bind_eq_some, Prod.exists, some_inj] at hcall
  obtain ⟨outcome, w, hstart, rfl⟩ := hcall
  obtain ⟨networkHeight, found, scanner, result, -, hscan, hchain, houtcome⟩ :=
    exists_of_start_sync hstart
  have hfound : foundBy rpc j.wallet = found := by
    rw [foundBy, hscan]
    rfl
  obtain ⟨hpending, hquiet⟩ := of_chainSynced hchain
  replace hpending : w.pendingEvents = [] := hpending
  have hqueued : ∀ e ∈ w.pendingEvents, e.isQueued = true := by
    rw [hpending]
    simp
  cases result with
  | ok chain =>
    -- All events are returned.
    subst houtcome
    refine iff_of_true ⟨hqueued, ?_⟩ ?_
    · have hkeep : (j.wallet.pendingEvents ++ found).filter (·.isQueued) =
          j.wallet.pendingEvents ++ found := by
        rw [filter_eq_self, forall_mem_append]
        exact ⟨h.queued, isQueued_of_scanMempool hscan⟩
      change j.raised ++ foundBy rpc j.wallet = (j.delivered ++
        (j.wallet.pendingEvents ++ found ++ chain.getD []).filter (·.isQueued)) ++ w.pendingEvents
      rw [hfound, hpending, append_nil, filter_append, hkeep, hquiet chain rfl,
        append_nil, h.raised_eq, append_assoc]
    · intro herror
      obtain ⟨e, w', herror⟩ := herror
      rw [hstart] at herror
      cases herror
  | error e =>
    -- All events are lost.
    subst houtcome
    have hlost : j.raised ++ found = j.delivered ↔ j.wallet.pendingEvents = [] ∧ found = [] := by
      rw [h.raised_eq, append_assoc, append_right_eq_self, append_eq_nil_iff]
    constructor
    · intro hsettled _
      have heq := hsettled.raised_eq
      change j.raised ++ foundBy rpc j.wallet = (j.delivered ++ []) ++ w.pendingEvents at heq
      rw [hfound, hpending, append_nil, append_nil] at heq
      rw [hfound]
      exact hlost.mp heq
    · intro hharmless
      have hnone := hharmless ⟨e, w, hstart⟩
      rw [hfound] at hnone
      refine ⟨hqueued, ?_⟩
      change j.raised ++ foundBy rpc j.wallet = (j.delivered ++ []) ++ w.pendingEvents
      rw [hfound, hpending, append_nil, append_nil]
      exact hlost.mpr hnone

theorem settled_call_iff {j' : Journal D} {c : WalletCall D} (h : j.Settled)
    (hcall : j.call c = some j') : j'.Settled ↔ j.Harmless c := by
  cases c with
  | nextAddress keyType =>
    simp only [call, start_nextAddress, some_bind, some_inj] at hcall
    subst hcall
    refine iff_of_true (h.queueing rfl ?_) trivial
    simp [WalletEvent.isQueued]
  | send rpc fuel recipient amount fee timestamp =>
    simp only [call, bind_eq_some, Prod.exists, some_inj] at hcall
    obtain ⟨outcome, w, hstart, rfl⟩ := hcall
    obtain ⟨transaction, hprepare⟩ := exists_of_start_send hstart
    obtain ⟨target, selection, pool, _, _, _, _, _, _, _, _, rfl⟩ :=
      exists_of_start_prepareTransaction hprepare
    refine iff_of_true (h.queueing (append_assoc _ _ _) ?_) trivial
    intro e he
    rw [mem_append, List.mem_map, mem_singleton] at he
    cases he with
    | inl hinvalidated =>
      obtain ⟨i, -, rfl⟩ := hinvalidated
      rfl
    | inr hgenerated =>
      rw [hgenerated]
      rfl
  | sync rpc fuel => exact settled_sync_iff h hcall

/-- In a run from a wallet without queued events every event is returned once or still queued, at
every moment, exactly if no failing call of `sync` has an event to lose. -/
theorem settled_iff {w : Wallet D} (hw : w.pendingEvents = []) {calls : List (WalletCall D)}
    {js : List (Journal D)} (ht : trace call ⟨w, [], []⟩ calls = some js) :
    (∀ j ∈ js, j.Settled) ↔ ∀ x ∈ steps ⟨w, [], []⟩ calls js, x.1.Harmless x.2 := by
  refine forall_trace_iff (fun j c j' hj hcall => settled_call_iff hj hcall) ⟨?_, ?_⟩ ht
  · change ∀ e ∈ w.pendingEvents, _
    rw [hw]
    simp
  · change [] = [] ++ w.pendingEvents
    rw [hw]
    rfl

omit [CoinOps D] [WalletOps D] [TransactionOps D] [IterOrder] in
theorem harmless_of_genesis (hrpc : rpc.height = .ok .genesis) : j.Harmless (.sync rpc fuel) := by
  intro herror
  obtain ⟨e, w, hstart⟩ := herror
  obtain ⟨networkHeight, found, scanner, result, hheight, -, hchain, houtcome⟩ :=
    exists_of_start_sync hstart
  rw [hrpc] at hheight
  cases hheight
  have htip : ∀ h : BlockHeight, .genesis ≤ h := fun h => Fin.zero_le h.value
  cases hchain with
  | caughtUp _ => cases houtcome
  | refused hnot _ => exact absurd (htip _) hnot
  | received hnot _ _ => exact absurd (htip _) hnot

end Journal

section

local instance Journal.keptOrder : IterOrder := .asKept

/-- The queued event is delivered. -/
theorem settled_idle : ∃ js, trace Journal.call ⟨.new SymbolicDigest.entropy none .main, [], []⟩
        [.nextAddress .generation, .sync SymbolicDigest.idleAnswers 1] = some js ∧
      js.map (fun j => (j.raised.length, j.delivered.length)) = [(1, 0), (1, 1)] ∧
      ∀ j ∈ js, j.Settled := by
  have hrun : ∃ js, trace Journal.call ⟨.new entropy none .main, [], []⟩
      [.nextAddress .generation, .sync idleAnswers 1] = some js ∧
      js.map (fun j => (j.raised.length, j.delivered.length)) = [(1, 0), (1, 1)] := by
    decide +kernel
  obtain ⟨js, hjs, hlengths⟩ := hrun
  refine ⟨js, hjs, hlengths, (Journal.settled_iff rfl hjs).mpr ?_⟩
  intro x hx
  have hcall := (of_mem_zip hx).2
  rw [mem_cons, mem_singleton] at hcall
  obtain ⟨j, c⟩ := x
  cases hcall with
  | inl hnext =>
    cases hnext
    exact trivial
  | inr hsync =>
    cases hsync
    exact Journal.harmless_of_genesis rfl

/-- A call of `sync` fails after it has drained the queue; the event never comes. -/
theorem broken_not_settled :
    ∃ js, trace Journal.call ⟨.new SymbolicDigest.entropy none .main, [], []⟩
        [.nextAddress .generation, .sync SymbolicDigest.brokenAnswers 1,
          .sync SymbolicDigest.idleAnswers 1] = some js ∧
      js.map (fun j => (j.raised.length, j.delivered.length, j.wallet.pendingEvents.length)) =
        [(1, 0, 1), (1, 0, 0), (1, 0, 0)] ∧ ∃ j ∈ js, ¬ j.Settled := by
  decide +kernel

end

end NyksNode
