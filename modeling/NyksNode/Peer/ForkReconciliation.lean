import NyksNode.Lib.Effect
import NyksNode.Block.ChainInvariant
import NyksNode.Block.EmptyChain
import NyksNode.Block.ForkChoice
import NyksNode.Peer.Challenge

/-!
# Fork reconciliation

A block whose parent is not known is put on a list, and its parent is requested from the peer.  So
the list grows downwards, until a block arrives whose parent is stored; then the list is turned
around, checked from the stored block upwards, and passed on to the main loop.

Other tasks run between two lines of a handler.  What a handler reads from the state they share is
a parameter of each message, in the surroundings that the message meets.
-/

namespace NyksNode

open List

/-- The arguments of the node that the handlers read.  The parser of the arguments checks the
range. -/
structure Cli where
  network : Network
  syncModeThreshold : ℕ
  syncModeThreshold_range : 10 ≤ syncModeThreshold ∧ syncModeThreshold < 100000

inductive NegativePeerSanction (D : Type) where
  | invalidTransferBlock
  | oversizedBlock
  | differentGenesis
  | forkResolutionError (height : BlockHeight) (numBlocks : Fin (2 ^ 16)) (digest : D)
  | invalidBlock (height : BlockHeight) (digest : D)
  deriving DecidableEq, Repr

inductive PositivePeerSanction where
  | validBlocks (number : ℕ)
  deriving DecidableEq, Repr

/-- The messages that fork reconciliation sends to the peer. -/
inductive PeerMessage (D : Type) where
  | blockRequestByHash (digest : D)
  | blockRequestByHeight (height : BlockHeight)
  deriving DecidableEq, Repr

/-- The size of a block on the wire. -/
class WireOps (D : Type) where
  /-- `bincode::serialized_size`. -/
  serializedSize : Block D → Option ℕ

def maxBlockSizeInForkReconciliation : ℕ := 2 * 8 * ConsensusRuleSet.launch.maxBlockSize

/-- `MutablePeerState`, without the state of sync challenges. -/
structure MutablePeerState (D : Type) where
  highestSharedBlockHeight : BlockHeight
  forkReconciliationBlocks : List (Block D)
  deriving Repr

def MutablePeerState.new {D : Type} (blockHeight : BlockHeight) : MutablePeerState D :=
  ⟨blockHeight, []⟩

/-- What a handler reads from the outside, and what becomes of what it sends. -/
structure Surroundings (D : Type) where
  now : Timestamp
  validationTime : Timestamp
  getBlock : D → Except String (Option (Block D))
  tip : Block D
  punish : NegativePeerSanction D → Except String Unit
  reward : PositivePeerSanction → Except String Unit
  sendToPeer : PeerMessage D → Except String Unit
  sendToMain : Except String Unit

/-- The messages of a handler: lists of `NewBlocks` to the main loop, and messages to the peer. -/
structure Outbox (D : Type) where
  newBlocks : List (List (Block D)) := []
  toPeer : List (PeerMessage D) := []
  deriving Repr

/-- The state that the handlers of a peer work on. -/
structure PeerTask (D : Type) where
  peerState : MutablePeerState D
  outbox : Outbox D
  deriving Repr

namespace PeerTask
variable {D : Type}

abbrev Handler (D α : Type) := Effect (PeerTask D) String α

open Effect (read update orPanic attempt)

def setForkReconciliationBlocks (blocks : List (Block D)) (s : PeerTask D) : PeerTask D :=
  { s with peerState := { s.peerState with forkReconciliationBlocks := blocks } }

def setHighestSharedBlockHeight (height : BlockHeight) (s : PeerTask D) : PeerTask D :=
  { s with peerState := { s.peerState with highestSharedBlockHeight := height } }

def sendToPeer (env : Surroundings D) (message : PeerMessage D) : Handler D Unit := do
  attempt (env.sendToPeer message)
  update fun s => { s with outbox := { s.outbox with toPeer := s.outbox.toPeer ++ [message] } }

def sendToMain (env : Surroundings D) (blocks : List (Block D)) : Handler D Unit := do
  attempt env.sendToMain
  update fun s => { s with outbox := { s.outbox with newBlocks := s.outbox.newBlocks ++ [blocks] } }

variable [Tip5 D] [ConsensusOps D] [DecidableEq D] [DigestOps D]

/-- The sanction for an invalid block. -/
def punishInvalidBlock (env : Surroundings D) (block : Block D) : Handler D Unit :=
  attempt (env.punish (.invalidBlock block.header.height block.hash))

/-- The text of the log line about missing work, which computes the target. -/
def logInsufficientPow (previousBlock : Block D) : Handler D Unit := do
  let _ ← orPanic (previousBlock.header.difficulty.target : Option D)
  pure ()

variable [MmrOps D] [MmrIndexing]

/-- The loop of `handle_blocks`: whether all blocks are valid and have proof-of-work. -/
def validateBlocks (cli : Cli) (env : Surroundings D) : Block D → List (Block D) → Handler D Bool
  | _, [] => pure true
  | previousBlock, newBlock :: newBlocks => do
    let newBlockHasProofOfWork ← orPanic (newBlock.hasProofOfWork cli.network previousBlock.header)
    let newBlockIsValid ← orPanic (newBlock.isValid previousBlock env.validationTime cli.network)
    if newBlockHasProofOfWork = false then do
      logInsufficientPow previousBlock
      punishInvalidBlock env newBlock
      pure false
    else if newBlockIsValid = false then do
      punishInvalidBlock env newBlock
      pure false
    else validateBlocks cli env newBlock newBlocks

/-- The second half of `handle_blocks`. -/
def forwardBlocks (env : Surroundings D) (receivedBlocks : List (Block D)) :
    Handler D (Option BlockHeight) := do
  let lastBlock ← orPanic receivedBlocks.getLast?
  if env.tip.incomingBlockIsMoreCanonical lastBlock then do
    sendToMain env receivedBlocks
    attempt (env.reward (.validBlocks receivedBlocks.length))
    pure (some lastBlock.header.height)
  else pure none

def handleBlocks (cli : Cli) (env : Surroundings D) (receivedBlocks : List (Block D))
    (parentOfFirstBlock : Block D) : Handler D (Option BlockHeight) := do
  let valid ← validateBlocks cli env parentOfFirstBlock receivedBlocks
  if valid then forwardBlocks env receivedBlocks else pure none

/-- Whether the received block fits under the last block of the list. -/
def matchesForkReconciliationList (cli : Cli) (env : Surroundings D) (blocks : List (Block D))
    (receivedBlock : Block D) : Option Bool :=
  match blocks.getLast? with
  | some successor => successor.isValid receivedBlock env.now cli.network
  | none => some true

/-- The last part of `try_ensure_path`, once a stored block is reached. -/
def finishPath (cli : Cli) (env : Surroundings D) (blocks : List (Block D))
    (parentBlock : Block D) : Handler D (Option BlockHeight) := do
  let newBlocks := blocks.reverse
  let forkReconciliationEvent := !blocks.isEmpty
  update (setForkReconciliationBlocks [])
  match ← handleBlocks cli env newBlocks parentBlock with
  | none => pure none
  | some newBlockHeight => do
    let s ← read
    if forkReconciliationEvent ∧ newBlockHeight < s.peerState.highestSharedBlockHeight then do
      sendToPeer env (.blockRequestByHeight s.peerState.highestSharedBlockHeight)
      pure (some newBlockHeight)
    else pure (some newBlockHeight)

/-- The middle part of `try_ensure_path`: put the block on the list, and look for its parent. -/
def extendPath (cli : Cli) (env : Surroundings D) (blocks : List (Block D))
    (receivedBlock : Block D) : Handler D (Option BlockHeight) := do
  update (setForkReconciliationBlocks (blocks ++ [receivedBlock]))
  let parentDigest := receivedBlock.header.prevBlockDigest
  let parentHeight ← orPanic receivedBlock.header.height.previous
  match ← attempt (env.getBlock parentDigest) with
  | some parentBlock => finishPath cli env (blocks ++ [receivedBlock]) parentBlock
  | none =>
    if parentHeight.isGenesis then do
      update (setForkReconciliationBlocks [])
      attempt (env.punish .differentGenesis)
      pure none
    else do
      sendToPeer env (.blockRequestByHash parentDigest)
      pure none

section
variable [WireOps D]

def tryEnsurePath (cli : Cli) (env : Surroundings D) (receivedBlock : Block D) :
    Handler D (Option BlockHeight) := do
  let blockSize := (WireOps.serializedSize receivedBlock).getD (2 ^ 64 - 1)
  if maxBlockSizeInForkReconciliation < blockSize then do
    attempt (env.punish .oversizedBlock)
    update (setForkReconciliationBlocks [])
    pure none
  else do
    let s ← read
    let blocks := s.peerState.forkReconciliationBlocks
    let receivedBlockMatches ← orPanic (matchesForkReconciliationList cli env blocks receivedBlock)
    if receivedBlockMatches = false ∨ cli.syncModeThreshold ≤ blocks.length + 1 then do
      attempt (env.punish (.forkResolutionError receivedBlock.header.height
        (Fin.ofNat _ blocks.length) receivedBlock.hash))
      update (setForkReconciliationBlocks [])
      pure none
    else extendPath cli env blocks receivedBlock

/-- `handle_peer_message` for a block, outside sync mode. -/
def handleBlockMessage (cli : Cli) (env : Surroundings D) (t : TransferBlock D) : Handler D Unit :=
  match t.toBlock with
  | .error _ => attempt (env.punish .invalidTransferBlock)
  | .ok block => do
    match ← tryEnsurePath cli env block with
    | some newBlockHeight => update (setHighestSharedBlockHeight newBlockHeight)
    | none => pure ()

/-- What happens to a peer, one event after the other. -/
inductive Event (D : Type) where
  | block (t : TransferBlock D) (env : Surroundings D)
  /-- A block notification, or a block of another peer, moves the shared height. -/
  | share (height : BlockHeight)

/-- The lists of blocks that were sent to the main loop, and the surroundings of each. -/
abbrev Sent (D : Type) := List (Surroundings D × List (Block D))

/-- The handlers of a sequence of events.  An error closes the connection. -/
def run (cli : Cli) : MutablePeerState D → List (Event D) → Option (MutablePeerState D × Sent D)
  | peerState, [] => some (peerState, [])
  | peerState, .share height :: events =>
    run cli { peerState with highestSharedBlockHeight := height } events
  | peerState, .block t env :: events => do
    let (outcome, s) ← (handleBlockMessage cli env t).start ⟨peerState, {}⟩
    let sent := s.outbox.newBlocks.map fun blocks => (env, blocks)
    match outcome with
    | .error _ => some (s.peerState, sent)
    | .ok () => (run cli s.peerState events).map fun r => (r.1, sent ++ r.2)

end

/-! ## The invariant -/

/-- Each block of the list is a valid successor of the next one, and there are not too many. -/
structure Reconciling (cli : Cli) (blocks : List (Block D)) : Prop where
  chain : blocks.IsChain fun block parent =>
    ∃ now, block.isValid parent now cli.network = some true
  short : blocks.length < cli.syncModeThreshold

/-- Each block is a valid successor of the one before, and has proof-of-work. -/
def IsPath (cli : Cli) (now : Timestamp) (blocks : List (Block D)) : Prop :=
  blocks.IsChain fun parent block =>
    block.isValid parent now cli.network = some true ∧
    block.hasProofOfWork cli.network parent.header = some true

/-- What the main loop may expect of the blocks that it gets. -/
structure Forwarded (cli : Cli) (env : Surroundings D) (blocks : List (Block D)) : Prop where
  /-- The first block is a child of a stored block. -/
  connected : ∃ first parent, blocks.head? = some first ∧
    env.getBlock first.header.prevBlockDigest = .ok (some parent) ∧
    IsPath cli env.validationTime (parent :: blocks)
  /-- The last block beats the tip. -/
  canonical : ∃ last, blocks.getLast? = some last ∧ env.tip.incomingBlockIsMoreCanonical last = true

/-- The state of a handler between two lines. -/
structure Sound (cli : Cli) (env : Surroundings D) (s : PeerTask D) : Prop where
  reconciling : Reconciling cli s.peerState.forkReconciliationBlocks
  forwarded : ∀ blocks ∈ s.outbox.newBlocks, Forwarded cli env blocks

section
variable {cli : Cli} {env : Surroundings D}

theorem reconciling_nil : Reconciling cli ([] : List (Block D)) :=
  ⟨isChain_nil, Nat.lt_of_lt_of_le (Nat.succ_pos 9) cli.syncModeThreshold_range.1⟩

variable {blocks : List (Block D)}

theorem Reconciling.append {block : Block D} (h : Reconciling cli blocks)
    (hmatches : matchesForkReconciliationList cli env blocks block = some true)
    (hshort : blocks.length + 1 < cli.syncModeThreshold) : Reconciling cli (blocks ++ [block]) := by
  refine ⟨isChain_append.mpr ⟨h.chain, isChain_singleton _, ?_⟩, by simpa using hshort⟩
  intro successor hlast b hb
  obtain rfl : block = b := by simpa using hb
  rw [Option.mem_def] at hlast
  rw [matchesForkReconciliationList, hlast] at hmatches
  exact ⟨env.now, hmatches⟩

variable {s : PeerTask D}

theorem Sound.setForkReconciliationBlocks (h : Sound cli env s) (hblocks : Reconciling cli blocks) :
    Sound cli env (s.setForkReconciliationBlocks blocks) :=
  ⟨hblocks, h.forwarded⟩

theorem Sound.clear (h : Sound cli env s) : Sound cli env (s.setForkReconciliationBlocks []) :=
  h.setForkReconciliationBlocks reconciling_nil

open Effect (Ensures)

/-- A handler that keeps the state sound, whether it returns or reports an error. -/
abbrev Keeps (cli : Cli) (env : Surroundings D) {α : Type} (x : Handler D α) : Prop :=
  Ensures (Sound cli env) x (fun _ => Sound cli env) (Sound cli env)

theorem keeps_pure {α : Type} (a : α) : Keeps cli env (pure a) := .pure fun _ hs => hs

theorem keeps_attempt {α : Type} (x : Except String α) : Keeps cli env (attempt x) :=
  .attempt (fun _ _ hs _ => hs) fun _ hs => hs

theorem keeps_read : Keeps cli env (read : Handler D (PeerTask D)) :=
  Ensures.mono (.read fun _ hs => hs) (fun _ hs => hs) (fun _ _ hs => hs.2) fun _ hs => hs

theorem keeps_clear : Keeps cli env (update (setForkReconciliationBlocks [])) :=
  .update fun _ hs => hs.clear

theorem keeps_sendToPeer (message : PeerMessage D) : Keeps cli env (sendToPeer env message) :=
  (keeps_attempt _).bind fun _ => .update fun _ hs => ⟨hs.reconciling, hs.forwarded⟩

theorem keeps_sendToMain (h : Forwarded cli env blocks) :
    Keeps cli env (sendToMain env blocks) := by
  refine (keeps_attempt _).bind fun _ => .update fun s hs => ⟨hs.reconciling, ?_⟩
  intro bs hbs
  cases mem_append.mp hbs with
  | inl hold => exact hs.forwarded bs hold
  | inr hnew =>
    rw [mem_singleton] at hnew
    rw [hnew]
    exact h

theorem validateBlocks_ensures (parent : Block D) (blocks : List (Block D)) :
    Ensures (Sound cli env) (validateBlocks cli env parent blocks)
      (fun valid s => (valid = true → IsPath cli env.validationTime (parent :: blocks)) ∧
        Sound cli env s) (Sound cli env) := by
  induction blocks generalizing parent with
  | nil => exact .pure fun s hs => ⟨fun _ => isChain_singleton _, hs⟩
  | cons block blocks ih =>
    refine .bind (.orPanic fun s pow hs hpow => ⟨hpow, hs⟩) fun pow => .of_fact fun hpow => ?_
    refine .bind (.orPanic fun s valid hs hvalid => ⟨hvalid, hs⟩) fun valid =>
      .of_fact fun hvalid => ?_
    have hreject : Ensures (Sound cli env) (pure false : Handler D Bool)
        (fun valid s => (valid = true → IsPath cli env.validationTime (parent :: block :: blocks)) ∧
          Sound cli env s) (Sound cli env) :=
      .pure fun s hs => ⟨fun hfalse => (nomatch hfalse), hs⟩
    refine .ite (fun _ => ?_) fun hpowTrue => .ite (fun _ => ?_) fun hvalidTrue => ?_
    · refine .bind (.bind (.orPanic fun s _ hs _ => hs) fun _ => keeps_pure ()) fun _ => ?_
      exact (keeps_attempt _).bind fun _ => hreject
    · exact (keeps_attempt _).bind fun _ => hreject
    · rw [Bool.not_eq_false] at hpowTrue hvalidTrue
      rw [hpowTrue] at hpow
      rw [hvalidTrue] at hvalid
      refine (ih block).mono (fun s hs => hs) (fun ok s hs => ⟨fun hok => ?_, hs.2⟩) fun s hs => hs
      exact isChain_cons_cons.mpr ⟨⟨hvalid, hpow⟩, hs.1 hok⟩

theorem keeps_forwardBlocks
    (h : ∃ first parent, blocks.head? = some first ∧ env.getBlock first.header.prevBlockDigest =
      .ok (some parent) ∧ IsPath cli env.validationTime (parent :: blocks)) :
    Keeps cli env (forwardBlocks env blocks) := by
  refine .bind (.orPanic fun s last hs hlast => ⟨hlast, hs⟩) fun last => .of_fact fun hlast => ?_
  refine .ite (fun hcanonical => ?_) fun _ => keeps_pure none
  refine (keeps_sendToMain ⟨h, last, hlast, hcanonical⟩).bind fun _ => ?_
  exact (keeps_attempt _).bind fun _ => keeps_pure _

theorem keeps_handleBlocks {first parent : Block D} (hfirst : blocks.head? = some first)
    (hparent : env.getBlock first.header.prevBlockDigest = .ok (some parent)) :
    Keeps cli env (handleBlocks cli env blocks parent) := by
  refine (validateBlocks_ensures parent blocks).bind fun valid => .of_fact fun hvalid => ?_
  exact .ite (fun hv => keeps_forwardBlocks ⟨first, parent, hfirst, hparent, hvalid hv⟩)
    fun _ => keeps_pure none

theorem keeps_finishPath {last parent : Block D} (hlast : blocks.getLast? = some last)
    (hparent : env.getBlock last.header.prevBlockDigest = .ok (some parent)) :
    Keeps cli env (finishPath cli env blocks parent) := by
  have hfirst : blocks.reverse.head? = some last := by rw [head?_reverse, hlast]
  refine keeps_clear.bind fun _ => (keeps_handleBlocks hfirst hparent).bind fun height => ?_
  cases height with
  | none => exact keeps_pure none
  | some height =>
    refine .bind keeps_read fun s => ?_
    exact .ite (fun _ => (keeps_sendToPeer _).bind fun _ => keeps_pure _) fun _ => keeps_pure _

theorem keeps_extendPath {block : Block D} (hblocks : Reconciling cli (blocks ++ [block])) :
    Keeps cli env (extendPath cli env blocks block) := by
  have hpush : Keeps cli env (update (setForkReconciliationBlocks (blocks ++ [block]))) :=
    .update fun s hs => hs.setForkReconciliationBlocks hblocks
  refine hpush.bind fun _ => ?_
  refine .bind (.orPanic fun s height hs _ => hs) fun height => ?_
  refine .bind (.attempt (fun s parent hs hparent => ⟨hparent, hs⟩) fun s hs => hs) fun parent =>
    .of_fact fun hparent => ?_
  cases parent with
  | some parent => exact keeps_finishPath getLast?_concat hparent
  | none =>
    refine .ite (fun _ => ?_) fun _ => ?_
    · exact keeps_clear.bind fun _ => (keeps_attempt _).bind fun _ => keeps_pure none
    · exact (keeps_sendToPeer _).bind fun _ => keeps_pure none

variable [WireOps D]

theorem keeps_tryEnsurePath (block : Block D) : Keeps cli env (tryEnsurePath cli env block) := by
  refine .ite (fun _ => ?_) fun _ => ?_
  · exact (keeps_attempt _).bind fun _ => keeps_clear.bind fun _ => keeps_pure none
  · refine .bind (.read fun s hs => hs) fun s => ?_
    -- the list that was read is still the list
    refine Ensures.mono (P := fun s' => Reconciling cli s.peerState.forkReconciliationBlocks ∧
      Sound cli env s') (.of_fact fun hblocks => ?_) ?_ (fun _ _ hs => hs) fun _ hs => hs
    · refine .bind (.orPanic fun s fits hs hfits => ⟨hfits, hs⟩) fun fits =>
        .of_fact fun hfits => ?_
      refine .ite (fun _ => ?_) fun hok => ?_
      · exact (keeps_attempt _).bind fun _ => keeps_clear.bind fun _ => keeps_pure none
      · rw [not_or, Bool.not_eq_false, Nat.not_le] at hok
        rw [hok.1] at hfits
        exact keeps_extendPath (hblocks.append hfits hok.2)
    · intro s' hs'
      rw [hs'.1]
      exact ⟨hs'.2.reconciling, hs'.2⟩

theorem keeps_handleBlockMessage (t : TransferBlock D) :
    Keeps cli env (handleBlockMessage cli env t) := by
  rw [handleBlockMessage]
  cases t.toBlock with
  | error e => exact keeps_attempt _
  | ok block =>
    refine (keeps_tryEnsurePath block).bind fun height => ?_
    cases height with
    | none => exact keeps_pure ()
    | some height => exact .update fun s hs => ⟨hs.reconciling, hs.forwarded⟩

/-- One message: what holds of the list and of what was sent, whatever the outcome. -/
theorem sound_of_start {t : TransferBlock D} {peerState : MutablePeerState D}
    {outcome : Except String Unit} (h : Reconciling cli peerState.forkReconciliationBlocks)
    (hrun : (handleBlockMessage cli env t).start ⟨peerState, {}⟩ = some (outcome, s)) :
    Sound cli env s := by
  have hstart : Sound cli env ⟨peerState, {}⟩ := ⟨h, fun _ hb => (nomatch hb)⟩
  cases outcome with
  | ok _ => exact (keeps_handleBlockMessage t).ok hstart hrun
  | error _ => exact (keeps_handleBlockMessage t).error hstart hrun

theorem run_sound {events : List (Event D)} {peerState peerState' : MutablePeerState D}
    {sent : Sent D} (h : Reconciling cli peerState.forkReconciliationBlocks)
    (hrun : run cli peerState events = some (peerState', sent)) :
    Reconciling cli peerState'.forkReconciliationBlocks ∧ ∀ m ∈ sent, Forwarded cli m.1 m.2 := by
  induction events generalizing peerState sent with
  | nil =>
    cases hrun
    exact ⟨h, fun _ hm => (nomatch hm)⟩
  | cons event events ih =>
    cases event with
    | share height =>
      rw [run] at hrun
      refine ih ?_ hrun
      exact h
    | block t env =>
      rw [run, bind_eq_some] at hrun
      obtain ⟨⟨outcome, s⟩, hstart, hrun⟩ := hrun
      have hs := sound_of_start h hstart
      have hsent : ∀ m ∈ s.outbox.newBlocks.map fun blocks => (env, blocks),
          Forwarded cli m.1 m.2 := by
        intro m hm
        obtain ⟨blocks, hblocks, rfl⟩ := mem_map.mp hm
        exact hs.forwarded blocks hblocks
      cases outcome with
      | error _ =>
        cases hrun
        exact ⟨hs.reconciling, hsent⟩
      | ok _ =>
        obtain ⟨⟨p, more⟩, hrest, heq⟩ := Option.map_eq_some_iff.mp hrun
        cases heq
        have hfinal := ih hs.reconciling hrest
        exact ⟨hfinal.1, fun m hm => (mem_append.mp hm).elim (hsent m) (hfinal.2 m)⟩

/-- **Fork reconciliation.**  Whatever a peer sends, the list is a path of fewer than
`sync_mode_threshold` valid successors, and what is passed on leads from a stored block to one that
beats the tip. -/
theorem fork_reconciliation_invariant {height : BlockHeight} {events : List (Event D)}
    {peerState : MutablePeerState D} {sent : Sent D}
    (hrun : run cli (.new height) events = some (peerState, sent)) :
    Reconciling cli peerState.forkReconciliationBlocks ∧ ∀ m ∈ sent, Forwarded cli m.1 m.2 :=
  run_sound reconciling_nil hrun

end

end PeerTask

/-! ## A reconciliation -/

namespace PeerTask.Reunion

def cli : Cli := ⟨.testnetMock, 10, by decide⟩

/-- Surroundings where all calls succeed, with at most one block in the database. -/
def calm (stored : Option (Block SymbolicDigest)) (tip : Block SymbolicDigest) (now : Timestamp) :
    Surroundings SymbolicDigest where
  now := now
  validationTime := now
  getBlock _ := .ok stored
  tip := tip
  punish _ := .ok ()
  reward _ := .ok ()
  sendToPeer _ := .ok ()
  sendToMain := .ok ()

instance : WireOps SymbolicDigest := ⟨fun _ => some 0⟩

open Block.Mock

def events : List (Event SymbolicDigest) :=
  [(second, none), (first, some genesis)].map fun (block, stored) =>
    .block ⟨block.header, block.body, block.kernel.appendix, ⟨[]⟩⟩
      (calm stored genesis second.header.timestamp)

theorem exists_run : let _ := MmrIndexing.reference
    ∃ peerState env,
      run cli (.new .genesis) events = some (peerState, [(env, [first, second])]) := by
  let _ := MmrIndexing.reference
  have hrun : ∃ x, run cli (.new .genesis) events = some x ∧
      x.2.map (·.2) = [[first, second]] := by decide +kernel
  obtain ⟨⟨peerState, forwarded⟩, hrun, hforwarded⟩ := hrun
  obtain ⟨⟨env, blocks⟩, rfl, rfl⟩ := map_eq_singleton_iff.mp hforwarded
  exact ⟨peerState, env, hrun⟩

end PeerTask.Reunion

open PeerTask in
theorem fork_reconciliation_invariant_reunion :
    ∃ (_ : MmrIndexing) (events : List (Event SymbolicDigest))
      (peerState : MutablePeerState SymbolicDigest) (env : Surroundings SymbolicDigest)
      (P C : Block SymbolicDigest),
      run Reunion.cli (.new .genesis) events = some (peerState, [(env, [P, C])]) ∧
      Reconciling Reunion.cli peerState.forkReconciliationBlocks ∧
      Forwarded Reunion.cli env [P, C] := by
  let _ := MmrIndexing.reference
  obtain ⟨peerState, env, hrun⟩ := Reunion.exists_run
  have hall := fork_reconciliation_invariant hrun
  exact ⟨_, _, _, env, _, _, hrun, hall.1, hall.2 _ (mem_singleton_self _)⟩

end NyksNode
