import NyksNode.Block.Successor
import NyksNode.Block.ForkChoice
import NyksNode.Lib.Trace
import NyksNode.P2p.Multiaddr
import NyksNode.Wallet.Output

/-!
# Block proposals

The node keeps the best block proposal it has heard of, for guessers to work on.  Proposals are
validated by the tasks that receive them, and the main loop compares them with the tip and with the
proposal it has, under the lock under which it installs them.  The handler for peers returns if the
comparison fails.  The handler for the RPC server logs that, and installs the proposal anyway.

A proposal that a peer only notifies of is requested first, and nobody awaits the comparison then.
-/

namespace NyksNode

open List Option

variable {D : Type}

inductive BlockProposal (D : Type) where
  | ownComposition (block : Block D)
  | foreignComposition (block : Block D)
  | none

namespace BlockProposal

def hasOwn : BlockProposal D → Bool
  | .ownComposition _ => true
  | _ => false

def block? : BlockProposal D → Option (Block D)
  | .ownComposition block => some block
  | .foreignComposition block => some block
  | .none => Option.none

end BlockProposal

inductive BlockProposalRejectError (D : Type) where
  | wrongParent (received expected : D)
  | wrongHeight (received expected : BlockHeight)
  | insufficientFee (current : Option NativeCurrencyAmount) (received : NativeCurrencyAmount)
  | ignoreAllForeign
  | notWhitelisted
  | hasOwnBlockProposal

/-- The part of the global state that proposals depend on. -/
structure ProposalState (D : Type) where
  tip : Block D
  blockProposal : BlockProposal D
  /-- The foreign proposals since the tip was set, the last one first. -/
  history : List (Block D)

/-- The messages to the main loop that change the tip or the proposal.  `stored` is the outcome of
`ArchivalState::set_new_tip`. -/
inductive MainLoopMessage (D : Type) where
  /-- From a peer; the blocks after the first one that cannot be stored are left. -/
  | newBlocks (blocks : List (Block D × Bool))
  | proofOfWorkSolution (block : Block D) (stored : Bool)
  /-- From the sync loop. -/
  | tipSuccessor (block : Block D) (stored : Bool)
  | setTipToStoredBlock (block : Option (Block D)) (stored : Bool)
  | peerProposal (block : Block D)
  | rpcProposal (block : Block D)

namespace ProposalState
variable [Tip5 D] [ConsensusOps D] [DecidableEq D] [MmrOps D]

/-- `favor_incoming_block_proposal`, which expects that the proposal it has is valid. -/
def favorIncomingBlockProposal (s : ProposalState D) (prevBlockDigest : D)
    (guesserFee : NativeCurrencyAmount) : Option (Except (BlockProposalRejectError D) Unit) :=
  if prevBlockDigest ≠ s.tip.hash then some (.error (.wrongParent prevBlockDigest s.tip.hash))
  else if s.blockProposal.hasOwn then some (.error .hasOwnBlockProposal)
  else do
    let existingFee ← s.blockProposal.block?.mapM fun block =>
      block.body.totalGuesserReward.toOption
    if existingFee.any (fun current => ¬ current < guesserFee) || guesserFee.isZero then
      some (.error (.insufficientFee existingFee guesserFee))
    else some (.ok ())

def install (s : ProposalState D) (block : Block D) : ProposalState D :=
  { s with
    blockProposal := .foreignComposition block
    history := block :: s.history }

/-- `set_new_tip_internal`, and whether it succeeds.  It panics at a block without a mutator set
after it. -/
def setNewTipInternal (s : ProposalState D) (newTip : Block D) (stored : Bool) :
    Option (ProposalState D × Bool) :=
  if stored then do
    let _ ← newTip.mutatorSetAccumulatorAfter.unwrap
    some ({ tip := newTip, blockProposal := .none, history := [] }, true)
  else some (s, false)

/-- The loop over new blocks, which ends with the first error. -/
def setNewTips : ProposalState D → List (Block D × Bool) → Option (ProposalState D)
  | s, [] => some s
  | s, (block, stored) :: blocks => do
    let (s, ok) ← s.setNewTipInternal block stored
    if ok then setNewTips s blocks else some s

/-- Set a block as tip if it wins the fork choice rule. -/
def setIfCanonical (s : ProposalState D) (block : Block D) (stored : Bool) :
    Option (ProposalState D) :=
  if s.tip.incomingBlockIsMoreCanonical block then (s.setNewTipInternal block stored).map (·.1)
  else some s

/-- The handlers of the main loop. -/
def step (s : ProposalState D) : MainLoopMessage D → Option (ProposalState D)
  | .newBlocks blocks => do
    let (lastBlock, _) ← blocks.getLast?
    if s.tip.incomingBlockIsMoreCanonical lastBlock then s.setNewTips blocks else some s
  | .proofOfWorkSolution block stored => s.setIfCanonical block stored
  | .tipSuccessor block stored => s.setIfCanonical block stored
  | .setTipToStoredBlock block stored =>
    match block with
    | some block => (s.setNewTipInternal block stored).map (·.1)
    | none => some s
  | .peerProposal block => do
    let reward ← block.body.totalGuesserReward.toOption
    match ← s.favorIncomingBlockProposal block.header.prevBlockDigest reward with
    | .error _ => some s
    | .ok () => some (s.install block)
  | .rpcProposal block => do
    let reward ← block.body.totalGuesserReward.toOption
    -- The verdict is logged.
    let _ ← s.favorIncomingBlockProposal block.header.prevBlockDigest reward
    some (s.install block)

end ProposalState

/-! ## Better proposals -/

def Block.PaysLess (b b' : Block D) : Prop :=
  ∃ r r', b.body.totalGuesserReward = .ok r ∧ b'.body.totalGuesserReward = .ok r' ∧ r < r'

namespace ProposalState
variable [Tip5 D] [ConsensusOps D] [DecidableEq D] [MmrOps D]

/-- A foreign proposal is a child of the tip, and each one has paid more than the one that it
replaced. -/
structure Improving (s : ProposalState D) : Prop where
  fits : ∀ block, s.blockProposal = .foreignComposition block →
    block.header.prevBlockDigest = s.tip.hash
  paysMore : s.history.IsChain fun block block' => block'.PaysLess block

/-- A proposal of the RPC server is a child of the tip, and pays more than the proposal there is. -/
def Suits (s : ProposalState D) : MainLoopMessage D → Prop
  | .rpcProposal block =>
    block.header.prevBlockDigest = s.tip.hash ∧
      ∀ current, s.blockProposal = .foreignComposition current → current.PaysLess block
  | _ => True

/-- The history goes back from the current proposal.  No proposal is the node's own. -/
structure Sound (s : ProposalState D) : Prop extends Improving s where
  history_eq : s.history.head? = s.blockProposal.block?
  not_own : s.blockProposal.hasOwn = false

variable {s s' : ProposalState D} {block : Block D}

omit [DecidableEq D] [MmrOps D] in
theorem sound_of_none (tip : Block D) : Sound ⟨tip, .none, []⟩ where
  fits := fun _ h => by cases h
  paysMore := .nil
  history_eq := rfl
  not_own := rfl

section
omit [DecidableEq D]

theorem Sound.setNewTipInternal (h : s.Sound) {stored ok : Bool}
    (hset : s.setNewTipInternal block stored = some (s', ok)) : s'.Sound := by
  rw [ProposalState.setNewTipInternal] at hset
  cases stored with
  | true =>
    simp only [if_true, bind_eq_some, some_inj, Prod.mk.injEq] at hset
    obtain ⟨_, -, rfl, -⟩ := hset
    exact sound_of_none block
  | false =>
    simp only [Bool.false_eq_true, if_false, some_inj, Prod.mk.injEq] at hset
    rw [← hset.1]
    exact h

theorem Sound.setNewTips (h : s.Sound) {blocks : List (Block D × Bool)}
    (hset : s.setNewTips blocks = some s') : s'.Sound := by
  induction blocks generalizing s with
  | nil =>
    cases hset
    exact h
  | cons x blocks ih =>
    simp only [setNewTips, bind_eq_some] at hset
    obtain ⟨⟨s₁, ok⟩, hfirst, hrest⟩ := hset
    have h₁ := h.setNewTipInternal hfirst
    cases ok with
    | true => exact ih h₁ hrest
    | false =>
      cases hrest
      exact h₁

end

theorem Sound.setIfCanonical (h : s.Sound) {stored : Bool}
    (hset : s.setIfCanonical block stored = some s') : s'.Sound := by
  rw [ProposalState.setIfCanonical] at hset
  split at hset
  · obtain ⟨⟨s₁, ok⟩, hfirst, rfl⟩ := map_eq_some_iff.mp hset
    exact h.setNewTipInternal hfirst
  · cases hset
    exact h

omit [MmrOps D] in
/-- A proposal that is favored is a child of the tip, and pays more than the one there is. -/
theorem Sound.suits_of_favor (h : s.Sound) {reward : NativeCurrencyAmount}
    (hreward : block.body.totalGuesserReward = .ok reward)
    (hfavor : s.favorIncomingBlockProposal block.header.prevBlockDigest reward = some (.ok ())) :
    s.Suits (.rpcProposal block) := by
  rw [favorIncomingBlockProposal, h.not_own] at hfavor
  split at hfavor
  · cases hfavor
  · rename_i hparent
    refine ⟨not_not.mp hparent, fun current hcurrent => ?_⟩
    rw [hcurrent] at hfavor
    cases hfee : current.body.totalGuesserReward with
    | error e => simp [BlockProposal.block?, hfee, Except.toOption] at hfavor
    | ok fee =>
      refine ⟨fee, reward, hfee, hreward, ?_⟩
      by_contra hless
      simp [BlockProposal.block?, hfee, Except.toOption, hless] at hfavor

section
omit [DecidableEq D] [MmrOps D]

/-- Installing a proposal keeps the proposals improving exactly if it suits. -/
theorem Sound.improving_install_iff (h : s.Sound) :
    (s.install block).Improving ↔ s.Suits (.rpcProposal block) := by
  have hhead : ∀ current, s.blockProposal = .foreignComposition current ↔
      s.history.head? = some current := by
    intro current
    rw [h.history_eq]
    cases hproposal : s.blockProposal with
    | ownComposition own => exact absurd h.not_own (by simp [hproposal, BlockProposal.hasOwn])
    | foreignComposition foreign => simp [BlockProposal.block?]
    | none => simp [BlockProposal.block?]
  constructor
  · intro himproving
    refine ⟨himproving.fits block rfl, fun current hcurrent => ?_⟩
    have hchain := himproving.paysMore
    rw [install, isChain_cons] at hchain
    exact hchain.1 current ((hhead current).mp hcurrent)
  · intro hsuits
    refine ⟨fun block' hblock' => ?_, ?_⟩
    · cases hblock'
      exact hsuits.1
    · rw [install, isChain_cons]
      exact ⟨fun current hcurrent => hsuits.2 current ((hhead current).mpr hcurrent), h.paysMore⟩

theorem Sound.install (h : s.Sound) (hsuits : s.Suits (.rpcProposal block)) :
    (s.install block).Sound where
  toImproving := h.improving_install_iff.mpr hsuits
  history_eq := rfl
  not_own := rfl

end

/-- One message: the proposals go on improving exactly if it suits. -/
theorem Sound.step (h : s.Sound) {message : MainLoopMessage D} (hstep : s.step message = some s') :
    (s'.Improving ↔ s.Suits message) ∧ (s.Suits message → s'.Sound) := by
  have hsound : s'.Sound → s.Suits message →
      (s'.Improving ↔ s.Suits message) ∧ (s.Suits message → s'.Sound) :=
    fun hs' hsuits => ⟨iff_of_true hs'.toImproving hsuits, fun _ => hs'⟩
  cases message with
  | newBlocks blocks =>
    refine hsound ?_ trivial
    simp only [ProposalState.step, bind_eq_some] at hstep
    obtain ⟨⟨lastBlock, stored⟩, -, hstep⟩ := hstep
    split at hstep
    · exact h.setNewTips hstep
    · cases hstep
      exact h
  | proofOfWorkSolution block stored => exact hsound (h.setIfCanonical hstep) trivial
  | tipSuccessor block stored => exact hsound (h.setIfCanonical hstep) trivial
  | setTipToStoredBlock block stored =>
    refine hsound ?_ trivial
    cases block with
    | none =>
      cases hstep
      exact h
    | some block =>
      obtain ⟨⟨s₁, ok⟩, hset, rfl⟩ := map_eq_some_iff.mp hstep
      exact h.setNewTipInternal hset
  | peerProposal block =>
    refine hsound ?_ trivial
    simp only [ProposalState.step, bind_eq_some] at hstep
    obtain ⟨reward, hreward, verdict, hfavor, hstep⟩ := hstep
    cases verdict with
    | error reason =>
      cases hstep
      exact h
    | ok _ =>
      cases hstep
      exact h.install (h.suits_of_favor (Fallible.eq_ok_of_toOption hreward) hfavor)
  | rpcProposal block =>
    simp only [ProposalState.step, bind_eq_some, some_inj] at hstep
    obtain ⟨reward, -, verdict, -, rfl⟩ := hstep
    exact ⟨h.improving_install_iff, fun hsuits => h.install hsuits⟩

/-- In a run from a tip without a proposal, the proposal always fits the tip and proposals are only
replaced by better ones, exactly if all proposals of the RPC server suit. -/
theorem improving_iff (tip : Block D) (messages : List (MainLoopMessage D))
    (ss : List (ProposalState D))
    (ht : trace ProposalState.step ⟨tip, .none, []⟩ messages = some ss) : (∀ s ∈ ss, s.Improving) ↔
      ∀ x ∈ steps (⟨tip, .none, []⟩ : ProposalState D) messages ss, x.1.Suits x.2 :=
  forall_trace_iff_of_invariant (I := Sound) (A := fun _ _ => True)
    (fun _ _ _ h _ hstep => h.step hstep) (sound_of_none tip) ht fun _ _ => trivial

/-- A proposal of the RPC server is installed unless its handler panics. -/
theorem step_rpcProposal (h : (s.step (.rpcProposal block)).isSome = true) :
    s.step (.rpcProposal block) = some (s.install block) := by
  obtain ⟨s', hs'⟩ := isSome_iff_exists.mp h
  have hstep := hs'
  simp only [step, bind_eq_some, some_inj] at hstep
  obtain ⟨reward, -, verdict, -, rfl⟩ := hstep
  exact hs'

end ProposalState

/-! ## Notifications -/

open P2p

def P2p.Ipv6Addr.toIpv4 (ip : Ipv6Addr) : Option Ipv4Addr :=
  if (∀ i < 5, ip.segments i = 0) ∧ (ip.segments 5 = 0 ∨ ip.segments 5 = 0xffff) then
    let octets (segment : UInt16) := ((segment / 256).toUInt8, segment.toUInt8)
    let (a, b) := octets (ip.segments 6)
    let (c, d) := octets (ip.segments 7)
    some ⟨a, b, c, d⟩
  else none

/-- The arguments that say whose proposals the node takes. -/
structure ProposalArgs where
  ignoreForeignCompositions : Bool
  whitelistedComposers : List IpAddr

def ProposalArgs.acceptBlockProposalFrom (cli : ProposalArgs) (address : Multiaddr) :
    Except (BlockProposalRejectError D) Unit :=
  if cli.ignoreForeignCompositions then .error .ignoreAllForeign
  else if cli.whitelistedComposers.isEmpty then .ok ()
  else match address.ip? with
    | none => .error .notWhitelisted
    | some ip =>
      let ip := match ip with
        | .v4 _ => ip
        | .v6 v6 => (v6.toIpv4.map .v4).getD ip
      if ip ∈ cli.whitelistedComposers then .ok () else .error .notWhitelisted

structure BlockProposalNotification (D : Type) where
  bodyMastHash : D
  guesserFee : NativeCurrencyAmount
  height : BlockHeight

namespace ProposalState
variable (s : ProposalState D) (cli : ProposalArgs) (peerAddress : Multiaddr)
  (notification : BlockProposalNotification D)

/-- `favor_incoming_block_proposal_legacy`, which knows the height only. -/
def favorIncomingBlockProposalLegacy (height : BlockHeight) (guesserFee : NativeCurrencyAmount) :
    Option (Except (BlockProposalRejectError D) Unit) :=
  if height ≠ s.tip.header.height.next then
    some (.error (.wrongHeight height s.tip.header.height.next))
  else if s.blockProposal.hasOwn then some (.error .hasOwnBlockProposal)
  else do
    let existingFee ← s.blockProposal.block?.mapM fun block =>
      block.body.totalGuesserReward.toOption
    if existingFee.any (fun current => ¬ current < guesserFee) || guesserFee.isZero then
      some (.error (.insufficientFee existingFee guesserFee))
    else some (.ok ())

/-- The handler of `BlockProposalNotification`: the digests it requests. -/
def handleBlockProposalNotification : List D :=
  -- The closure is `async`: mapping it gives a future, here a function that is never called.
  let verdict : Except (BlockProposalRejectError D) _ :=
    (cli.acceptBlockProposalFrom peerAddress).map fun _ () =>
      s.favorIncomingBlockProposalLegacy notification.height notification.guesserFee
  match verdict with
  | .ok _ => [notification.bodyMastHash]
  | .error _ => []

/-- The node is open for proposals of the peer. -/
def Accepts (D : Type) (cli : ProposalArgs) (peerAddress : Multiaddr) : Prop :=
  (cli.acceptBlockProposalFrom peerAddress : Except (BlockProposalRejectError D) Unit) = .ok ()

/-- The proposal is for the next block, and better than what the node has. -/
def Wants : Prop :=
  s.favorIncomingBlockProposalLegacy notification.height notification.guesserFee = some (.ok ())

/-- **When only wanted proposals are requested.**  The second check does not count, so it has to
pass whenever the first one does. -/
theorem request_iff_wanted_iff :
    (s.handleBlockProposalNotification cli peerAddress notification = [notification.bodyMastHash] ↔
      Accepts D cli peerAddress ∧ s.Wants notification) ↔
    (Accepts D cli peerAddress → s.Wants notification) := by
  rw [handleBlockProposalNotification, Accepts]
  cases cli.acceptBlockProposalFrom (D := D) peerAddress with
  | error e => simp [Except.map]
  | ok => simp [Except.map]

end ProposalState

open ProposalState

/-! ## Two templates from the RPC server -/

namespace Templates

def tip : Block SymbolicDigest := (Block.genesis .main).get Block.isSome_genesis

def template (fee : ℤ) : Block SymbolicDigest :=
  { tip with
    kernel :=
      { tip.kernel with
        header := { tip.header with prevBlockDigest := tip.hash }
        body :=
          { tip.body with
            transactionKernel := { tip.body.transactionKernel with fee := ⟨fee⟩ } } } }

def start : ProposalState SymbolicDigest := ⟨tip, .none, []⟩

/-- Two proposals are installed one after the other, whatever they pay. -/
theorem trace_two (first second : ℤ)
    (hfirst : (start.step (.rpcProposal (template first))).isSome = true)
    (hsecond : ((start.install (template first)).step
      (.rpcProposal (template second))).isSome = true) :
    trace step start [.rpcProposal (template first), .rpcProposal (template second)] =
      some [start.install (template first),
        (start.install (template first)).install (template second)] :=
  trace_cons_eq_some_iff.mpr
    ⟨_, _, step_rpcProposal hfirst, trace_cons_eq_some_iff.mpr
      ⟨_, [], step_rpcProposal hsecond, rfl, rfl⟩, rfl⟩

/-- The second proposal pays more than the first one. -/
theorem rising_improving : (start.install (template 3)).Improving ∧
      ((start.install (template 3)).install (template 5)).Improving := by
  have himproving := (improving_iff tip _ _
    (trace_two 3 5 (by decide +kernel) (by decide +kernel))).mpr
  rw [forall_mem_cons, forall_mem_singleton] at himproving
  refine himproving (forall_mem_cons.mpr ⟨⟨rfl, fun current hcurrent => ?_⟩,
    forall_mem_singleton.mpr ⟨rfl, fun current hcurrent => ?_⟩⟩)
  · cases hcurrent
  · cases hcurrent
    exact ⟨_, _, rfl, rfl, by decide⟩

/-- A second proposal that pays less is installed all the same. -/
theorem second_not_improving :
    trace ProposalState.step start [.rpcProposal (template 5), .rpcProposal (template 3)] =
        some [start.install (template 5), (start.install (template 5)).install (template 3)] ∧
      ¬ ((start.install (template 5)).install (template 3)).Improving := by
  refine ⟨trace_two 5 3 (by decide +kernel) (by decide +kernel), fun himproving => ?_⟩
  have hchain := himproving.paysMore
  rw [install, isChain_cons] at hchain
  obtain ⟨r, r', hr, hr', hless⟩ := hchain.1 (template 5) rfl
  cases hr
  cases hr'
  exact absurd hless (by decide)

/-- A proposal for the height of the tip is asked for. -/
theorem requests_stale : let notification : BlockProposalNotification SymbolicDigest :=
      ⟨.atom 7, ⟨5⟩, tip.header.height⟩
    start.handleBlockProposalNotification ⟨false, []⟩ [] notification = [.atom 7] ∧
      ¬ start.Wants notification := by
  refine ⟨rfl, fun hwants => ?_⟩
  rw [ProposalState.Wants, favorIncomingBlockProposalLegacy, if_pos (by decide +kernel)] at hwants
  cases hwants

end Templates

end NyksNode
