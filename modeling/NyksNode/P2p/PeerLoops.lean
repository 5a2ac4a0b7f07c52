import NyksNode.Lib.Trace
import NyksNode.P2p.Multiaddr

/-!
# Peer loops and the peer map

Each peer that the node talks to has a task of its own, which runs the peer loop.  Before the loop
starts, the task enters the peer into the peer map, and after the loop has ended, by itself, with
an error or with a panic, it takes an entry out: the first one with its address.  Between the two
it may fail to send a message, and then it leaves without looking back.

Tasks run concurrently.  Each step below is what a task does while it holds the global state lock,
or between two such stretches.
-/

namespace NyksNode.P2p

open List Option AssocMap

abbrev InstanceId := ℕ

/-- The part of `PeerInfo` that peers are told apart by. -/
structure PeerInfo where
  address : Multiaddr
  instanceId : InstanceId
  deriving DecidableEq

/-- How far `run_wrapper` has come. -/
inductive LoopPhase where
  | entered
  | registered
  | running
  | left
  /-- It has panicked, in the close-callback. -/
  | panicked
  deriving DecidableEq, Repr

structure LoopTask where
  info : PeerInfo
  phase : LoopPhase
  deriving DecidableEq

/-- The peer map, and the tasks of the peers; their keys are `upgraded_peers`. -/
structure PeerLoops where
  peerMap : AssocMap PeerId PeerInfo
  tasks : AssocMap PeerId LoopTask
  /-- There is a `sync_anchor`. -/
  syncing : Bool
  maxNumPeers : ℕ

/-- What can happen next.  `sent` says whether the message that is due can be sent. -/
inductive LoopStep where
  | spawn (peer : PeerId) (info : PeerInfo)
  | register (peer : PeerId) (sent : Bool)
  /-- `behind`: the peer has more work on its chain. -/
  | notify (peer : PeerId) (behind : Bool) (sent : Bool)
  | finish (peer : PeerId) (sent : Bool)
  /-- The task takes its peer out of `upgraded_peers`. -/
  | forget (peer : PeerId)
  | setSyncing (syncing : Bool)

namespace PeerLoops

/-- A task goes on to another phase. -/
def enter (s : PeerLoops) (peer : PeerId) (info : PeerInfo) (phase : LoopPhase) : PeerLoops :=
  { s with tasks := s.tasks.insert peer ⟨info, phase⟩ }

/-- The checks that are made again under the write lock. -/
def admits (s : PeerLoops) (peer : PeerId) (info : PeerInfo) : Bool :=
  !(s.peerMap.values.any fun pi => pi.instanceId = info.instanceId) &&
    s.peerMap.length < s.maxNumPeers && (s.peerMap.get? peer).isNone

/-- The first part of `run_wrapper`, up to the release of the write lock. -/
def register (s : PeerLoops) (peer : PeerId) (info : PeerInfo) (sent : Bool) : PeerLoops :=
  if s.admits peer info then
    let s := { s with peerMap := s.peerMap.insert peer info }
    -- While syncing, the main loop is told about the new peer.
    if s.syncing && !sent then s.enter peer info .left else s.enter peer info .registered
  else s.enter peer info .left

/-- Ask a peer that is ahead for its blocks. -/
def notify (s : PeerLoops) (peer : PeerId) (info : PeerInfo) (behind sent : Bool) : PeerLoops :=
  if behind && !sent then s.enter peer info .left else s.enter peer info .running

section
variable [IterOrder]

/-- The peer whose entry is the first one with an address. -/
def closedPeer (s : PeerLoops) (address : Multiaddr) : Option PeerId :=
  ((IterOrder.iter s.peerMap.entries).find? fun e => e.2.address = address).map (·.1)

/-- `close_peer_connected_callback`, and the rest of `run_wrapper`. -/
def finish (s : PeerLoops) (peer : PeerId) (info : PeerInfo) (sent : Bool) : PeerLoops :=
  match s.closedPeer info.address with
  | none => s.enter peer info .left
  | some closed =>
    let s := { s with peerMap := s.peerMap.erase closed }
    if s.syncing && !sent then s.enter peer info .panicked else s.enter peer info .left

/-- One step of one of the tasks, if the task is where the step belongs. -/
def step (s : PeerLoops) : LoopStep → Option PeerLoops
  | .spawn peer info =>
    match s.tasks.get? peer with
    | none => some (s.enter peer info .entered)
    | some _ => none
  | .register peer sent =>
    match s.tasks.get? peer with
    | some ⟨info, .entered⟩ => some (s.register peer info sent)
    | _ => none
  | .notify peer behind sent =>
    match s.tasks.get? peer with
    | some ⟨info, .registered⟩ => some (s.notify peer info behind sent)
    | _ => none
  | .finish peer sent =>
    match s.tasks.get? peer with
    | some ⟨info, .running⟩ => some (s.finish peer info sent)
    | _ => none
  | .forget peer =>
    match s.tasks.get? peer with
    | some ⟨_, .left⟩ => some { s with tasks := s.tasks.erase peer }
    | _ => none
  | .setSyncing syncing => some { s with syncing := syncing }

end

/-- The loop of a peer has been entered and not left yet. -/
def Live (s : PeerLoops) (peer : PeerId) : Prop :=
  ∃ task, s.tasks.get? peer = some task ∧ (task.phase = .registered ∨ task.phase = .running)

/-- The peer map is the set of live peer loops.  A loop that has been left has no entry, and a
live loop keeps its entry whatever the other ones do. -/
def Exact (s : PeerLoops) : Prop := ∀ peer, (s.peerMap.get? peer).isSome = true ↔ s.Live peer

/-- A step that does not fail to send, and that takes out no entry but its own. -/
def Clean [IterOrder] (s : PeerLoops) : LoopStep → Prop
  | .register peer sent =>
    ∀ task, s.tasks.get? peer = some task → s.admits peer task.info = true → s.syncing = true →
      sent = true
  | .notify _ behind sent => behind = true → sent = true
  | .finish peer _ =>
    ∀ task, s.tasks.get? peer = some task → s.closedPeer task.info.address = some peer
  | _ => True

/-- The entries are those of the live loops, with their addresses. -/
structure Sound (s : PeerLoops) : Prop where
  exact : s.Exact
  info : ∀ peer info, s.peerMap.get? peer = some info →
    ∃ phase, s.tasks.get? peer = some ⟨info, phase⟩

/-! ## Steps -/

section
variable {s s' : PeerLoops} {peer : PeerId} {info : PeerInfo} {phase : LoopPhase}

theorem live_enter_iff {peer' : PeerId} : (s.enter peer info phase).Live peer' ↔
      if peer' = peer then phase = .registered ∨ phase = .running else s.Live peer' := by
  rw [Live, enter]
  simp only [get?_insert]
  by_cases h : peer' = peer
  · simp [h]
  · simp [h, Live]

theorem Exact.get?_eq_none (h : s.Exact) (htask : s.tasks.get? peer = some ⟨info, phase⟩)
    (hphase : phase ≠ .registered ∧ phase ≠ .running) : s.peerMap.get? peer = none := by
  rw [← not_isSome_iff_eq_none, h peer]
  intro hlive
  obtain ⟨task, hget, hlive⟩ := hlive
  rw [htask] at hget
  cases hget
  exact hlive.elim hphase.1 hphase.2

theorem Exact.get?_eq_none_of_task (h : s.Exact) (htask : s.tasks.get? peer = none) :
    s.peerMap.get? peer = none := by
  rw [← not_isSome_iff_eq_none, h peer]
  intro hlive
  obtain ⟨task, hget, -⟩ := hlive
  rw [htask] at hget
  cases hget

/-- If the entries of the other peers are right, it depends on the peer of the task. -/
theorem exact_enter_iff
    (hothers : ∀ peer', peer' ≠ peer → ((s.peerMap.get? peer').isSome = true ↔ s.Live peer')) :
    (s.enter peer info phase).Exact ↔
      ((s.peerMap.get? peer).isSome = true ↔ phase = .registered ∨ phase = .running) := by
  constructor
  · intro h
    have hpeer := h peer
    rw [live_enter_iff, if_pos rfl] at hpeer
    exact hpeer
  · intro h peer'
    rw [live_enter_iff]
    by_cases hpeer : peer' = peer
    · rw [if_pos hpeer, hpeer]
      exact h
    · rw [if_neg hpeer]
      exact hothers peer' hpeer

theorem Sound.get?_eq_some (h : s.Sound) (htask : s.tasks.get? peer = some ⟨info, phase⟩)
    (hphase : phase = .registered ∨ phase = .running) : s.peerMap.get? peer = some info := by
  obtain ⟨info', hinfo'⟩ :=
    isSome_iff_exists.mp ((h.exact peer).mpr ⟨_, htask, hphase⟩)
  obtain ⟨phase', hphase'⟩ := h.info peer info' hinfo'
  rw [htask, some_inj, LoopTask.mk.injEq] at hphase'
  rw [hinfo', hphase'.1]

theorem info_enter (hinfo : ∀ peer' info', s.peerMap.get? peer' = some info' → peer' ≠ peer →
      ∃ phase', s.tasks.get? peer' = some ⟨info', phase'⟩)
    (hpeer : ∀ info', s.peerMap.get? peer = some info' → info' = info) :
    ∀ peer' info', (s.enter peer info phase).peerMap.get? peer' = some info' →
      ∃ phase', (s.enter peer info phase).tasks.get? peer' = some ⟨info', phase'⟩ := by
  intro peer' info' hentry
  simp only [enter, get?_insert]
  by_cases h : peer' = peer
  · rw [if_pos h, hpeer info' (h ▸ hentry)]
    exact ⟨phase, rfl⟩
  · rw [if_neg h]
    exact hinfo peer' info' hentry h

/-! The steps, one after the other. -/

theorem sound_spawn (h : s.Sound) (info : PeerInfo) (htask : s.tasks.get? peer = none) :
    (s.enter peer info .entered).Sound := by
  have hnone := h.exact.get?_eq_none_of_task htask
  constructor
  · rw [exact_enter_iff fun peer' _ => h.exact peer']
    simp [hnone]
  · refine info_enter (fun peer' info' hentry _ => h.info peer' info' hentry) ?_
    intro info' hinfo'
    rw [hnone] at hinfo'
    cases hinfo'

section
variable (h : s.Sound) (htask : s.tasks.get? peer = some ⟨info, .entered⟩) (sent : Bool)
include h htask sent

theorem exact_register_iff : (s.register peer info sent).Exact ↔
      (s.admits peer info = true → s.syncing = true → sent = true) := by
  have hnone := h.exact.get?_eq_none htask ⟨by decide, by decide⟩
  rw [register]
  by_cases hadmits : s.admits peer info = true
  · have hothers : ∀ peer', peer' ≠ peer →
        (((s.peerMap.insert peer info).get? peer').isSome = true ↔ s.Live peer') := by
      intro peer' hne
      rw [get?_insert, if_neg hne]
      exact h.exact peer'
    have hself : ((s.peerMap.insert peer info).get? peer).isSome = true := by
      simp [get?_insert]
    rw [if_pos hadmits]
    by_cases hfailed : (s.syncing && !sent) = true
    · simp only [hfailed, if_true]
      rw [exact_enter_iff hothers]
      simp only [Bool.and_eq_true, Bool.not_eq_true'] at hfailed
      simp [hself, hadmits, hfailed]
    · simp only [hfailed, Bool.false_eq_true, if_false]
      rw [exact_enter_iff hothers]
      simp only [Bool.and_eq_true, Bool.not_eq_true', not_and, Bool.not_eq_false] at hfailed
      simp only [hself, hadmits, true_or, true_iff]
      exact fun _ => hfailed
  · rw [if_neg hadmits, exact_enter_iff fun peer' _ => h.exact peer']
    simp [hnone, hadmits]

theorem info_register : ∀ peer' info', (s.register peer info sent).peerMap.get? peer' = some info' →
      ∃ phase', (s.register peer info sent).tasks.get? peer' = some ⟨info', phase'⟩ := by
  have hinserted : ∀ phase, ∀ peer' info',
      (({ s with peerMap := s.peerMap.insert peer info } : PeerLoops).enter peer info
        phase).peerMap.get? peer' = some info' →
      ∃ phase', (({ s with peerMap := s.peerMap.insert peer info } : PeerLoops).enter peer info
        phase).tasks.get? peer' = some ⟨info', phase'⟩ := by
    intro phase
    refine info_enter ?_ ?_
    · intro peer' info' hentry hne
      rw [get?_insert, if_neg hne] at hentry
      exact h.info peer' info' hentry
    · intro info' hinfo'
      rw [get?_insert, if_pos rfl, some_inj] at hinfo'
      exact hinfo'.symm
  rw [register]
  split
  · dsimp only
    split
    · exact hinserted .left
    · exact hinserted .registered
  · refine info_enter (fun peer' info' hentry _ => h.info peer' info' hentry) ?_
    intro info' hinfo'
    rw [h.exact.get?_eq_none htask ⟨by decide, by decide⟩] at hinfo'
    cases hinfo'

end

theorem info_enter_of_live (h : s.Sound) {phase' : LoopPhase}
    (htask : s.tasks.get? peer = some ⟨info, phase⟩)
    (hphase : phase = .registered ∨ phase = .running) :
    ∀ peer' info', (s.enter peer info phase').peerMap.get? peer' = some info' →
      ∃ phase'', (s.enter peer info phase').tasks.get? peer' = some ⟨info', phase''⟩ := by
  refine info_enter (fun peer' info' hentry _ => h.info peer' info' hentry) ?_
  intro info' hinfo'
  rw [h.get?_eq_some htask hphase, some_inj] at hinfo'
  exact hinfo'.symm

section
variable (h : s.Sound) (htask : s.tasks.get? peer = some ⟨info, .registered⟩) (behind sent : Bool)
include h htask behind sent

theorem exact_notify_iff :
    (s.notify peer info behind sent).Exact ↔ (behind = true → sent = true) := by
  have hentry := h.get?_eq_some htask (.inl rfl)
  rw [notify]
  by_cases hfailed : (behind && !sent) = true
  · rw [if_pos hfailed, exact_enter_iff fun peer' _ => h.exact peer']
    simp only [Bool.and_eq_true, Bool.not_eq_true'] at hfailed
    simp [hentry, hfailed]
  · rw [if_neg hfailed, exact_enter_iff fun peer' _ => h.exact peer']
    simp only [Bool.and_eq_true, Bool.not_eq_true', not_and, Bool.not_eq_false] at hfailed
    simp only [hentry, isSome_some, or_true, true_iff]
    exact hfailed

theorem info_notify :
    ∀ peer' info', (s.notify peer info behind sent).peerMap.get? peer' = some info' →
      ∃ phase', (s.notify peer info behind sent).tasks.get? peer' = some ⟨info', phase'⟩ := by
  rw [notify]
  split
  · exact info_enter_of_live h htask (.inl rfl)
  · exact info_enter_of_live h htask (.inl rfl)

end

theorem sound_forget (h : s.Sound) (htask : s.tasks.get? peer = some ⟨info, .left⟩) :
    Sound { s with tasks := s.tasks.erase peer } := by
  have hnone := h.exact.get?_eq_none htask ⟨by decide, by decide⟩
  constructor
  · intro peer'
    rw [Live, get?_erase]
    by_cases hpeer : peer' = peer
    · simp [hpeer, hnone]
    · rw [if_neg hpeer]
      exact h.exact peer'
  · intro peer' info' hentry
    have hne : peer' ≠ peer := by
      rintro rfl
      rw [hnone] at hentry
      cases hentry
    obtain ⟨phase', hphase'⟩ := h.info peer' info' hentry
    exact ⟨phase', by rw [get?_erase, if_neg hne, hphase']⟩

section
variable [IterOrder]

/-- The entry of a running loop is found, or another one before it. -/
theorem Sound.exists_closedPeer (h : s.Sound) (htask : s.tasks.get? peer = some ⟨info, .running⟩) :
    ∃ closed info', s.closedPeer info.address = some closed ∧
      s.peerMap.get? closed = some info' := by
  have hentry := get?_eq_some_iff.mp (h.get?_eq_some htask (.inr rfl))
  obtain ⟨e, he⟩ : ∃ e, (IterOrder.iter s.peerMap.entries).find?
      (fun e => decide (e.2.address = info.address)) = some e := by
    rw [← isSome_iff_exists, find?_isSome]
    exact ⟨_, IterOrder.mem_iter.mpr hentry, by simp⟩
  refine ⟨e.1, e.2, by rw [closedPeer, he]; rfl, get?_eq_some_iff.mpr ?_⟩
  exact IterOrder.mem_iter.mp (mem_of_find?_eq_some he)

theorem exists_finish_eq {closed : PeerId} (hclosed : s.closedPeer info.address = some closed)
    (peer : PeerId) (sent : Bool) : ∃ phase, phase ≠ .registered ∧ phase ≠ .running ∧
      s.finish peer info sent =
        ({ s with peerMap := s.peerMap.erase closed } : PeerLoops).enter peer info phase := by
  rw [finish, hclosed]
  dsimp only
  split
  · exact ⟨.panicked, by decide, by decide, rfl⟩
  · exact ⟨.left, by decide, by decide, rfl⟩

section
variable (h : s.Sound) (htask : s.tasks.get? peer = some ⟨info, .running⟩) (sent : Bool)
include h htask sent

theorem exact_finish_iff :
    (s.finish peer info sent).Exact ↔ s.closedPeer info.address = some peer := by
  obtain ⟨closed, info', hclosed, hentry⟩ := h.exists_closedPeer htask
  obtain ⟨phase, hregistered, hrunning, hfinish⟩ := exists_finish_eq hclosed peer sent
  rw [hfinish, hclosed, some_inj]
  constructor
  · intro hexact
    by_contra hne
    -- The loop of the other peer is live, but its entry has gone.
    have hlive : s.Live closed := (h.exact closed).mp (by rw [hentry]; rfl)
    have hgone := (hexact closed).mpr (live_enter_iff.mpr (by rw [if_neg hne]; exact hlive))
    simp [enter, get?_erase] at hgone
  · rintro rfl
    rw [exact_enter_iff]
    · simp [get?_erase, hregistered, hrunning]
    · intro peer' hne
      rw [get?_erase, if_neg hne]
      exact h.exact peer'

theorem info_finish : ∀ peer' info', (s.finish peer info sent).peerMap.get? peer' = some info' →
      ∃ phase', (s.finish peer info sent).tasks.get? peer' = some ⟨info', phase'⟩ := by
  obtain ⟨closed, -, hclosed, -⟩ := h.exists_closedPeer htask
  obtain ⟨phase, -, -, hfinish⟩ := exists_finish_eq hclosed peer sent
  have hkept : ∀ peer' info', (s.peerMap.erase closed).get? peer' = some info' →
      s.peerMap.get? peer' = some info' := by
    intro peer' info' hentry
    exact (get?_erase_eq_some.mp hentry).2
  rw [hfinish]
  refine info_enter (fun peer' info' hentry _ => h.info peer' info' (hkept peer' info' hentry)) ?_
  intro info' hinfo'
  have hown := hkept peer info' hinfo'
  rw [h.get?_eq_some htask (.inr rfl), some_inj] at hown
  exact hown.symm

end

end

end

/-! ## Runs -/

variable [IterOrder]

theorem exact_step_iff {s s' : PeerLoops} {a : LoopStep} (h : s.Sound)
    (hstep : s.step a = some s') : (s'.Exact ↔ s.Clean a) ∧ (s.Clean a → s'.Sound) := by
  cases a with
  | spawn peer info =>
    rw [step] at hstep
    split at hstep
    case h_1 htask =>
      cases hstep
      have hsound := sound_spawn h info htask
      exact ⟨iff_of_true hsound.exact trivial, fun _ => hsound⟩
    case h_2 => cases hstep
  | register peer sent =>
    rw [step] at hstep
    split at hstep
    case h_1 info htask =>
      cases hstep
      have hexact : (s.register peer info sent).Exact ↔ s.Clean (.register peer sent) := by
        rw [exact_register_iff h htask, Clean]
        simp [htask]
      exact ⟨hexact, fun hclean => ⟨hexact.mpr hclean, info_register h htask sent⟩⟩
    case h_2 => cases hstep
  | notify peer behind sent =>
    rw [step] at hstep
    split at hstep
    case h_1 info htask =>
      cases hstep
      have hexact := exact_notify_iff h htask behind sent
      exact ⟨hexact, fun hclean => ⟨hexact.mpr hclean, info_notify h htask behind sent⟩⟩
    case h_2 => cases hstep
  | finish peer sent =>
    rw [step] at hstep
    split at hstep
    case h_1 info htask =>
      cases hstep
      have hexact : (s.finish peer info sent).Exact ↔ s.Clean (.finish peer sent) := by
        rw [exact_finish_iff h htask, Clean]
        simp [htask]
      exact ⟨hexact, fun hclean => ⟨hexact.mpr hclean, info_finish h htask sent⟩⟩
    case h_2 => cases hstep
  | forget peer =>
    rw [step] at hstep
    split at hstep
    case h_1 info htask =>
      cases hstep
      have hsound := sound_forget h htask
      exact ⟨iff_of_true hsound.exact trivial, fun _ => hsound⟩
    case h_2 => cases hstep
  | setSyncing syncing =>
    cases hstep
    exact ⟨iff_of_true h.exact trivial, fun _ => ⟨h.exact, h.info⟩⟩

def start (maxNumPeers : ℕ) : PeerLoops := ⟨.empty, .empty, false, maxNumPeers⟩

omit [IterOrder] in
theorem sound_start (maxNumPeers : ℕ) : (start maxNumPeers).Sound where
  exact := by simp [Exact, Live, start]
  info := by simp [start]

/-- From the start on, the peer map is the set of live peer loops exactly if no task fails to send
before its loop runs, and none finds the entry of another peer at its end. -/
theorem exact_iff (maxNumPeers : ℕ) (as : List LoopStep) (ss : List PeerLoops)
    (ht : trace step (start maxNumPeers) as = some ss) :
    (∀ s ∈ ss, s.Exact) ↔ ∀ x ∈ steps (start maxNumPeers) as ss, x.1.Clean x.2 :=
  forall_trace_iff_of_invariant (I := Sound) (A := fun _ _ => True)
    (fun _ _ _ h _ hstep => exact_step_iff h hstep) (sound_start maxNumPeers) ht
    fun _ _ => trivial

/-- A peer for which the map and the tasks differ. -/
def differsAt (s : PeerLoops) (peer : PeerId) : Bool :=
  (s.peerMap.get? peer).isSome !=
    (s.tasks.get? peer).any fun task => task.phase = .registered ∨ task.phase = .running

omit [IterOrder] in
theorem not_exact_of_differsAt {s : PeerLoops} {peer : PeerId} (h : s.differsAt peer = true) :
    ¬ s.Exact := by
  intro hexact
  have hlive : s.Live peer ↔ ((s.tasks.get? peer).any fun task =>
      decide (task.phase = .registered ∨ task.phase = .running)) = true := by
    cases htask : s.tasks.get? peer with
    | none => simp [Live, htask]
    | some task => simp [Live, htask]
  rw [differsAt, bne_iff_ne, ne_eq, Bool.eq_iff_iff] at h
  exact h ((hexact peer).trans hlive)

end PeerLoops

open PeerLoops

/-! ## Two peers at one address, and a peer that hangs up -/

namespace SharedAddress

local instance sharedOrder : IterOrder := .asKept

def alice : PeerId := ⟨"alice"⟩

def bob : PeerId := ⟨"bob"⟩

def aliceInfo : PeerInfo := ⟨[.ip4 .localhost], 1⟩

def bobInfo : PeerInfo := ⟨[.ip4 .localhost], 2⟩

def aliceAlone : List LoopStep :=
  [.spawn alice aliceInfo, .register alice true, .notify alice true true, .finish alice true,
    .forget alice]

def aliceLeaves : List LoopStep :=
  [.spawn alice aliceInfo, .register alice true, .notify alice false true,
    .spawn bob bobInfo, .register bob true, .notify bob false true, .finish alice true]

def aliceHangsUp : List LoopStep :=
  [.spawn alice aliceInfo, .register alice true, .notify alice true false]

def spawned : PeerLoops := (PeerLoops.start 10).enter alice aliceInfo .entered

def registered : PeerLoops := spawned.register alice aliceInfo true

def running : PeerLoops := registered.notify alice aliceInfo true true

def finished : PeerLoops := running.finish alice aliceInfo true

def forgotten : PeerLoops := { finished with tasks := finished.tasks.erase alice }

theorem trace_aliceAlone : trace step (start 10) aliceAlone =
      some [spawned, registered, running, finished, forgotten] := rfl

theorem alone_exact :
    spawned.Exact ∧ registered.Exact ∧ running.Exact ∧ finished.Exact ∧ forgotten.Exact := by
  suffices h : ∀ s ∈ [spawned, registered, running, finished, forgotten], s.Exact by simpa using h
  refine (exact_iff 10 aliceAlone _ trace_aliceAlone).mpr ?_
  have hclosed : running.closedPeer aliceInfo.address = some alice := by decide +kernel
  have htask : running.tasks.get? alice = some ⟨aliceInfo, .running⟩ := by decide +kernel
  simp only [aliceAlone, steps_cons, forall_mem_cons]
  refine ⟨trivial, fun _ _ _ _ => rfl, fun _ => rfl, ?_, trivial, by simp [steps]⟩
  intro task hget
  rw [htask, some_inj] at hget
  rw [← hget]
  exact hclosed

/-- The end of one peer's loop removes the entry of the other peer, and a peer that hangs up early
stays on the map. -/
theorem shared_address_not_exact :
    (∃ ss, trace PeerLoops.step (PeerLoops.start 10) aliceLeaves = some ss ∧ ¬ ∀ s ∈ ss, s.Exact) ∧
      ∃ ss, trace PeerLoops.step (PeerLoops.start 10) aliceHangsUp = some ss ∧
        ¬ ∀ s ∈ ss, s.Exact := by
  have hnot : ∀ inputs peer, (∃ ss, trace step (start 10) inputs = some ss ∧
      ∃ s ∈ ss, differsAt s peer = true) →
      ∃ ss, trace step (start 10) inputs = some ss ∧ ¬ ∀ s ∈ ss, s.Exact := by
    rintro inputs peer ⟨ss, hss, s, hs, hdiffers⟩
    exact ⟨ss, hss, fun h => not_exact_of_differsAt hdiffers (h s hs)⟩
  exact ⟨hnot _ bob (by decide +kernel), hnot _ alice (by decide +kernel)⟩

end SharedAddress

end NyksNode.P2p
