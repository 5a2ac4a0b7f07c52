import NyksNode.Lib.Trace
import NyksNode.P2p.Actor

/-!
# The books about connections

A peer may have several connections to the node at a time.  The actor's books have room for all of
them, but a connection to a peer that is on the books already is not entered, while every
connection that closes is taken out.  So the books follow the swarm as long as no peer opens a
second connection.
-/

namespace NyksNode.P2p

open List Option AssocMap NetworkActor

/-- The actor, and the open connections of the swarm. -/
structure Connections where
  actor : NetworkActor
  opened : List (PeerId × ConnectionId × Multiaddr)

inductive ConnectionEvent where
  | established (peer : PeerId) (connection : ConnectionId) (remoteAddress : Multiaddr)
    (now : SystemTime)
  | closed (peer : PeerId) (connection : ConnectionId)

namespace Connections
variable [IterOrder]

def without (opened : List (PeerId × ConnectionId × Multiaddr)) (connection : ConnectionId) :
    List (PeerId × ConnectionId × Multiaddr) :=
  opened.filter fun c => c.2.1 ≠ connection

def isConnected (opened : List (PeerId × ConnectionId × Multiaddr)) (peer : PeerId) : Bool :=
  opened.any fun c => c.1 = peer

def step (s : Connections) : ConnectionEvent → Option Connections
  | .established peer connection address now =>
    some
      { actor := s.actor.handleConnectionEstablished peer connection address now
        opened := (peer, connection, address) :: s.opened }
  | .closed peer connection =>
    let opened := without s.opened connection
    some
      { actor := s.actor.handleConnectionClosed peer connection (isConnected opened peer)
        opened := opened }

/-- The swarm numbers its connections, and a connection closes once.  The actor has not bounced
the ones that open. -/
def Possible (s : Connections) : ConnectionEvent → Prop
  | .established peer connection address _ =>
    connection ∉ s.opened.map (·.2.1) ∧
      (s.actor.activeConnections.get? peer = none → s.actor.shouldBounce address = none)
  | .closed peer connection => ∃ address, (peer, connection, address) ∈ s.opened

/-- Each peer with an open connection is on the books, with its open connections and their
addresses. -/
structure Exact (s : Connections) : Prop where
  isSome_iff : ∀ peer, (s.actor.activeConnections.get? peer).isSome = true ↔
    ∃ connection address, (peer, connection, address) ∈ s.opened
  get?_eq_some_iff : ∀ peer since addresses,
    s.actor.activeConnections.get? peer = some (since, addresses) →
      ∀ connection address, addresses.get? connection = some address ↔
        (peer, connection, address) ∈ s.opened

/-- The books are exact.  A ban of a peer extends to the IP addresses that it is connected from
without a relay, and a peer loop is given the address of a connection. -/
structure Supports (s : Connections) : Prop extends Exact s where
  bans : ∀ peer connection address ip now, (peer, connection, address) ∈ s.opened →
    address.isCircuit = false → address.ip? = some ip →
      ip ∈ (s.actor.handleBan (.inl peer) now).blackList.list.keys
  spawns : ∀ peer connection address, (peer, connection, address) ∈ s.opened →
    peer ∉ s.actor.upgradedPeers →
      ∃ actor' connection' address', s.actor.handleStreamGatewayEvent peer = .ok actor' ∧
        actor'.spawned = s.actor.spawned ++ [⟨peer, address'⟩] ∧
        (peer, connection', address') ∈ s.opened

/-- The peer of a connection that opens is not on the books. -/
def Single (s : Connections) : ConnectionEvent → Prop
  | .established peer _ _ _ => s.actor.activeConnections.get? peer = none
  | .closed _ _ => True

/-! ## What exact books are good for -/

section
variable {s s' : Connections} {peer : PeerId} {connection : ConnectionId} {address : Multiaddr}

omit [IterOrder] in
theorem Exact.exists_entry (h : s.Exact) (hopen : (peer, connection, address) ∈ s.opened) :
    ∃ since addresses, s.actor.activeConnections.get? peer = some (since, addresses) ∧
      addresses.get? connection = some address := by
  obtain ⟨⟨since, addresses⟩, hentry⟩ :=
    isSome_iff_exists.mp ((h.isSome_iff peer).mpr ⟨connection, address, hopen⟩)
  exact ⟨since, addresses, hentry,
    (h.get?_eq_some_iff peer since addresses hentry connection address).mpr hopen⟩

omit [IterOrder] in
theorem Exact.mem_bannableIps (h : s.Exact) {ip : IpAddr}
    (hopen : (peer, connection, address) ∈ s.opened) (hdirect : address.isCircuit = false)
    (hip : address.ip? = some ip) : ip ∈ s.actor.bannableIps peer := by
  obtain ⟨since, addresses, hentry, haddress⟩ := h.exists_entry hopen
  have hvalue : address ∈ addresses.values := mem_values.mpr ⟨connection, haddress⟩
  simp only [bannableIps, hentry]
  refine mem_filterMap.mpr ⟨address, mem_filter.mpr ⟨?_, ?_⟩, hip⟩
  · exact mem_append_left _ hvalue
  · simp [hdirect]

theorem Exact.exists_addressForLoop (h : s.Exact)
    (hopen : (peer, connection, address) ∈ s.opened) : ∃ since addresses connection',
      s.actor.activeConnections.get? peer = some (since, addresses) ∧
        (peer, connection', addressForLoop addresses) ∈ s.opened := by
  obtain ⟨since, addresses, hentry, haddress⟩ := h.exists_entry hopen
  have hvalue : address ∈ IterOrder.iter addresses.values :=
    IterOrder.mem_iter.mpr (mem_values.mpr ⟨connection, haddress⟩)
  have hloop : addressForLoop addresses ∈ IterOrder.iter addresses.values := by
    rw [addressForLoop]
    cases hvalues : IterOrder.iter addresses.values with
    | nil => simp [hvalues] at hvalue
    | cons first rest => simp
  obtain ⟨connection', hconnection'⟩ := mem_values.mp (IterOrder.mem_iter.mp hloop)
  exact ⟨since, addresses, connection', hentry,
    (h.get?_eq_some_iff peer since addresses hentry connection' _).mp hconnection'⟩

theorem Exact.supports (h : s.Exact) : s.Supports where
  toExact := h
  bans := by
    intro peer connection address ip now hopen hdirect hip
    exact BlackList.mem_keys_foldl_ban (h.mem_bannableIps hopen hdirect hip)
  spawns := by
    intro peer connection address hopen hupgraded
    obtain ⟨since, addresses, connection', hentry, hloop⟩ := h.exists_addressForLoop hopen
    obtain ⟨actor', hspawn, hspawned⟩ := exists_spawnPeerLoop
      (addressForLoop addresses) hupgraded
    refine ⟨actor', connection', addressForLoop addresses, ?_, hspawned, hloop⟩
    simp [handleStreamGatewayEvent, hentry, hspawn]

end

/-! ## Runs -/

/-- Connections have numbers of their own. -/
structure Sound (s : Connections) : Prop where
  exact : s.Exact
  nodup : (s.opened.map (·.2.1)).Nodup

section
variable {s s' : Connections} {peer : PeerId} {connection : ConnectionId} {address : Multiaddr}

section
omit [IterOrder]

theorem not_exact_established_of_isSome (hs : s.Exact) (now : SystemTime)
    (hfresh : connection ∉ s.opened.map (·.2.1))
    (hpeer : (s.actor.activeConnections.get? peer).isSome = true) : ¬ Exact
      { actor := s.actor.handleConnectionEstablished peer connection address now
        opened := (peer, connection, address) :: s.opened } := by
  intro hexact
  obtain ⟨since, addresses, hentry, haddress⟩ := hexact.exists_entry mem_cons_self
  simp only [activeConnections_handleConnectionEstablished_of_isSome connection
    address now hpeer] at hentry
  have hopen := (hs.get?_eq_some_iff peer since addresses hentry connection address).mp haddress
  exact hfresh (mem_map.mpr ⟨_, hopen, rfl⟩)

theorem exact_established_of_none (hs : s.Exact) (now : SystemTime)
    (hpeer : s.actor.activeConnections.get? peer = none)
    (hbounce : s.actor.shouldBounce address = none) : Exact
      { actor := s.actor.handleConnectionEstablished peer connection address now
        opened := (peer, connection, address) :: s.opened } := by
  have hclosed : ∀ connection' address', (peer, connection', address') ∉ s.opened := by
    intro connection' address' hopen
    have hsome := (hs.isSome_iff peer).mpr ⟨connection', address', hopen⟩
    simp [hpeer] at hsome
  have hbooks := activeConnections_handleConnectionEstablished_of_none connection now
    hpeer hbounce
  constructor
  · intro peer'
    simp only [hbooks, get?_insert, mem_cons, Prod.mk.injEq]
    by_cases h : peer' = peer
    · rw [if_pos h]
      exact iff_of_true rfl ⟨connection, address, .inl ⟨h, rfl, rfl⟩⟩
    · simp [h, hs.isSome_iff peer']
  · intro peer' since addresses hentry connection' address'
    simp only [hbooks, get?_insert] at hentry
    by_cases h : peer' = peer
    · subst h
      rw [if_pos rfl, some_inj, Prod.mk.injEq] at hentry
      rw [← hentry.2, get?_insert, mem_cons]
      simp [hclosed, eq_comm]
    · rw [if_neg h] at hentry
      rw [hs.get?_eq_some_iff peer' since addresses hentry, mem_cons]
      simp [h]

theorem mem_without_iff (hnodup : (s.opened.map (·.2.1)).Nodup)
    (hopen : (peer, connection, address) ∈ s.opened) {c : PeerId × ConnectionId × Multiaddr} :
    c ∈ without s.opened connection ↔ c ∈ s.opened ∧ c ≠ (peer, connection, address) := by
  rw [without, mem_filter, decide_eq_true_eq]
  refine and_congr_right fun hc => not_congr ⟨fun heq => ?_, fun heq => by rw [heq]⟩
  exact inj_on_of_nodup_map hnodup hc hopen heq

theorem isConnected_iff {opened : List (PeerId × ConnectionId × Multiaddr)} {peer : PeerId} :
    isConnected opened peer = true ↔
      ∃ connection address, (peer, connection, address) ∈ opened := by
  rw [isConnected, List.any_eq_true]
  constructor
  · intro h
    obtain ⟨⟨peer', connection, address⟩, hmem, heq⟩ := h
    obtain rfl : peer' = peer := by simpa using heq
    exact ⟨connection, address, hmem⟩
  · intro h
    obtain ⟨connection, address, hmem⟩ := h
    exact ⟨_, hmem, by simp⟩

/-- A connection that closes is taken out of the books, and its peer with the last one. -/
theorem exact_closed (hs : s.Sound) (hopen : (peer, connection, address) ∈ s.opened) : Exact
      { actor := s.actor.handleConnectionClosed peer connection
          (isConnected (without s.opened connection) peer)
        opened := without s.opened connection } := by
  obtain ⟨since, addresses, hentry, haddress⟩ := hs.exact.exists_entry hopen
  have hbooks : ∀ peer', (s.actor.handleConnectionClosed peer connection
      (isConnected (without s.opened connection) peer)).activeConnections.get? peer' =
        if peer' = peer then
          if isConnected (without s.opened connection) peer then
            some (since, addresses.erase connection)
          else none
        else s.actor.activeConnections.get? peer' := by
    intro peer'
    simp only [handleConnectionClosed, hentry]
    cases isConnected (without s.opened connection) peer with
    | false => simp [get?_erase]
    | true => simp [get?_insert]
  constructor
  · intro peer'
    rw [hbooks, ← isConnected_iff]
    by_cases h : peer' = peer
    · rw [if_pos h, h]
      cases isConnected (without s.opened connection) peer with
      | false => simp
      | true => simp
    · rw [if_neg h, hs.exact.isSome_iff peer', isConnected_iff]
      simp [mem_without_iff hs.nodup hopen, h]
  · intro peer' since' addresses' hentry' connection' address'
    rw [hbooks] at hentry'
    rw [mem_without_iff hs.nodup hopen]
    by_cases h : peer' = peer
    · subst h
      rw [if_pos rfl] at hentry'
      obtain ⟨-, heq⟩ := ite_none_right_eq_some.mp hentry'
      rw [some_inj, Prod.mk.injEq] at heq
      rw [← heq.2, get?_erase]
      have hold := hs.exact.get?_eq_some_iff peer' since addresses hentry connection' address'
      by_cases hc : connection' = connection
      · rw [if_pos hc]
        refine iff_of_false (by simp) ?_
        intro hmem
        exact hmem.2 (inj_on_of_nodup_map hs.nodup hmem.1 hopen hc)
      · rw [if_neg hc, hold]
        simp [hc]
    · rw [if_neg h] at hentry'
      rw [hs.exact.get?_eq_some_iff peer' since' addresses' hentry']
      simp [h]

theorem nodup_step {event : ConnectionEvent} (hs : s.Sound) (hpossible : s.Possible event)
    (hstep : s.step event = some s') : (s'.opened.map (·.2.1)).Nodup := by
  cases event with
  | established peer connection address now =>
    rw [← some_inj.mp hstep]
    exact nodup_cons.mpr ⟨hpossible.1, hs.nodup⟩
  | closed peer connection =>
    rw [← some_inj.mp hstep]
    exact hs.nodup.sublist (List.Sublist.map _ filter_sublist)

/-- The books stay exact exactly if the peer of a connection that opens is not on them. -/
theorem exact_step_iff {event : ConnectionEvent} (hs : s.Sound) (hpossible : s.Possible event)
    (hstep : s.step event = some s') : s'.Exact ↔ s.Single event := by
  cases event with
  | established peer connection address now =>
    rw [← some_inj.mp hstep]
    constructor
    · intro hexact
      by_contra hpeer
      exact not_exact_established_of_isSome hs.exact now hpossible.1
        (isSome_iff_ne_none.mpr hpeer) hexact
    · intro hpeer
      exact exact_established_of_none hs.exact now hpeer (hpossible.2 hpeer)
  | closed peer connection =>
    obtain ⟨address, hopen⟩ := hpossible
    rw [← some_inj.mp hstep]
    exact iff_of_true (exact_closed hs hopen) trivial

end

end

def start (config : NetworkConfig) : Connections := ⟨.new config, []⟩

omit [IterOrder] in
theorem sound_start (config : NetworkConfig) : (start config).Sound where
  exact :=
    { isSome_iff := by simp [start, new]
      get?_eq_some_iff := by simp [start, new] }
  nodup := nodup_nil

/-- From the start on, the books support bans and peer loops exactly if no peer opens a connection
while it is on the books. -/
theorem supports_iff (config : NetworkConfig) (events : List ConnectionEvent)
    (ss : List Connections) (ht : trace step (start config) events = some ss)
    (hpossible : ∀ x ∈ steps (start config) events ss, x.1.Possible x.2) :
    (∀ x ∈ ss, x.Supports) ↔ ∀ x ∈ steps (start config) events ss, x.1.Single x.2 := by
  refine forall_trace_iff_of_invariant (I := Sound) ?_ (sound_start config) ht hpossible
  intro s event s' hs hpossible hstep
  have hexact := exact_step_iff hs hpossible hstep
  refine ⟨?_, fun hsingle => ⟨hexact.mpr hsingle, nodup_step hs hpossible hstep⟩⟩
  rw [← hexact]
  exact ⟨fun h => h.toExact, fun h => h.supports⟩

end Connections

/-! ## A peer that connects again -/

namespace Reconnected

local instance reconnectedOrder : IterOrder := .asKept

def config : NetworkConfig where
  localPeerId := ⟨"local"⟩
  protocolVersion := "nyks"
  addressBook := ⟨.empty, .main⟩
  blackList := ⟨.empty, []⟩
  stickyPeers := []
  externalAddresses := []
  maxNumPeers := 10

def mallory : PeerId := ⟨"mallory"⟩

def address : Multiaddr := [.ip4 ⟨8, 8, 8, 8⟩, .tcp 9798]

def opened : Connections where
  actor := (NetworkActor.new config).handleConnectionEstablished mallory 1 address 0
  opened := [(mallory, 1, address)]

def reopened : Connections where
  actor := opened.actor.handleConnectionEstablished mallory 2 address 1
  opened := [(mallory, 2, address), (mallory, 1, address)]

def left : Connections where
  actor := reopened.actor.handleConnectionClosed mallory 1 true
  opened := [(mallory, 2, address)]

theorem possible_first : (Connections.start config).Possible (.established mallory 1 address 0) :=
  ⟨by decide, fun _ => by decide +kernel⟩

def alice : PeerId := ⟨"alice"⟩

def joined : Connections where
  actor := opened.actor.handleConnectionEstablished alice 2 [.ip4 ⟨9, 9, 9, 9⟩, .tcp 9798] 1
  opened := [(alice, 2, [.ip4 ⟨9, 9, 9, 9⟩, .tcp 9798]), (mallory, 1, address)]

def parted : Connections where
  actor := joined.actor.handleConnectionClosed mallory 1 false
  opened := [(alice, 2, [.ip4 ⟨9, 9, 9, 9⟩, .tcp 9798])]

/-- Two peers connect, and one of them leaves. -/
theorem two_peers_support :
    let events : List ConnectionEvent := [.established mallory 1 address 0,
      .established alice 2 [.ip4 ⟨9, 9, 9, 9⟩, .tcp 9798] 1, .closed mallory 1]
    trace Connections.step (Connections.start config) events = some [opened, joined, parted] ∧
      ∀ x ∈ [opened, joined, parted], x.Supports := by
  intro events
  refine ⟨rfl, (Connections.supports_iff config events _ rfl ?_).mpr ?_⟩
  · refine forall_mem_cons.mpr ⟨possible_first, forall_mem_cons.mpr ⟨⟨by decide, fun _ => ?_⟩,
      forall_mem_singleton.mpr ⟨address, by simp⟩⟩⟩
    decide +kernel
  · refine forall_mem_cons.mpr ⟨rfl, forall_mem_cons.mpr ⟨?_, forall_mem_singleton.mpr trivial⟩⟩
    rfl

/-- With the second connection open, the books have no address of the peer: a ban of the peer bans
no IP address, and its peer loop is told that the peer is at the local host. -/
theorem reconnected_not_supports : trace Connections.step (Connections.start config)
        [.established mallory 1 address 0, .established mallory 2 address 1, .closed mallory 1] =
          some [opened, reopened, left] ∧
      (Connections.start config).Possible (.established mallory 1 address 0) ∧
      opened.Possible (.established mallory 2 address 1) ∧
      reopened.Possible (.closed mallory 1) ∧ (mallory, 2, address) ∈ left.opened ∧
      (left.actor.handleBan (.inl mallory) 2).blackList.list.keys = [] ∧
      (left.actor.handleStreamGatewayEvent mallory).toOption.map NetworkActor.spawned =
        some [⟨mallory, [.ip4 .localhost]⟩] ∧ ¬ left.Supports := by
  have hban : (left.actor.handleBan (.inl mallory) 2).blackList.list.keys = [] := by
    decide +kernel
  refine ⟨rfl, possible_first, ⟨by decide, fun h => ?_⟩, ⟨address, by simp [reopened]⟩,
    mem_singleton.mpr rfl, hban, by decide +kernel, ?_⟩
  · have hsome : (opened.actor.activeConnections.get? mallory).isSome = true := by decide +kernel
    rw [h] at hsome
    cases hsome
  · intro hsupports
    have hbanned := hsupports.bans mallory 2 address (.v4 ⟨8, 8, 8, 8⟩) 2
      (mem_singleton.mpr rfl) (by decide) (by decide)
    rw [hban] at hbanned
    simp at hbanned

end Reconnected

end NyksNode.P2p
