import NyksNode.Lib.Fallible
import NyksNode.P2p.AddressBook

/-!
# The network actor

The actor owns the swarm, the libp2p stack of the node, and keeps the node's own books about it:
which peers are connected and from where, which of them relay for the node, who is banned, and
which peers are always to be dialled again.  It waits for the next event of the swarm, the next
command of the main loop or the next tick of a timer, and handles it.

The swarm is not part of the model.  What the actor asks of it is recorded in `calls`, and what it
answers, at once or later as an event, comes with the input that is handled.
-/

namespace NyksNode.P2p

abbrev ConnectionId := ℕ

abbrev ListenerId := ℕ

/-! ## Reachability -/

inductive NatStatus where
  | publicAt (address : Multiaddr)
  | privateNode
  | unknown
  deriving DecidableEq

inductive RelayStrategy where
  | waitingForExternalAddress
  | pending (address : Multiaddr)
  | relayed (address : Multiaddr)
  deriving DecidableEq

inductive ReachabilityState where
  | unknown
  | unknownWithExternalAddress (address : Multiaddr)
  | privateNode (strategy : RelayStrategy)
  | publicAt (address : Multiaddr)
  | upnp (address : Multiaddr)
  deriving DecidableEq

namespace ReachabilityState

def handleNewNatStatus : ReachabilityState → NatStatus → ReachabilityState
  | state, .unknown => state
  | .unknownWithExternalAddress address, .privateNode => .privateNode (.pending address)
  | _, .privateNode => .privateNode .waitingForExternalAddress
  | _, .publicAt address => .publicAt address

def handleExternalAddress (state : ReachabilityState) (address : Multiaddr) : ReachabilityState :=
  match state with
  | .unknown => if address.isCircuit then .unknown else .unknownWithExternalAddress address
  | .unknownWithExternalAddress existing =>
    .unknownWithExternalAddress (if address.isCircuit then existing else address)
  | .privateNode .waitingForExternalAddress =>
    .privateNode (if address.isCircuit then .waitingForExternalAddress else .pending address)
  | .privateNode strategy => .privateNode strategy
  | .publicAt existing => .publicAt existing
  | .upnp existing => .upnp existing

def handleRelayConfirmed (state : ReachabilityState) (circuit : Multiaddr) : ReachabilityState :=
  match state with
  | .privateNode _ => .privateNode (.relayed circuit)
  | state => state

def isPending : ReachabilityState → Option Multiaddr
  | .privateNode (.pending address) => some address
  | _ => none

end ReachabilityState

/-! ## The actor -/

/-- `RelayStatus`: the state of a reservation at a relay. -/
inductive RelayStatus where
  | waiting (listener : ListenerId)
  | active (since : SystemTime) (listener : ListenerId)
  | closed (since : SystemTime)
  deriving DecidableEq

namespace RelayStatus

def activate (now : SystemTime) : RelayStatus → RelayStatus
  | .waiting listener => .active now listener
  | .active _ listener => .active now listener
  | .closed since => .closed since

def listenerId : RelayStatus → Option ListenerId
  | .waiting listener => some listener
  | .active _ listener => some listener
  | .closed _ => none

end RelayStatus

/-- `StickyPeer`: the state of a peer that is to stay connected. -/
inductive StickyPeer where
  | none
  | dialing (since : SystemTime)
  | connected (peer : PeerId)
  deriving DecidableEq

/-- What the actor asks of the swarm and its behaviours. -/
inductive SwarmCall where
  | dial (address : Multiaddr)
  | listenOn (address : Multiaddr)
  | removeListener (listener : ListenerId)
  | closeConnection (connection : ConnectionId)
  | disconnectPeerId (peer : PeerId)
  | addExternalAddress (address : Multiaddr)
  | removeExternalAddress (address : Multiaddr)
  | bootstrap

/-- A task that runs the peer loop of a peer at an address. -/
structure NewPeerLoop where
  peer : PeerId
  address : Multiaddr
  deriving DecidableEq

structure NetworkActor where
  localPeerId : PeerId
  localProtocolVersion : String
  activeConnections : AssocMap PeerId (SystemTime × AssocMap ConnectionId Multiaddr)
  addressBook : AddressBook
  relays : AssocMap PeerId RelayStatus
  activeListeners : List ListenerId
  blackList : BlackList
  stickyPeers : AssocMap Multiaddr StickyPeer
  maxNumPeers : ℕ
  upgradedPeers : List PeerId
  reachabilityState : ReachabilityState
  acceptNewExternalAddresses : Bool
  /-- What was asked of the swarm so far. -/
  calls : List SwarmCall
  /-- The peer loops spawned so far. -/
  spawned : List NewPeerLoop

inductive BounceReason where
  | maxReached
  | banned
  | unsupportedAddressFormat
  deriving DecidableEq, Repr

inductive ActorError where
  | noAddressForPeer (peer : PeerId)
  | channelClosed
  deriving DecidableEq, Repr

/-! ## What the actor waits for -/

/-- The swarm's part in requests for relays: the order in which the available peers are tried, the
random index into the suitable addresses of each of them, and what listening there returns. -/
structure RelayChoices where
  shuffle : List PeerId → List PeerId
  index : PeerId → ℕ
  listenOn : PeerId → Option ListenerId

/-- The events that the actor acts upon; the others are logged at most. -/
inductive SwarmEvent where
  | identifyReceived (peer : PeerId) (info : IdentifyInfo) (clock : ClockReadings)
    (choices : RelayChoices)
  | upnpNewExternalAddr (address : Multiaddr)
  | upnpExpiredExternalAddr (address : Multiaddr)
  | autonatStatusChanged (new : NatStatus) (choices : RelayChoices)
  | relayReservationAccepted (relay : PeerId) (now : SystemTime)
  | streamGatewayHandshakeReceived (peer : PeerId)
  | newListenAddr (address : Multiaddr)
  | externalAddrConfirmed (address : Multiaddr)
  | expiredListenAddr (address : Multiaddr)
  | outgoingConnectionError (peer : PeerId) (denied : Bool)
  | listenerClosed (listener : ListenerId) (now : SystemTime)
  | incomingConnection (connection : ConnectionId) (sendBackAddr : Multiaddr)
  /-- `stillConnected`: whether the swarm has another connection to the peer. -/
  | connectionClosed (peer : PeerId) (connection : ConnectionId) (stillConnected : Bool)
  | connectionEstablished (peer : PeerId) (connection : ConnectionId) (remoteAddress : Multiaddr)
    (now : SystemTime)
  | other

inductive NetworkActorCommand where
  | dial (address : Multiaddr)
  /-- `listener`: the swarm's answer. -/
  | listen (address : Multiaddr) (listener : Option ListenerId)
  | ban (peer : PeerId ⊕ IpAddr) (now : SystemTime)
  | unban (ip : IpAddr)
  | unbanAll
  /-- `connectedPeers`: the peers that the swarm is connected to. -/
  | shutdown (connectedPeers : List PeerId)
  | probeNat
  | resetRelayReservations
  | getNetworkOverview

/-- What the loop of the actor selects from. -/
inductive ActorInput where
  | swarmEvent (event : SwarmEvent)
  | command (command : NetworkActorCommand)
  /-- The main loop has dropped its end of the command channel. -/
  | commandChannelClosed
  | checkRelayReservations (now : SystemTime) (choices : RelayChoices)
  /-- `bootstrapped`: whether Kademlia knows a peer to start from. -/
  | refreshKademliaCrawl (clock : PeerId → SystemTime) (bootstrapped : Bool)
  | kademliaReportHealth
  | checkStickyPeers (now : SystemTime) (clock : PeerId → SystemTime)

/-- What the actor is started with; the address book and the black list are those on disk. -/
structure NetworkConfig where
  localPeerId : PeerId
  protocolVersion : String
  addressBook : AddressBook
  blackList : BlackList
  stickyPeers : List Multiaddr
  externalAddresses : List Multiaddr
  maxNumPeers : ℕ

namespace NetworkActor

def new (config : NetworkConfig) : NetworkActor where
  localPeerId := config.localPeerId
  localProtocolVersion := config.protocolVersion
  activeConnections := .empty
  addressBook := config.addressBook
  relays := .empty
  activeListeners := []
  blackList := config.blackList
  stickyPeers := .ofList (config.stickyPeers.map fun address => (address, .none))
  maxNumPeers := config.maxNumPeers
  upgradedPeers := []
  reachabilityState := (config.externalAddresses.head?.map .publicAt).getD .unknown
  acceptNewExternalAddresses := config.externalAddresses.isEmpty
  calls := config.externalAddresses.map .addExternalAddress
  spawned := []

variable [IterOrder]

/-! ## Connections and bounces -/

def call (actor : NetworkActor) (c : SwarmCall) : NetworkActor :=
  { actor with calls := actor.calls ++ [c] }

def shouldBounce (actor : NetworkActor) (address : Multiaddr) : Option BounceReason :=
  if actor.maxNumPeers ≤ actor.activeConnections.length then some .maxReached
  else
    match address.ip? with
    | some ip => if actor.blackList.isBanned ip then some .banned else none
    | none =>
      -- Connections via single-hop circuits are accepted.
      if address.all fun proto => proto matches .p2p _ then none
      else some .unsupportedAddressFormat

/-- The filter of `dial`, on the printed form of the address. -/
def isLocal (address : Multiaddr) : Bool :=
  ["127.0.0.1", "::1", "/lan/"].any fun pattern =>
    address.toText.toList.tails.any fun tail => pattern.toList.isPrefixOf tail

def dial (actor : NetworkActor) (address : Multiaddr) : NetworkActor :=
  if isLocal address then actor else actor.call (.dial address)

def dialAll (actor : NetworkActor) (addresses : List Multiaddr) : NetworkActor :=
  addresses.foldl dial actor

def addExternalAddress (actor : NetworkActor) (address : Multiaddr) : NetworkActor :=
  if actor.acceptNewExternalAddresses then actor.call (.addExternalAddress address) else actor

/-- The peer that has been connected longest; the first one in the order of the map. -/
def longestLivedPeer (actor : NetworkActor) : Option PeerId :=
  ((IterOrder.iter actor.activeConnections.entries).foldl (fun best e =>
      match best with
      | some (p, since) => if e.2.1 < since then some (e.1, e.2.1) else some (p, since)
      | none => some (e.1, e.2.1)) (none : Option (PeerId × SystemTime))).map (·.1)

def disconnectFromLongestLivedPeer (actor : NetworkActor) : NetworkActor :=
  match actor.longestLivedPeer with
  | some peer =>
    { actor.call (.disconnectPeerId peer) with
      activeConnections := actor.activeConnections.erase peer }
  | none => actor

/-! ## Relays -/

/-- The addresses of a peer at which it can be asked to relay. -/
def suitableAddresses (addresses : AssocMap ConnectionId Multiaddr) : List Multiaddr :=
  (IterOrder.iter addresses.values).filter fun address =>
    address.any (fun proto => (Protocol.ip? proto).isSome) && !address.isCircuit

/-- The loop of `request_peer_relays`; `missing` is the number of relays still to be asked. -/
def requestLoop (choices : RelayChoices) : NetworkActor → ℕ → List PeerId → NetworkActor
  | actor, _, [] => actor
  | actor, missing, peer :: peers =>
    match actor.activeConnections.get? peer with
    | none => requestLoop choices actor missing peers
    | some (_, addresses) =>
      match (suitableAddresses addresses)[choices.index peer]? with
      | none => requestLoop choices actor missing peers
      | some address =>
        let circuit := address.withP2p peer ++ [.p2pCircuit]
        let actor := actor.call (.listenOn circuit)
        match choices.listenOn peer with
        | some listener =>
          let actor := { actor with relays := actor.relays.insert peer (.waiting listener) }
          if missing ≤ 1 then actor else requestLoop choices actor (missing - 1) peers
        | none => requestLoop choices actor missing peers

def requestPeerRelays (actor : NetworkActor) (numRelays : ℕ) (choices : RelayChoices) :
    NetworkActor :=
  if numRelays = 0 then actor
  else
    let availablePeers := actor.activeConnections.keys.filter fun peer =>
      (actor.relays.get? peer).isNone
    requestLoop choices actor numRelays (choices.shuffle availablePeers)

def removeRelayListener (actor : NetworkActor) (status : RelayStatus) : NetworkActor :=
  match status.listenerId with
  | some listener => actor.call (.removeListener listener)
  | none => actor

def cleanupRelays (actor : NetworkActor) : NetworkActor :=
  (IterOrder.iter actor.relays.values).foldl removeRelayListener { actor with relays := .empty }

/-- `RELAY_RESERVATION_DURATION` and `RELAY_COOLDOWN_PERIOD`, in seconds. -/
def relayReservationDuration : ℕ := 120

def relayCooldownPeriod : ℕ := 10

/-- A reservation past four fifths of its time, or one that was closed long enough ago. -/
def isDue (now : SystemTime) : RelayStatus → Bool
  | .active since _ => since + relayReservationDuration * 8 / 10 ≤ now
  | .closed since => since + relayCooldownPeriod ≤ now
  | .waiting _ => false

def checkRelaysReservations (actor : NetworkActor) (now : SystemTime) (choices : RelayChoices) :
    NetworkActor :=
  if actor.relays.entries.isEmpty then actor
  else
    let due := (actor.relays.entries.filter fun e => isDue now e.2).map (·.1)
    { actor with relays := due.foldl .erase actor.relays }.requestPeerRelays due.length choices

/-! ## Events of the swarm -/

/-- `handle_identify_event`, for what a peer says about itself. -/
def handleIdentifyReceived (actor : NetworkActor) (peer : PeerId) (info : IdentifyInfo)
    (clock : ClockReadings) (choices : RelayChoices) : Option NetworkActor :=
  if peer = actor.localPeerId then some actor
  else if info.protocolVersion ≠ actor.localProtocolVersion then
    some (actor.call (.disconnectPeerId peer))
  else do
    let book := actor.addressBook.insertOrUpdate peer info clock
    let book ← book.pruneToLength AddressBook.maxSize clock.score
    let actor := { actor with addressBook := book }
    if info.observedAddr.isGlobal then
      let state := actor.reachabilityState.handleExternalAddress info.observedAddr
      let actor := { actor with reachabilityState := state }
      match state with
      | .privateNode (.pending address) =>
        some ((actor.addExternalAddress address).requestPeerRelays 3 choices)
      | .unknownWithExternalAddress address => some (actor.addExternalAddress address)
      | _ => some actor
    else some actor

def handleAutonatStatusChanged (actor : NetworkActor) (new : NatStatus) (choices : RelayChoices) :
    NetworkActor :=
  let actor :=
    match new with
    | .publicAt address => (actor.addExternalAddress address).cleanupRelays
    | _ => actor
  let state := actor.reachabilityState.handleNewNatStatus new
  let actor := { actor with reachabilityState := state }
  match state.isPending with
  | some _ => actor.requestPeerRelays 3 choices
  | none => actor

/-- `handle_upnp_event`, for a new mapping. -/
def handleUpnpNewExternalAddr (actor : NetworkActor) (address : Multiaddr) : NetworkActor :=
  { actor.addExternalAddress address with reachabilityState := .upnp address }.cleanupRelays

def handleRelayReservationAccepted (actor : NetworkActor) (relay : PeerId) (now : SystemTime) :
    NetworkActor :=
  match actor.relays.get? relay with
  | some status => { actor with relays := actor.relays.insert relay (status.activate now) }
  | none => actor

def handleNewListenAddr (actor : NetworkActor) (address : Multiaddr) : NetworkActor :=
  let isLoopback := address.any fun proto =>
    match proto with
    | .ip4 ip => ip.isLoopback
    | .ip6 ip => ip.isLoopback
    | _ => false
  if isLoopback || 1 < address.countP (· == .p2pCircuit) then actor
  else if address.isCircuit then actor.addExternalAddress address
  else actor

def handleExternalAddrConfirmed (actor : NetworkActor) (address : Multiaddr) : NetworkActor :=
  let actor := actor.addExternalAddress address
  if address.isCircuit then
    { actor with reachabilityState := actor.reachabilityState.handleRelayConfirmed address }
  else actor

def handleListenerClosed (actor : NetworkActor) (listener : ListenerId) (now : SystemTime) :
    NetworkActor :=
  let failingRelay := (IterOrder.iter actor.relays.entries).find? fun e =>
    e.2.listenerId == some listener
  match failingRelay with
  | some e => { actor with relays := actor.relays.insert e.1 (.closed now) }
  | none => actor

def handleIncomingConnection (actor : NetworkActor) (connection : ConnectionId)
    (sendBackAddr : Multiaddr) : NetworkActor :=
  if (actor.shouldBounce sendBackAddr).isSome then actor.call (.closeConnection connection)
  else actor

def handleConnectionClosed (actor : NetworkActor) (peer : PeerId) (connection : ConnectionId)
    (stillConnected : Bool) : NetworkActor :=
  match actor.activeConnections.get? peer with
  | none => actor
  | some (timestamp, addresses) =>
    if stillConnected then
      { actor with
        activeConnections :=
          actor.activeConnections.insert peer (timestamp, addresses.erase connection) }
    else { actor with activeConnections := actor.activeConnections.erase peer }

/-- A peer at a sticky address, whatever the state there was before. -/
def markSticky (actor : NetworkActor) (peer : PeerId) (address : Multiaddr) : NetworkActor :=
  match actor.stickyPeers.get? address with
  | some _ => { actor with stickyPeers := actor.stickyPeers.insert address (.connected peer) }
  | none => actor

omit [IterOrder] in
@[simp] theorem activeConnections_markSticky (actor : NetworkActor) (peer : PeerId)
    (address : Multiaddr) :
    (actor.markSticky peer address).activeConnections = actor.activeConnections := by
  rw [markSticky]
  cases actor.stickyPeers.get? address with
  | none => rfl
  | some sticky => rfl

omit [IterOrder] in
@[simp] theorem shouldBounce_markSticky (actor : NetworkActor) (peer : PeerId)
    (address address' : Multiaddr) :
    (actor.markSticky peer address).shouldBounce address' = actor.shouldBounce address' := by
  rw [markSticky]
  cases actor.stickyPeers.get? address with
  | none => rfl
  | some sticky => rfl

def handleConnectionEstablished (actor : NetworkActor) (peer : PeerId) (connection : ConnectionId)
    (address : Multiaddr) (now : SystemTime) : NetworkActor :=
  let actor := actor.markSticky peer address
  -- Duplicate connections are left to libp2p.
  if (actor.activeConnections.get? peer).isSome then actor
  else if (actor.shouldBounce address).isSome then actor.call (.closeConnection connection)
  else
    -- The entry is known to be vacant here, so `and_modify` has nothing to modify.
    { actor with
      addressBook := actor.addressBook.resetFailCount peer
      activeConnections :=
        match actor.activeConnections.get? peer with
        | some (timestamp, addresses) =>
          actor.activeConnections.insert peer (timestamp, addresses.insert connection address)
        | none =>
          actor.activeConnections.insert peer
            (now, AssocMap.empty.insert connection address) }

variable {actor : NetworkActor} {peer : PeerId}

omit [IterOrder] in
/-- A connection to a peer that is on the books leaves them as they are. -/
theorem activeConnections_handleConnectionEstablished_of_isSome (connection : ConnectionId)
    (address : Multiaddr) (now : SystemTime)
    (hpeer : (actor.activeConnections.get? peer).isSome = true) :
    (actor.handleConnectionEstablished peer connection address now).activeConnections =
      actor.activeConnections := by
  simp [handleConnectionEstablished, hpeer]

omit [IterOrder] in
/-- A connection to another peer is entered, unless it is bounced. -/
theorem activeConnections_handleConnectionEstablished_of_none {address : Multiaddr}
    (connection : ConnectionId) (now : SystemTime)
    (hpeer : actor.activeConnections.get? peer = none)
    (hbounce : actor.shouldBounce address = none) :
    (actor.handleConnectionEstablished peer connection address now).activeConnections =
      actor.activeConnections.insert peer (now, AssocMap.empty.insert connection address) := by
  simp [handleConnectionEstablished, hpeer, hbounce]

/-- The address that a peer loop is given: one of the recorded ones, or the local host. -/
def addressForLoop (addresses : AssocMap ConnectionId Multiaddr) : Multiaddr :=
  (IterOrder.iter addresses.values).head?.getD [.ip4 .localhost]

/-- `spawn_peer_loop`; `none` if the peer has a peer loop already. -/
def spawnPeerLoop (actor : NetworkActor) (peer : PeerId) (address : Multiaddr) :
    Option NetworkActor :=
  if actor.upgradedPeers.contains peer then none
  else
    let actor := { actor with
      upgradedPeers := peer :: actor.upgradedPeers
      spawned := actor.spawned ++ [⟨peer, address⟩] }
    some (if actor.upgradedPeers.length = 1 then actor.call .bootstrap else actor)

omit [IterOrder] in
theorem exists_spawnPeerLoop (address : Multiaddr) (hpeer : peer ∉ actor.upgradedPeers) :
    ∃ actor', actor.spawnPeerLoop peer address = some actor' ∧
      actor'.spawned = actor.spawned ++ [⟨peer, address⟩] := by
  have hcontains : actor.upgradedPeers.contains peer = false := by simpa using hpeer
  rw [spawnPeerLoop, hcontains, if_neg Bool.false_ne_true]
  refine ⟨_, rfl, ?_⟩
  split
  · rfl
  · rfl

def handleStreamGatewayEvent (actor : NetworkActor) (peer : PeerId) :
    Except ActorError NetworkActor :=
  match actor.activeConnections.get? peer with
  | none => .error (.noAddressForPeer peer)
  | some (_, addresses) =>
    .ok ((actor.spawnPeerLoop peer (addressForLoop addresses)).getD actor)

def handleSwarmEvent (actor : NetworkActor) : SwarmEvent → Fallible ActorError NetworkActor
  | .identifyReceived peer info clock choices =>
    Fallible.orPanic (actor.handleIdentifyReceived peer info clock choices)
  | .upnpNewExternalAddr address => pure (actor.handleUpnpNewExternalAddr address)
  | .upnpExpiredExternalAddr _ => pure { actor with reachabilityState := .unknown }
  | .autonatStatusChanged new choices => pure (actor.handleAutonatStatusChanged new choices)
  | .relayReservationAccepted relay now => pure (actor.handleRelayReservationAccepted relay now)
  | .streamGatewayHandshakeReceived peer =>
    ExceptT.mk (some (actor.handleStreamGatewayEvent peer))
  | .newListenAddr address => pure (actor.handleNewListenAddr address)
  | .externalAddrConfirmed address => pure (actor.handleExternalAddrConfirmed address)
  | .expiredListenAddr address => pure (actor.call (.removeExternalAddress address))
  | .outgoingConnectionError peer denied =>
    pure (if denied then actor else
      { actor with addressBook := actor.addressBook.bumpFailCount peer })
  | .listenerClosed listener now => pure (actor.handleListenerClosed listener now)
  | .incomingConnection connection sendBackAddr =>
    pure (actor.handleIncomingConnection connection sendBackAddr)
  | .connectionClosed peer connection stillConnected =>
    pure (actor.handleConnectionClosed peer connection stillConnected)
  | .connectionEstablished peer connection address now =>
    pure (actor.handleConnectionEstablished peer connection address now)
  | .other => pure actor

/-! ## Commands of the main loop -/

/-- Dial on request: a ban of the address is lifted, and a peer makes room if there is none. -/
def handleDial (actor : NetworkActor) (address : Multiaddr) : NetworkActor :=
  let actor :=
    match address.ip? with
    | some ip => { actor with blackList := actor.blackList.unban ip }
    | none => actor
  let actor :=
    if actor.maxNumPeers ≤ actor.activeConnections.length then
      actor.disconnectFromLongestLivedPeer
    else actor
  actor.dial address

/-- The IP addresses that a ban of a peer extends to.  Relayed addresses are left out. -/
def bannableIps (actor : NetworkActor) (peer : PeerId) : List IpAddr :=
  let activeConnectionAddresses :=
    match actor.activeConnections.get? peer with
    | some (_, addresses) => addresses.values
    | none => []
  let addressBookAddresses :=
    match actor.addressBook.get? peer with
    | some p => p.listenAddresses
    | none => []
  ((activeConnectionAddresses ++ addressBookAddresses).filter fun address =>
    !address.isCircuit).filterMap Multiaddr.ip?

def handleBan (actor : NetworkActor) (peer : PeerId ⊕ IpAddr) (now : SystemTime) : NetworkActor :=
  match peer with
  | .inl peer =>
    { actor.call (.disconnectPeerId peer) with
      blackList := (actor.bannableIps peer).foldl (fun black ip => black.ban ip now)
        actor.blackList }
  | .inr ip => { actor with blackList := actor.blackList.ban ip now }

def handleUnbanAll (actor : NetworkActor) : NetworkActor :=
  { actor with blackList := actor.blackList.list.keys.foldl .unban actor.blackList }

/-- Drop one relay, and the peer behind it. -/
def resetRelay (actor : NetworkActor) (e : PeerId × RelayStatus) : NetworkActor :=
  let actor := (actor.removeRelayListener e.2).call (.disconnectPeerId e.1)
  { actor with activeConnections := actor.activeConnections.erase e.1 }

def handleResetRelayReservations (actor : NetworkActor) : NetworkActor :=
  (IterOrder.iter actor.relays.entries).foldl resetRelay { actor with relays := .empty }

def handleShutdown (actor : NetworkActor) (connectedPeers : List PeerId) : NetworkActor :=
  let actor := actor.activeListeners.foldl (fun actor l => actor.call (.removeListener l)) actor
  connectedPeers.foldl (fun actor peer => actor.call (.disconnectPeerId peer))
    { actor with maxNumPeers := 0 }

/-- `handle_command`, with `KEEP_ALIVE` as `true`. -/
def handleCommand (actor : NetworkActor) : NetworkActorCommand → NetworkActor × Bool
  | .dial address => (actor.handleDial address, true)
  | .listen address listener =>
    let actor := actor.call (.listenOn address)
    match listener with
    | some l => ({ actor with activeListeners := actor.activeListeners ++ [l] }, true)
    | none => (actor, true)
  | .ban peer now => (actor.handleBan peer now, true)
  | .unban ip => ({ actor with blackList := actor.blackList.unban ip }, true)
  | .unbanAll => (actor.handleUnbanAll, true)
  | .shutdown connectedPeers => (actor.handleShutdown connectedPeers, false)
  | .probeNat => (actor, true)
  | .resetRelayReservations => (actor.handleResetRelayReservations, true)
  | .getNetworkOverview => (actor, true)

/-! ## Timers -/

/-- Whether a sticky peer is to be dialled again. -/
def isMissing (actor : NetworkActor) (now : SystemTime) : StickyPeer → Bool
  | .none => true
  | .dialing since => since + 120 < now
  | .connected peer => (actor.activeConnections.get? peer).isNone

def checkStickyPeers (actor : NetworkActor) (now : SystemTime) (clock : PeerId → SystemTime) :
    Option NetworkActor := do
  let missing := (IterOrder.iter actor.stickyPeers.entries).filter fun e => actor.isMissing now e.2
  let dials := missing.map (·.1)
  let stickyPeers := dials.foldl (fun peers address => peers.insert address (.dialing now))
    actor.stickyPeers
  let initial ← if stickyPeers.entries.isEmpty && actor.activeConnections.entries.isEmpty then
      actor.addressBook.selectInitialPeers 3 clock
    else some []
  let dials := dials ++ initial
  let numFreeSlots := actor.maxNumPeers - actor.activeConnections.length
  let actor := { actor with stickyPeers := stickyPeers }
  -- Disconnect once for every slot that is missing.
  let actor := Nat.iterate disconnectFromLongestLivedPeer (dials.length - numFreeSlots) actor
  some (actor.dialAll dials)

def refreshKademliaCrawl (actor : NetworkActor) (clock : PeerId → SystemTime)
    (bootstrapped : Bool) : Option NetworkActor :=
  let actor := actor.call .bootstrap
  if bootstrapped then some actor
  else do
    let initialPeers ← actor.addressBook.selectInitialPeers 10 clock
    some (actor.dialAll initialPeers)

/-! ## The loop -/

/-- How the loop ends: by an error, or because it was told to. -/
abbrev RunResult := Except ActorError Unit

/-- Handle one input.  The error is what `run` returns. -/
def step (actor : NetworkActor) : ActorInput → Fallible RunResult NetworkActor
  | .swarmEvent event => ExceptT.adapt .error (actor.handleSwarmEvent event)
  | .command command =>
    let (actor, keepAlive) := actor.handleCommand command
    if keepAlive then pure actor else throw (.ok ())
  | .commandChannelClosed => throw (.error .channelClosed)
  | .checkRelayReservations now choices => pure (actor.checkRelaysReservations now choices)
  | .refreshKademliaCrawl clock bootstrapped =>
    Fallible.orPanic (actor.refreshKademliaCrawl clock bootstrapped)
  | .kademliaReportHealth => pure actor
  | .checkStickyPeers now clock => Fallible.orPanic (actor.checkStickyPeers now clock)

/-- The loop of the actor over the inputs that come up; the state that it has then, or what it
returns. -/
def run (actor : NetworkActor) (inputs : List ActorInput) : Fallible RunResult NetworkActor :=
  inputs.foldlM step actor

end NetworkActor

end NyksNode.P2p
