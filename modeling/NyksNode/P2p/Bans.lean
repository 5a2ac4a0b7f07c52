import NyksNode.P2p.Run

/-!
# Lifting bans

A ban lives in two places: on the black list of the network actor, and as a bad standing in the
database of the main loop.  A request to unban clears both, while a request to dial is only passed
on to the actor.
-/

namespace NyksNode.P2p

open NetworkActor List Option

/-- A `PeerStanding`, without the last sanctions, which nothing here reads. -/
structure PeerStanding where
  standing : ℤ
  peerTolerance : ℤ
  tolerance_pos : 0 < peerTolerance

namespace PeerStanding

def clearStanding (s : PeerStanding) : PeerStanding := { s with standing := 0 }

def isBad (s : PeerStanding) : Bool := s.standing ≤ -s.peerTolerance

theorem isBad_clearStanding (s : PeerStanding) : s.clearStanding.isBad = false :=
  decide_eq_false (by simpa [clearStanding] using s.tolerance_pos)

end PeerStanding

/-- The standings in the database, by IP address. -/
abbrev PeerStandings := AssocMap IpAddr PeerStanding

namespace PeerStandings

def clearIpStanding (standings : PeerStandings) (ip : IpAddr) : PeerStandings :=
  match standings.get? ip with
  | some s => standings.insert ip s.clearStanding
  | none => standings

def clearAllStandings (standings : PeerStandings) : PeerStandings :=
  (standings.entries.map fun e => (e.1, e.2.clearStanding)).foldl (fun m e => m.insert e.1 e.2)
    standings

end PeerStandings

/-- The requests of the RPC server that lift the ban of an address. -/
inductive LiftRequest where
  | unban
  | unbanAll
  | dial
  deriving DecidableEq

/-- The main loop and then the network actor handle a request. -/
def handleLift [IterOrder] (actor : NetworkActor) (standings : PeerStandings)
    (address : Multiaddr) : LiftRequest → NetworkActor × PeerStandings
  | .unban =>
    match address.ip? with
    | some ip => ((actor.handleCommand (.unban ip)).1, standings.clearIpStanding ip)
    | none => (actor, standings)
  | .unbanAll => ((actor.handleCommand .unbanAll).1, standings.clearAllStandings)
  | .dial => ((actor.handleCommand (.dial address)).1, standings)

theorem get?_foldl_erase {κ ν : Type*} [DecidableEq κ] (ks : List κ) (m : AssocMap κ ν) (k : κ) :
    (ks.foldl .erase m).get? k = if k ∈ ks then none else m.get? k := by
  induction ks generalizing m with
  | nil => rfl
  | cons k' ks ih =>
    rw [foldl_cons, ih, AssocMap.get?_erase]
    by_cases hk : k = k' <;> simp [hk]

theorem isBad_of_clearAllStandings {standings : PeerStandings} {ip : IpAddr} {s : PeerStanding}
    (hs : standings.clearAllStandings.get? ip = some s) : s.isBad = false := by
  rw [PeerStandings.clearAllStandings, AssocMap.get?_foldl_insert _ (by
    simpa [Function.comp_def] using standings.nodup_keys)] at hs
  rcases or_eq_some_iff.mp hs with hfound | ⟨hnone, hs⟩
  · obtain ⟨e, he, rfl⟩ := map_eq_some_iff.mp hfound
    obtain ⟨e, -, rfl⟩ := mem_map.mp (mem_of_find?_eq_some he)
    exact e.2.isBad_clearStanding
  · rw [map_eq_none_iff, find?_eq_none] at hnone
    have hmem := AssocMap.get?_eq_some_iff.mp hs
    simpa using hnone _ (mem_map_of_mem hmem)

theorem list_foldl_unban (ips : List IpAddr) (black : BlackList) :
    (ips.foldl .unban black).list = ips.foldl .erase black.list :=
  (foldl_hom BlackList.list fun _ _ => rfl).symm

section
variable [IterOrder]

theorem blackList_handleDial {address : Multiaddr} {ip : IpAddr} (hip : address.ip? = some ip)
    (actor : NetworkActor) : (actor.handleDial address).blackList = actor.blackList.unban ip := by
  have hdisconnect : ∀ a : NetworkActor,
      a.disconnectFromLongestLivedPeer.blackList = a.blackList := by
    intro a
    rw [disconnectFromLongestLivedPeer]
    cases a.longestLivedPeer <;> rfl
  simp only [handleDial, hip, dial]
  split_ifs <;> simp [call, hdisconnect]

/-- **When a ban is lifted.**  A dial leaves the standing as it is. -/
theorem handleLift_lifts_iff (actor : NetworkActor) (standings : PeerStandings)
    {address : Multiaddr} {ip : IpAddr} (hip : address.ip? = some ip) (request : LiftRequest) :
    ((handleLift actor standings address request).1.blackList.list.get? ip = none ∧
        ∀ s ∈ (handleLift actor standings address request).2.get? ip, s.isBad = false) ↔
      (request = .dial → ∀ s ∈ standings.get? ip, s.isBad = false) := by
  cases request with
  | unban =>
    simp only [handleLift, hip, handleCommand, BlackList.unban, AssocMap.get?_erase]
    rw [PeerStandings.clearIpStanding]
    cases h : standings.get? ip with
    | none => simp [h]
    | some s => simp [AssocMap.get?_insert, s.isBad_clearStanding]
  | unbanAll =>
    refine iff_of_true ⟨?_, fun s hs => isBad_of_clearAllStandings hs⟩ (by simp)
    simp only [handleLift, handleCommand, handleUnbanAll, list_foldl_unban, get?_foldl_erase]
    split_ifs with hkey
    · rfl
    · simpa [AssocMap.mem_keys] using hkey
  | dial =>
    simp [handleLift, handleCommand, blackList_handleDial hip, BlackList.unban, AssocMap.get?_erase]

end

def badStandings : PeerStandings :=
  AssocMap.empty.insert (.v4 ⟨8, 8, 8, 8⟩) ⟨-1000, 1000, by decide⟩

/-- An actor that has banned the address. -/
def banning : NetworkActor :=
  { Bounced.actor with blackList := Bounced.actor.blackList.ban (.v4 ⟨8, 8, 8, 8⟩) 5 }

/-- The ban is lifted, but the standing stays bad. -/
theorem dial_keeps_standing : let ip : IpAddr := .v4 ⟨8, 8, 8, 8⟩
    Bounced.aliceAddress.ip? = some ip ∧
      ((@handleLift .asKept banning badStandings Bounced.aliceAddress .dial).2.get? ip).any
        (·.isBad) = true := by
  decide +kernel

/-- An address that is banned, with a bad standing. -/
theorem unban_lifts : let s := @handleLift .asKept banning badStandings Bounced.aliceAddress .unban
    banning.blackList.list.get? (.v4 ⟨8, 8, 8, 8⟩) = some 5 ∧
      s.1.blackList.list.get? (.v4 ⟨8, 8, 8, 8⟩) = none ∧
      ∀ standing ∈ s.2.get? (.v4 ⟨8, 8, 8, 8⟩), standing.isBad = false :=
  ⟨by decide +kernel, (@handleLift_lifts_iff .asKept banning badStandings _ _ (by decide)
    .unban).mpr fun h => absurd h (by decide)⟩

/-! ## Dialling -/

section
/-- The swarm is asked to dial an address between two states. -/
def Dials (before after : NetworkActor) (address : Multiaddr) : Prop :=
  .dial address ∈ after.calls.drop before.calls.length

theorem calls_dialAll (actor : NetworkActor) (addresses : List Multiaddr) :
    (actor.dialAll addresses).calls = actor.calls ++ (addresses.filter (!isLocal ·)).map .dial := by
  induction addresses generalizing actor with
  | nil => simp [dialAll]
  | cons address addresses ih =>
    have hcons : actor.dialAll (address :: addresses) = (actor.dial address).dialAll addresses :=
      rfl
    rw [hcons, ih, dial]
    cases h : isLocal address <;> simp [call, h]

variable [IterOrder]

theorem calls_disconnect (n : ℕ) (actor : NetworkActor) :
    ∃ peers : List PeerId, (disconnectFromLongestLivedPeer^[n] actor).calls =
      actor.calls ++ peers.map .disconnectPeerId := by
  induction n generalizing actor with
  | zero => exact ⟨[], by simp⟩
  | succ n ih =>
    obtain ⟨peers, hpeers⟩ := ih actor.disconnectFromLongestLivedPeer
    rw [Function.iterate_succ_apply, hpeers, disconnectFromLongestLivedPeer]
    cases actor.longestLivedPeer with
    | none => exact ⟨peers, rfl⟩
    | some peer => exact ⟨peer :: peers, by simp [call]⟩

theorem dials_dialAll_iff {actor actor' : NetworkActor} (hcalls : actor'.calls = actor.calls)
    (n : ℕ) {addresses : List Multiaddr} {address : Multiaddr} (haddress : address ∈ addresses) :
    Dials actor ((disconnectFromLongestLivedPeer^[n] actor').dialAll addresses) address ↔
      isLocal address = false := by
  obtain ⟨peers, hpeers⟩ := calls_disconnect n actor'
  rw [Dials, calls_dialAll, hpeers, hcalls, append_assoc, drop_left]
  simp [haddress]

/-- **When requested dials reach the network.**  The printed address must contain none of the texts
that stand for the node itself. -/
theorem dial_reaches_swarm_iff (address : Multiaddr) :
    ((∀ actor : NetworkActor, Dials actor (actor.handleCommand (.dial address)).1 address) ∧
        ∀ (actor : NetworkActor) now clock sticky, actor.stickyPeers.get? address = some sticky →
          actor.isMissing now sticky = true →
          ∃ actor', actor.checkStickyPeers now clock = some actor' ∧ Dials actor actor' address) ↔
      isLocal address = false := by
  have hcommand : ∀ actor : NetworkActor,
      Dials actor (actor.handleCommand (.dial address)).1 address ↔ isLocal address = false := by
    intro actor
    have hcalls : (match address.ip? with
        | some ip => { actor with blackList := actor.blackList.unban ip }
        | none => actor : NetworkActor).calls = actor.calls := by
      cases address.ip? <;> rfl
    simp only [handleCommand, handleDial]
    split_ifs
    · exact dials_dialAll_iff hcalls 1 (mem_singleton_self address)
    · exact dials_dialAll_iff hcalls 0 (mem_singleton_self address)
  refine ⟨fun h => (hcommand Bounced.actor).mp (h.1 _), fun h =>
    ⟨fun actor => (hcommand actor).mpr h, fun actor now clock sticky hget hmissing => ?_⟩⟩
  set dials := ((IterOrder.iter actor.stickyPeers.entries).filter
    fun e => actor.isMissing now e.2).map (·.1) with hdials
  have hmem : address ∈ dials := mem_map.mpr ⟨(address, sticky), by
    simpa [hmissing] using AssocMap.get?_eq_some_iff.mp hget, rfl⟩
  -- the sticky peers are not empty, so no peers are taken from the address book
  have hkey : address ∈ (dials.foldl (fun peers a => peers.insert a (.dialing now))
      actor.stickyPeers).keys :=
    foldlRecOn dials _ (motive := fun m : AssocMap Multiaddr StickyPeer => address ∈ m.keys)
      (AssocMap.mem_keys.mpr (by simp [hget]))
      fun _ hm _ _ => AssocMap.mem_keys_insert.mpr (.inr hm)
  have hempty := isEmpty_eq_false_iff_exists_mem.mpr ⟨_, hkey⟩
  rw [AssocMap.keys, isEmpty_map] at hempty
  simp only [checkStickyPeers, ← hdials, hempty, Bool.false_and, Bool.false_eq_true, if_false,
    bind_eq_bind, bind_some, append_nil, some_inj, exists_eq_left']
  exact (dials_dialAll_iff (by rfl) _ hmem).mpr h

end

/-- `2a00:1450::1` is not a loopback address, and is not dialled. -/
theorem dial_drops_routable : let ip : Ipv6Addr := ⟨[0x2a00, 0x1450, 0, 0, 0, 0, 0, 1].get⟩
    ip.isLoopback = false ∧
      (@handleCommand .asKept Bounced.actor (.dial [.ip6 ip, .tcp 9798])).1.calls.isEmpty := by
  decide +kernel

end NyksNode.P2p
