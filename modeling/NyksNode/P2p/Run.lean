import NyksNode.P2p.Actor

/-!
# How the network actor ends

The loop of the actor goes on until a handler reports an error.  The only handler that does is the
one for streams that the gateway has taken over: it looks up the address of the peer, and the
actor may have dropped the peer from its books since the stream was set up.
-/

namespace NyksNode.P2p

open Fallible List

namespace ActorInput

/-- The inputs upon which the loop is meant to end. -/
def Stops : ActorInput → Prop
  | .command (.shutdown _) => True
  | .commandChannelClosed => True
  | _ => False

instance : DecidablePred Stops
  | .command (.shutdown _) => .isTrue trivial
  | .commandChannelClosed => .isTrue trivial
  | .command (.dial _) | .command (.listen ..) | .command (.ban ..) | .command (.unban _)
  | .command .unbanAll | .command .probeNat | .command .resetRelayReservations
  | .command .getNetworkOverview | .swarmEvent _ | .checkRelayReservations ..
  | .refreshKademliaCrawl .. | .kademliaReportHealth | .checkStickyPeers .. => .isFalse id

/-- Before the gateway takes over a stream of a peer, a connection to the peer was reported. -/
def Announced (inputs : List ActorInput) : Prop :=
  ∀ before peer after,
    inputs = before ++ .swarmEvent (.streamGatewayHandshakeReceived peer) :: after →
      ∃ connection address now,
        .swarmEvent (.connectionEstablished peer connection address now) ∈ before

end ActorInput

namespace NetworkActor

/-- If the input is a stream that the gateway took over, the actor knows where its peer is. -/
def Tracked (actor : NetworkActor) : ActorInput → Prop
  | .swarmEvent (.streamGatewayHandshakeReceived peer) =>
    (actor.activeConnections.get? peer).isSome = true
  | _ => True

variable [IterOrder]

theorem handleStreamGatewayEvent_eq_error_iff {actor : NetworkActor} {peer : PeerId}
    {e : ActorError} : actor.handleStreamGatewayEvent peer = .error e ↔
      actor.activeConnections.get? peer = none ∧ e = .noAddressForPeer peer := by
  rw [handleStreamGatewayEvent]
  cases actor.activeConnections.get? peer with
  | none => simp [eq_comm]
  | some entry => simp

/-- Of all the handlers of swarm events, only one can report an error. -/
theorem handleSwarmEvent_reports_iff {actor : NetworkActor} {event : SwarmEvent} :
    (actor.handleSwarmEvent event).Reports ↔ ¬ actor.Tracked (.swarmEvent event) := by
  cases event with
  | streamGatewayHandshakeReceived peer =>
    have hrun : (actor.handleSwarmEvent (.streamGatewayHandshakeReceived peer)).run =
        some (actor.handleStreamGatewayEvent peer) := rfl
    rw [Fallible.Reports, hrun, Tracked]
    simp [handleStreamGatewayEvent_eq_error_iff]
  | identifyReceived peer info now choices =>
    exact iff_of_false not_reports_orPanic (not_not.mpr trivial)
  | _ => exact iff_of_false (not_reports_pure _) (not_not.mpr trivial)

/-- An input that is not meant to end the loop ends it exactly if it is a stream of a peer that is
not on the books. -/
theorem step_reports_iff {actor : NetworkActor} {input : ActorInput} (hinput : ¬ input.Stops) :
    (actor.step input).Reports ↔ ¬ actor.Tracked input := by
  cases input with
  | swarmEvent event =>
    rw [step, reports_adapt]
    exact handleSwarmEvent_reports_iff
  | command command =>
    refine iff_of_false ?_ (not_not.mpr trivial)
    cases command with
    | shutdown connectedPeers => exact absurd trivial hinput
    | listen address listener =>
      cases listener with
      | none => exact not_reports_pure _
      | some l => exact not_reports_pure _
    | _ => exact not_reports_pure _
  | commandChannelClosed => exact absurd trivial hinput
  | refreshKademliaCrawl now bootstrapped =>
    exact iff_of_false not_reports_orPanic (not_not.mpr trivial)
  | checkStickyPeers now clock =>
    exact iff_of_false not_reports_orPanic (not_not.mpr trivial)
  | _ => exact iff_of_false (not_reports_pure _) (not_not.mpr trivial)

/-- As long as nobody asks for it, the loop returns neither `Ok` nor `Err` exactly if each stream
that it gets to handle is of a peer on the books. -/
theorem run_not_reports_iff (actor : NetworkActor) (inputs : List ActorInput)
    (hinputs : ∀ input ∈ inputs, ¬ input.Stops) : ¬ (actor.run inputs).Reports ↔
      ∀ before input after, inputs = before ++ input :: after →
        ∀ actor', (actor.run before).Returns actor' → actor'.Tracked input := by
  rw [run, reports_foldlM_iff]
  constructor
  · intro h before input after heq actor' hrun
    by_contra htracked
    have hmem : input ∈ inputs := by simp [heq]
    exact h ⟨before, input, after, actor', heq, hrun,
      (step_reports_iff (hinputs input hmem)).mpr htracked⟩
  · intro h hreports
    obtain ⟨before, input, after, actor', heq, hrun, hstep⟩ := hreports
    have hmem : input ∈ inputs := by simp [heq]
    exact (step_reports_iff (hinputs input hmem)).mp hstep (h before input after heq actor' hrun)

end NetworkActor

/-! ## A peer at the capacity limit -/

namespace Bounced

local instance bouncedOrder : IterOrder := .asKept

def actor : NetworkActor :=
  .new
    { localPeerId := ⟨"local"⟩
      protocolVersion := "nyks"
      addressBook := ⟨.empty, .main⟩
      blackList := ⟨.empty, []⟩
      stickyPeers := []
      externalAddresses := []
      maxNumPeers := 1 }

def alice : PeerId := ⟨"alice"⟩

def bob : PeerId := ⟨"bob"⟩

def aliceAddress : Multiaddr := [.ip4 ⟨8, 8, 8, 8⟩, .tcp 9798]

def bobAddress : Multiaddr := [.ip4 ⟨9, 9, 9, 9⟩, .tcp 9798]

def first : List ActorInput :=
  [.swarmEvent (.connectionEstablished alice 1 aliceAddress 0),
    .swarmEvent (.streamGatewayHandshakeReceived alice)]

/-- The second peer is bounced, but its stream had been taken over by then. -/
def second : List ActorInput :=
  [.swarmEvent (.connectionEstablished alice 1 aliceAddress 0),
    .swarmEvent (.connectionEstablished bob 2 bobAddress 1),
    .swarmEvent (.streamGatewayHandshakeReceived bob)]

theorem not_stops_of_mem_first : ∀ input ∈ first, ¬ input.Stops := by decide

theorem not_stops_of_mem_second : ∀ input ∈ second, ¬ input.Stops := by decide

theorem isSome_activeConnections_alice :
    ((actor.handleConnectionEstablished alice 1 aliceAddress 0).activeConnections.get?
      alice).isSome = true := by
  decide +kernel

theorem first_goes_on : (∀ input ∈ first, ¬ input.Stops) ∧ ¬ (actor.run first).Reports := by
  refine ⟨not_stops_of_mem_first, ?_⟩
  refine (NetworkActor.run_not_reports_iff actor first not_stops_of_mem_first).mpr ?_
  intro before input after heq actor' hrun
  cases before with
  | nil =>
    obtain ⟨rfl, -⟩ := cons.inj heq
    trivial
  | cons event before =>
    obtain ⟨rfl, htail⟩ := cons.inj heq
    cases before with
    | nil =>
      obtain ⟨rfl, -⟩ := cons.inj htail
      obtain rfl : actor.handleConnectionEstablished alice 1 aliceAddress 0 = actor' :=
        returns_pure.mp hrun
      exact isSome_activeConnections_alice
    | cons event' before => simp at htail

/-- The stream of a peer that was bounced ends the loop, although a connection to that peer had
been reported. -/
theorem second_ends_loop : (∀ input ∈ second, ¬ input.Stops) ∧ ActorInput.Announced second ∧
      (actor.run second).run.any (fun r =>
        r matches .error (.error (.noAddressForPeer ⟨"bob"⟩))) = true := by
  refine ⟨not_stops_of_mem_second, ?_, by decide +kernel⟩
  intro before peer after heq
  match before, heq with
  | [_, _], heq =>
    simp only [second, cons_append, nil_append, cons.injEq,
      ActorInput.swarmEvent.injEq, SwarmEvent.streamGatewayHandshakeReceived.injEq] at heq
    obtain ⟨rfl, rfl, rfl, -⟩ := heq
    exact ⟨2, bobAddress, 1, by simp⟩
  | [], heq => simp [second] at heq
  | [_], heq => simp [second] at heq
  | _ :: _ :: _ :: _, heq => simp [second] at heq

end Bounced

end NyksNode.P2p
