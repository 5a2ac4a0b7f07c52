import Mathlib.Algebra.Order.Ring.Nat
import Mathlib.Data.Fintype.Pi
import NyksNode.Lib.AssocMap

/-!
# Addresses of peers

A multiaddress is a list of protocols, read from the outside in.  The first IP address in it, if
there is one, is where packets go; a `p2p-circuit` in it says that they are relayed from there.
-/

namespace NyksNode.P2p

structure PeerId where
  base58 : String
  deriving DecidableEq, Repr

abbrev SystemTime := ℕ

/-! ## IP addresses -/

structure Ipv4Addr where
  a : UInt8
  b : UInt8
  c : UInt8
  d : UInt8
  deriving DecidableEq, Repr

namespace Ipv4Addr

def isLoopback (ip : Ipv4Addr) : Bool := ip.a == 127

def isPrivate (ip : Ipv4Addr) : Bool :=
  ip.a == 10 || (ip.a == 172 && 16 ≤ ip.b && ip.b ≤ 31) || (ip.a == 192 && ip.b == 168)

def isLinkLocal (ip : Ipv4Addr) : Bool := ip.a == 169 && ip.b == 254

def isUnspecified (ip : Ipv4Addr) : Bool := ip == ⟨0, 0, 0, 0⟩

def localhost : Ipv4Addr := ⟨127, 0, 0, 1⟩

def toText (ip : Ipv4Addr) : String :=
  ".".intercalate ([ip.a, ip.b, ip.c, ip.d].map fun octet => toString octet.toNat)

end Ipv4Addr

/-- An IPv6 address by its eight segments. -/
structure Ipv6Addr where
  segments : Fin 8 → UInt16
  deriving DecidableEq

instance (priority := 1100) neZeroEight : NeZero 8 := ⟨by decide⟩

namespace Ipv6Addr

def isLoopback (ip : Ipv6Addr) : Bool := ip.segments == fun i => if i = 7 then 1 else 0

def isUnspecified (ip : Ipv6Addr) : Bool := ip.segments == fun _ => 0

def isUnicastLinkLocal (ip : Ipv6Addr) : Bool := ip.segments 0 &&& 0xffc0 == 0xfe80

def isUniqueLocal (ip : Ipv6Addr) : Bool := ip.segments 0 &&& 0xfe00 == 0xfc00

def toIpv4Mapped (ip : Ipv6Addr) : Option Ipv4Addr :=
  if (List.ofFn ip.segments).take 6 = [0, 0, 0, 0, 0, 0xffff] then
    some ⟨(ip.segments 6 >>> 8).toUInt8, (ip.segments 6).toUInt8, (ip.segments 7 >>> 8).toUInt8,
      (ip.segments 7).toUInt8⟩
  else none

def zeroRun : List UInt16 → ℕ
  | [] => 0
  | s :: rest => if s = 0 then zeroRun rest + 1 else 0

/-- The start and the length of the longest run of zeros, the first one of several. -/
def longestRun (segments : List UInt16) : ℕ × ℕ :=
  (List.range segments.length).foldl (fun best i =>
    let len := zeroRun (segments.drop i)
    if best.2 < len then (i, len) else best) (0, 0)

/-- Segments in hexadecimal, with colons in between. -/
def fmtSubslice (segments : List UInt16) : String :=
  ":".intercalate (segments.map fun s => String.ofList (Nat.toDigits 16 s.toNat))

def toText (ip : Ipv6Addr) : String :=
  match ip.toIpv4Mapped with
  | some ipv4 => "::ffff:" ++ ipv4.toText
  | none =>
    let segments := List.ofFn ip.segments
    let (start, len) := longestRun segments
    if 1 < len then
      fmtSubslice (segments.take start) ++ "::" ++ fmtSubslice (segments.drop (start + len))
    else fmtSubslice segments

end Ipv6Addr

inductive IpAddr where
  | v4 (ip : Ipv4Addr)
  | v6 (ip : Ipv6Addr)
  deriving DecidableEq

/-! ## Multiaddresses -/

/-- The protocols that the node tells apart; any other one is kept by its printed form. -/
inductive Protocol where
  | ip4 (ip : Ipv4Addr)
  | ip6 (ip : Ipv6Addr)
  | tcp (port : UInt16)
  | udp (port : UInt16)
  | quicV1
  | p2p (peer : PeerId)
  | p2pCircuit
  | other (text : String)
  deriving DecidableEq

namespace Protocol

def toText : Protocol → String
  | .ip4 ip => "/ip4/" ++ ip.toText
  | .ip6 ip => "/ip6/" ++ ip.toText
  | .tcp port => "/tcp/" ++ toString port.toNat
  | .udp port => "/udp/" ++ toString port.toNat
  | .quicV1 => "/quic-v1"
  | .p2p peer => "/p2p/" ++ peer.base58
  | .p2pCircuit => "/p2p-circuit"
  | .other text => text

/-- The IP address that a protocol names, if it names one. -/
def ip? : Protocol → Option IpAddr
  | .ip4 ip => some (.v4 ip)
  | .ip6 ip => some (.v6 ip)
  | _ => none

/-- An address that every node can reach, as `handle_identify_event` sees it. -/
def isGlobal : Protocol → Bool
  | .ip4 ip => !ip.isLinkLocal && !ip.isLoopback && !ip.isPrivate && !ip.isUnspecified
  | .ip6 ip =>
    !ip.isLoopback && !ip.isUnspecified && !ip.isUnicastLinkLocal && !ip.isUniqueLocal
  | _ => false

/-- A protocol that the address book takes in a listen address.  Unlike `isGlobal`, it takes
unique local addresses. -/
def isListed : Protocol → Bool
  | .ip4 ip => !ip.isLinkLocal && !ip.isLoopback && !ip.isPrivate && !ip.isUnspecified
  | .ip6 ip => !ip.isLoopback && !ip.isUnicastLinkLocal && !ip.isUnspecified
  | .p2pCircuit => false
  | _ => true

end Protocol

abbrev Multiaddr := List Protocol

namespace Multiaddr

def ip? (address : Multiaddr) : Option IpAddr := address.findSome? Protocol.ip?

def isCircuit (address : Multiaddr) : Bool := address.any (· == .p2pCircuit)

def isGlobal (address : Multiaddr) : Bool := address.any Protocol.isGlobal

def toText (address : Multiaddr) : String := String.join (address.map Protocol.toText)

/-- `with_p2p`, where an address that names another peer already is left as it is. -/
def withP2p (address : Multiaddr) (peer : PeerId) : Multiaddr :=
  match address.getLast? with
  | some (.p2p _) => address
  | _ => address ++ [.p2p peer]

end Multiaddr

/-! ## The black list -/

structure BlackList where
  list : AssocMap IpAddr SystemTime
  ephemeralBans : List IpAddr

namespace BlackList

def ban (black : BlackList) (ip : IpAddr) (now : SystemTime) : BlackList :=
  { black with list := black.list.insert ip now }

/-- `unban`, and the removal that a manual dial makes. -/
def unban (black : BlackList) (ip : IpAddr) : BlackList :=
  { black with list := black.list.erase ip }

def isBanned (black : BlackList) (ip : IpAddr) : Bool :=
  (black.list.get? ip).isSome || black.ephemeralBans.contains ip

theorem mem_keys_foldl_ban {ips : List IpAddr} {black : BlackList} {now : SystemTime} {ip : IpAddr}
    (hip : ip ∈ ips) : ip ∈ (ips.foldl (fun black ip => black.ban ip now) black).list.keys := by
  have hkept : ∀ (ips : List IpAddr) (black : BlackList), ip ∈ black.list.keys →
      ip ∈ (ips.foldl (fun black ip => black.ban ip now) black).list.keys := by
    intro ips
    induction ips with
    | nil => exact fun _ h => h
    | cons ip' ips ih => exact fun black h => ih _ (AssocMap.mem_keys_insert.mpr (.inr h))
  induction ips generalizing black with
  | nil => simp at hip
  | cons ip' ips ih =>
    rw [List.foldl_cons]
    cases List.mem_cons.mp hip with
    | inl heq => exact hkept ips _ (AssocMap.mem_keys_insert.mpr (.inl heq))
    | inr hmem => exact ih hmem

end BlackList

end NyksNode.P2p
