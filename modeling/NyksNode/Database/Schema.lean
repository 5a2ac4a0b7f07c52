import NyksNode.Crypto.Mmr
import NyksNode.Lib.WriteLog

/-!
# The database of a schema

Tables share one database and one queue of pending writes.  Persisting replays the queue
on the database and counts up; each table compares that count with its own to find out
that what it has cached reached the database.

How a value is serialized is not part of the repository; `Serde` states that a value can be
read back.
-/

namespace NyksNode

/-- Serialization with `bincode`. -/
class Serde (T : Type) where
  serialize : T → List UInt8
  /-- `None` is a panic. -/
  deserialize : List UInt8 → Option T
  deserialize_serialize (t : T) : deserialize (serialize t) = some t

theorem Serde.serialize_injective {T : Type} [Serde T] :
    Function.Injective (serialize : T → List UInt8) := by
  intro t u htu
  have ht := deserialize_serialize t
  rw [htu, deserialize_serialize] at ht
  exact (Option.some_inj.mp ht).symm

/-- A word as eight bytes, lowest first. -/
@[reducible] def Serde.fixedInt : Serde UInt64 where
  serialize n := (List.range 8).map fun j => UInt8.ofNat (n.toNat / 256 ^ j)
  deserialize bytes :=
    if bytes.length = 8 then
      some (UInt64.ofNat (bytes.foldr (fun byte n => byte.toNat + 256 * n) 0))
    else none
  deserialize_serialize n := by
    have hn := n.toNat_lt
    have hsum : ((List.range 8).map fun j => UInt8.ofNat (n.toNat / 256 ^ j)).foldr
        (fun byte n => byte.toNat + 256 * n) 0 = n.toNat := by
      simp [List.range, List.range.loop]
      omega
    rw [if_pos (by simp), hsum, UInt64.ofNat_toNat]

abbrev RustyKey := List UInt8

structure RustyValue where
  bytes : List UInt8
  deriving DecidableEq, Repr

namespace RustyValue
variable {T : Type} [Serde T]

def fromAny (value : T) : RustyValue := ⟨Serde.serialize value⟩

def intoAny (value : RustyValue) : Option T := Serde.deserialize value.bytes

@[simp] theorem intoAny_fromAny (value : T) : (fromAny value).intoAny = some value :=
  Serde.deserialize_serialize value

end RustyValue

/-! ## Keys -/

def toBeBytes (n : ℕ) : List UInt8 := (List.range 8).map fun j => UInt8.ofNat (n / 256 ^ (7 - j))

theorem toBeBytes_injective {m n : ℕ} (hm : m < u64Bound) (hn : n < u64Bound)
    (hmn : toBeBytes m = toBeBytes n) : m = n := by
  have hbyte : ∀ j < 8, m / 256 ^ (7 - j) % 256 = n / 256 ^ (7 - j) % 256 := by
    intro j hj
    have hget := congrArg (fun l => (l[j]?).map UInt8.toNat) hmn
    simpa [toBeBytes, hj] using hget
  -- byte by byte from the highest on
  have hdiv : ∀ k ≤ 8, m / 256 ^ (8 - k) = n / 256 ^ (8 - k) := by
    intro k
    induction k with
    | zero =>
      intro _
      have hbound : u64Bound = 256 ^ 8 := by decide
      rw [hbound] at hm hn
      rw [Nat.sub_zero, Nat.div_eq_of_lt hm, Nat.div_eq_of_lt hn]
    | succ k ih =>
      intro hk
      have hhigh := ih (by omega)
      have hlow := hbyte k (by omega)
      rw [show 8 - k = 7 - k + 1 by omega, pow_succ, ← Nat.div_div_eq_div_mul,
        ← Nat.div_div_eq_div_mul] at hhigh
      rw [show 8 - (k + 1) = 7 - k by omega]
      omega
  simpa using hdiv 8 le_rfl

def lengthKey (keyPrefix : UInt8) : RustyKey := [keyPrefix] ++ [0]

def indexKey (keyPrefix : UInt8) (index : ℕ) : RustyKey := [keyPrefix] ++ toBeBytes index

theorem indexKey_ne_lengthKey (keyPrefix : UInt8) (index : ℕ) :
    indexKey keyPrefix index ≠ lengthKey keyPrefix := by
  intro h
  have hlen := congrArg List.length h
  simp [indexKey, lengthKey, toBeBytes] at hlen

theorem indexKey_injective {keyPrefix : UInt8} {i j : ℕ} (hi : i < u64Bound) (hj : j < u64Bound)
    (hij : indexKey keyPrefix i = indexKey keyPrefix j) : i = j :=
  toBeBytes_injective hi hj (List.append_cancel_left hij)

/-! ## Storage -/

abbrev Db := RustyKey → Option RustyValue

abbrev DbWrite := WriteOperation RustyKey RustyValue

structure PendingWrites where
  /-- Newest at the end. -/
  writeOps : List DbWrite
  /-- How often writes were persisted. -/
  persistCount : ℕ

/-- `SimpleRustyStorage`, with the queue that its schema shares with all tables. -/
structure SimpleRustyStorage where
  db : Db
  pendingWrites : PendingWrites

namespace SimpleRustyStorage

def new (db : Db) : SimpleRustyStorage := ⟨db, [], 0⟩

def persist (s : SimpleRustyStorage) : SimpleRustyStorage :=
  ⟨replay s.db s.pendingWrites.writeOps, [], s.pendingWrites.persistCount + 1⟩

def dropUnpersisted (s : SimpleRustyStorage) : SimpleRustyStorage :=
  ⟨s.db, [], s.pendingWrites.persistCount⟩

def enqueue (s : SimpleRustyStorage) (ops : List DbWrite) : SimpleRustyStorage :=
  ⟨s.db, s.pendingWrites.writeOps ++ ops, s.pendingWrites.persistCount⟩

/-- The database as it will be. -/
def view (s : SimpleRustyStorage) : Db := replay s.db s.pendingWrites.writeOps

section
variable (s : SimpleRustyStorage)
include s

@[simp] theorem db_enqueue (ops : List DbWrite) : (s.enqueue ops).db = s.db := rfl

@[simp] theorem persistCount_enqueue (ops : List DbWrite) :
    (s.enqueue ops).pendingWrites.persistCount = s.pendingWrites.persistCount := rfl

@[simp] theorem view_enqueue (ops : List DbWrite) :
    (s.enqueue ops).view = replay s.view ops := replay_append _ _ _

@[simp] theorem db_persist : s.persist.db = s.view := rfl

@[simp] theorem view_persist : s.persist.view = s.view := rfl

@[simp] theorem view_dropUnpersisted : s.dropUnpersisted.view = s.db := rfl

end

@[simp] theorem view_new (db : Db) : (new db).view = db := rfl

/-- What a table with this prefix leaves alone: the database, the count, and the pending writes
of other tables. -/
structure Touches (keyPrefix : UInt8) (s s' : SimpleRustyStorage) : Prop where
  db_eq : s'.db = s.db
  persistCount_eq : s'.pendingWrites.persistCount = s.pendingWrites.persistCount
  view_eq : ∀ key : RustyKey, key.head? ≠ some keyPrefix → s'.view key = s.view key

namespace Touches
variable {keyPrefix : UInt8} {s s' s'' : SimpleRustyStorage}

theorem refl (keyPrefix : UInt8) (s : SimpleRustyStorage) : Touches keyPrefix s s :=
  ⟨rfl, rfl, fun _ _ => rfl⟩

theorem trans (h : Touches keyPrefix s s') (h' : Touches keyPrefix s' s'') :
    Touches keyPrefix s s'' :=
  ⟨h'.db_eq.trans h.db_eq, h'.persistCount_eq.trans h.persistCount_eq, fun key hkey =>
    (h'.view_eq key hkey).trans (h.view_eq key hkey)⟩

theorem enqueue (s : SimpleRustyStorage) {ops : List DbWrite}
    (hops : ∀ op ∈ ops, op.key.head? = some keyPrefix) : Touches keyPrefix s (s.enqueue ops) := by
  refine ⟨rfl, rfl, ?_⟩
  intro key hkey
  rw [view_enqueue]
  apply replay_of_ne
  intro op hop heq
  exact hkey (heq ▸ hops op hop)

end Touches

end SimpleRustyStorage

end NyksNode
