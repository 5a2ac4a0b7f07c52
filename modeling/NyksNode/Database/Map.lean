import NyksNode.Database.Vec

/-!
# Maps in the database

A `DbtMap` stores each value under its key, and the keys, in the order in which they came, in
a `DbtVec`.  Both tables share the queue of pending writes; each has its own cache.
-/

namespace NyksNode

/-- `DbtMapPrivate`.  A cached `none` is a value that was deleted. -/
structure DbtMap (K V : Type) where
  prefixMapKey : UInt8
  cache : K → Option (Option V)
  /-- All keys, by order of insertion. -/
  keysByIndex : DbtVec K
  persistCount : ℕ

namespace DbtMap
variable {K V : Type} [Serde K] [Serde V] [Serde UInt64]

def mapKeyRustyKey (m : DbtMap K V) (key : K) : RustyKey :=
  [m.prefixMapKey] ++ Serde.serialize key

section
omit [Serde V] [Serde UInt64]

theorem head?_mapKeyRustyKey (m : DbtMap K V) (key : K) :
    (m.mapKeyRustyKey key).head? = some m.prefixMapKey := rfl

theorem mapKeyRustyKey_injective (m : DbtMap K V) : Function.Injective m.mapKeyRustyKey := by
  intro k k' hk
  exact Serde.serialize_injective (List.append_cancel_left hk)

end

def processPersistCount (m : DbtMap K V) (pendingWritesPersistCount : ℕ) : DbtMap K V :=
  { m with
    cache := if m.persistCount < pendingWritesPersistCount then fun _ => none else m.cache
    persistCount := pendingWritesPersistCount }

def containsKey (m : DbtMap K V) (s : SimpleRustyStorage) (key : K) : Bool :=
  match m.cache key with
  | some cacheEntry => cacheEntry.isSome
  | none => (s.db (m.mapKeyRustyKey key)).isSome

/-- The value of a key in the database. -/
def getPersisted (m : DbtMap K V) (s : SimpleRustyStorage) (key : K) : Option (Option V) :=
  match s.db (m.mapKeyRustyKey key) with
  | none => some none
  | some value => value.intoAny.map some

def get (m : DbtMap K V) (s : SimpleRustyStorage) (key : K) : Option (Option V) :=
  match m.cache key with
  | some value => some value
  | none => m.getPersisted s key

def len (m : DbtMap K V) (s : SimpleRustyStorage) : Option ℕ := m.keysByIndex.len s

def isEmpty (m : DbtMap K V) (s : SimpleRustyStorage) : Option Bool := (m.len s).map (· == 0)

def allKeys (m : DbtMap K V) (s : SimpleRustyStorage) : Option (List K) := m.keysByIndex.getAll s

/-- The key goes to the list of keys if it is new. -/
def pushKey (m : DbtMap K V) (s : SimpleRustyStorage) (key : K) (previousVal : Option V) :
    Option (SimpleRustyStorage × DbtVec K) :=
  if previousVal.isNone then m.keysByIndex.push s key else some (s, m.keysByIndex)

def new (s : SimpleRustyStorage) (prefixMapKeys prefixKeysByIndex : UInt8) : DbtMap K V :=
  ⟨prefixMapKeys, fun _ => none, .new s prefixKeysByIndex, s.pendingWrites.persistCount⟩

/-- `restore_or_new`: no preprocessing for this table type. -/
def restoreOrNew (m : DbtMap K V) : DbtMap K V := m

def newMap (s : SimpleRustyStorage) (tableCount : UInt8) : DbtMap K V :=
  (new s tableCount (tableCount + 1)).restoreOrNew

variable [DecidableEq K]

/-- `insert`, with the value that was there. -/
def insert (m : DbtMap K V) (s : SimpleRustyStorage) (key : K) (value : V) :
    Option (Option V × SimpleRustyStorage × DbtMap K V) := do
  let previousVal ← m.get s key
  let (s, keysByIndex) ← m.pushKey s key previousVal
  let s := s.enqueue [.write (m.mapKeyRustyKey key) (.fromAny value)]
  let m := { m with keysByIndex }
  let m := m.processPersistCount s.pendingWrites.persistCount
  some (previousVal, s, { m with cache := Function.update m.cache key (some (some value)) })

def clear (m : DbtMap K V) (s : SimpleRustyStorage) : Option (SimpleRustyStorage × DbtMap K V) := do
  let allKeys ← m.keysByIndex.getAll s
  let (s, keysByIndex) ← m.keysByIndex.clear s
  let s := s.enqueue ((allKeys.map m.mapKeyRustyKey).map .delete)
  let m := { m with keysByIndex }
  let m := m.processPersistCount s.pendingWrites.persistCount
  some (s, { m with
    cache := allKeys.foldl (fun cache key => Function.update cache key (some none)) m.cache })

end DbtMap

end NyksNode
