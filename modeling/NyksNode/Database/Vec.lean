import NyksNode.Database.Schema

/-!
# Vectors in the database

A `DbtVec` keeps its length and the elements that it has written since the last persist,
and reads everything else from the database.
-/

namespace NyksNode

/-- `DbtVecPrivate`.  A cache is a map from indices to values. -/
structure DbtVec (V : Type) where
  currentLength : Option ℕ
  keyPrefix : UInt8
  cache : ℕ → Option V
  persistCount : ℕ

namespace DbtVec
variable {V : Type} [Serde V] [Serde UInt64]

/-! ## Lengths -/

def lengthValue (length : ℕ) : RustyValue := .fromAny (UInt64.ofNat length)

def persistedLength (v : DbtVec V) (s : SimpleRustyStorage) : Option (Option ℕ) :=
  match s.db (lengthKey v.keyPrefix) with
  | none => some none
  | some value => (value.intoAny : Option UInt64).map fun l => some l.toNat

def len (v : DbtVec V) (s : SimpleRustyStorage) : Option ℕ :=
  match v.currentLength with
  | some l => some l
  | none => (v.persistedLength s).map fun l => l.getD 0

def isEmpty (v : DbtVec V) (s : SimpleRustyStorage) : Option Bool := (v.len s).map (· == 0)

/-! ## Reading -/

/-- An element of the database; a missing element is a panic. -/
def getPersisted (v : DbtVec V) (s : SimpleRustyStorage) (index : ℕ) : Option V := do
  let value ← s.db (indexKey v.keyPrefix index)
  value.intoAny

def get (v : DbtVec V) (s : SimpleRustyStorage) (index : ℕ) : Option V := do
  let length ← v.len s
  if length ≤ index then none
  else
    match v.cache index with
    | some value => some value
    | none => v.getPersisted s index

/-- `get_many`: elements are fetched with the position of their request, cached ones first, and
then sorted by position. -/
def getMany (v : DbtVec V) (s : SimpleRustyStorage) (indices : List ℕ) : Option (List V) :=
  match indices.max? with
  | none => some []
  | some maxIndex => do
    let length ← v.len s
    if length ≤ maxIndex then none
    else do
      let (inCache, notInCache) := indices.zipIdx.partition fun x => (v.cache x.1).isSome
      let fetched ← inCache.mapM fun x => (v.cache x.1).map fun value => (x.2, value)
      let fromDb ← notInCache.mapM fun x => (v.getPersisted s x.1).map fun value => (x.2, value)
      some (((fetched ++ fromDb).insertionSort fun a b => a.1 ≤ b.1).map (·.2))

/-- Fill in fetched elements. -/
def fill (fetch : ℕ → Option V) (elements : List (Option V)) (index : ℕ) :
    Option (List (Option V)) :=
  (fetch index).map fun value => elements.set index (some value)

def getAll (v : DbtVec V) (s : SimpleRustyStorage) : Option (List V) := do
  let length ← v.len s
  let (inCache, notInCache) := (List.range length).partition fun i => (v.cache i).isSome
  let elements := List.replicate length none
  let elements ← inCache.foldlM (fill v.cache) elements
  let elements ← notInCache.foldlM (fill (v.getPersisted s)) elements
  elements.mapM id

/-! ## Writing -/

def processPersistCount (v : DbtVec V) (pendingWritesPersistCount : ℕ) : DbtVec V :=
  { v with
    cache := if v.persistCount < pendingWritesPersistCount then fun _ => none else v.cache
    persistCount := pendingWritesPersistCount }

/-- Queue writes, and find out whether earlier ones were persisted. -/
def write (v : DbtVec V) (s : SimpleRustyStorage) (ops : List DbWrite) :
    SimpleRustyStorage × DbtVec V :=
  let s := s.enqueue ops
  (s, v.processPersistCount s.pendingWrites.persistCount)

def writeOpOverwrite (v : DbtVec V) (s : SimpleRustyStorage) (index : ℕ) (value : V) :
    SimpleRustyStorage × DbtVec V :=
  let (s, v) := v.write s [.write (indexKey v.keyPrefix index) (.fromAny value)]
  (s, { v with cache := Function.update v.cache index (some value) })

def set (v : DbtVec V) (s : SimpleRustyStorage) (index : ℕ) (value : V) :
    Option (SimpleRustyStorage × DbtVec V) := do
  let length ← v.len s
  if length ≤ index then none else some (v.writeOpOverwrite s index value)

def setMany (v : DbtVec V) (s : SimpleRustyStorage) (keyVals : List (ℕ × V)) :
    Option (SimpleRustyStorage × DbtVec V) := do
  let selfLen ← v.len s
  keyVals.foldlM (fun x kv =>
    if selfLen ≤ kv.1 then none else some (x.2.writeOpOverwrite x.1 kv.1 kv.2)) (s, v)

def pop (v : DbtVec V) (s : SimpleRustyStorage) :
    Option (Option V × SimpleRustyStorage × DbtVec V) := do
  if ← v.isEmpty s then some (none, s, v)
  else do
    -- `expect("there should be some value")`
    let currentLength ← v.currentLength
    let newLength := currentLength - 1
    let v := { v with currentLength := some newLength }
    let (s, v) := v.write s [.delete (indexKey v.keyPrefix newLength),
      .write (lengthKey v.keyPrefix) (lengthValue newLength)]
    match v.cache newLength with
    | some value => some (some value, s, { v with cache := Function.update v.cache newLength none })
    | none =>
      match s.db (indexKey v.keyPrefix newLength) with
      | none => some (none, s, v)
      | some value => (value.intoAny).map fun value => (some value, s, v)

/-- `push`.  A length that leaves its word is a panic. -/
def push (v : DbtVec V) (s : SimpleRustyStorage) (value : V) :
    Option (SimpleRustyStorage × DbtVec V) := do
  let currentLength ← v.len s
  let newLength := currentLength + 1
  if u64Bound ≤ newLength then none
  else
    let (s, v) := v.write s [.write (indexKey v.keyPrefix currentLength) (.fromAny value),
      .write (lengthKey v.keyPrefix) (lengthValue newLength)]
    some (s, { v with
      cache := Function.update v.cache currentLength (some value)
      currentLength := some newLength })

/-- The loop of `clear`.  The first argument bounds the number of rounds. -/
def clearLoop : ℕ → SimpleRustyStorage → DbtVec V → Option (SimpleRustyStorage × DbtVec V)
  | 0, _, _ => none
  | fuel + 1, s, v => do
    if ← v.isEmpty s then some (s, v)
    else do
      let (_, s, v) ← v.pop s
      clearLoop fuel s v

def clear (v : DbtVec V) (s : SimpleRustyStorage) : Option (SimpleRustyStorage × DbtVec V) := do
  let length ← v.len s
  clearLoop (length + 1) s v

/-! ## Opening and rolling back -/

def deleteCache (v : DbtVec V) (s : SimpleRustyStorage) : Option (DbtVec V) := do
  let length ← v.persistedLength s
  some { v with cache := fun _ => none, currentLength := length }

def new (s : SimpleRustyStorage) (keyPrefix : UInt8) : DbtVec V :=
  ⟨none, keyPrefix, fun _ => none, s.pendingWrites.persistCount⟩

def restoreOrNew (v : DbtVec V) (s : SimpleRustyStorage) : Option (DbtVec V) := do
  let length ← v.persistedLength s
  some { v with currentLength := some (length.getD 0) }

def newVec (s : SimpleRustyStorage) (keyPrefix : UInt8) : Option (DbtVec V) :=
  (new s keyPrefix).restoreOrNew s

end DbtVec

end NyksNode
