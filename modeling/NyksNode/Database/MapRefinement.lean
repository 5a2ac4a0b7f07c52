import NyksNode.Database.Map
import NyksNode.Database.VecRefinement
import NyksNode.Lib.AssocMap
import NyksNode.Lib.Simulation

/-!
# Maps in the database are maps

`DbtMap.Reflects` says how an insertion-ordered map, and the map as it was when the queue was
last persisted, are spread over the table of values and the vector of keys.

Opening a map does not load the length of its vector of keys; only inserting a new key does.
Emptying the vector needs the length, so `clear` panics on a map that was reopened with
entries and has not got a new key since.
-/

namespace NyksNode

open List Option SimpleRustyStorage AssocMap Function

variable {K V : Type} [Serde K] [Serde V] [Serde UInt64] [DecidableEq K]

/-! ## Handles -/

/-- The table with this prefix holds the values of a map, and nothing else. -/
def StoresValues (db : Db) (m : DbtMap K V) (entries : AssocMap K V) : Prop :=
  ∀ key, db (m.mapKeyRustyKey key) = (entries.get? key).map .fromAny

namespace DbtMap

/-- The handle and its storage stand for the map `cur`, and the database holds `per`. -/
structure Reflects (m : DbtMap K V) (s : SimpleRustyStorage) (cur per : AssocMap K V) : Prop where
  /-- The prefixes that `new_map` gives the two tables. -/
  keyPrefix_eq : m.keysByIndex.keyPrefix = m.prefixMapKey + 1
  keys : m.keysByIndex.Reflects s cur.keys per.keys
  persisted : StoresValues s.db m per
  current : StoresValues s.view m cur
  persistCount_le : m.persistCount ≤ s.pendingWrites.persistCount
  cached : ∀ key entry, m.cache key = some entry → cur.get? key = entry
  uncached : ∀ key, m.cache key = none → s.db (m.mapKeyRustyKey key) = (cur.get? key).map .fromAny
  fresh : m.persistCount < s.pendingWrites.persistCount → StoresValues s.db m cur

namespace Reflects
variable {m : DbtMap K V} {s : SimpleRustyStorage} {cur per : AssocMap K V}

theorem prefix_ne (h : m.Reflects s cur per) : m.prefixMapKey ≠ m.keysByIndex.keyPrefix := by
  intro heq
  rw [h.keyPrefix_eq] at heq
  have hnat := congrArg UInt8.toNat heq
  rw [UInt8.toNat_add] at hnat
  have hlt := m.prefixMapKey.toNat_lt
  simp only [UInt8.toNat_one] at hnat
  omega

/-! ### Reading -/

theorem get_eq (h : m.Reflects s cur per) (key : K) : m.get s key = some (cur.get? key) := by
  rw [get]
  cases hc : m.cache key with
  | some entry => rw [h.cached key entry hc]
  | none =>
    simp only [getPersisted, h.uncached key hc]
    cases cur.get? key with
    | none => rfl
    | some value => simp

theorem containsKey_eq (h : m.Reflects s cur per) (key : K) :
    m.containsKey s key = (cur.get? key).isSome := by
  rw [containsKey]
  cases hc : m.cache key with
  | some entry => rw [h.cached key entry hc]
  | none => simp [h.uncached key hc]

theorem isEmpty_eq (h : m.Reflects s cur per) : m.isEmpty s = some cur.keys.isEmpty := by
  rw [isEmpty, len, h.keys.len_eq, map_some]
  cases cur.keys <;> rfl

/-! ### Writing -/

section
variable (h : m.Reflects s cur per)
include h

theorem processPersistCount_cached {n : ℕ} {key : K} {entry : Option V}
    (hc : (m.processPersistCount n).cache key = some entry) : cur.get? key = entry := by
  rw [processPersistCount] at hc
  by_cases hn : m.persistCount < n
  · simp [hn] at hc
  · rw [if_neg hn] at hc
    exact h.cached key entry hc

theorem processPersistCount_uncached {key : K}
    (hc : (m.processPersistCount s.pendingWrites.persistCount).cache key = none) :
    s.db (m.mapKeyRustyKey key) = (cur.get? key).map .fromAny := by
  rw [processPersistCount] at hc
  by_cases hn : m.persistCount < s.pendingWrites.persistCount
  · exact h.fresh hn key
  · rw [if_neg hn] at hc
    exact h.uncached key hc

theorem view_of_writes {keys : DbtVec K} {s' : SimpleRustyStorage}
    (hkeys : m.keysByIndex.Writes s keys s') : StoresValues s'.view m cur := by
  intro key
  rw [hkeys.touches.view_eq _ (by simp [head?_mapKeyRustyKey, h.prefix_ne])]
  exact h.current key

/-- After writes to the vector of keys and to the values, what is left to show is what the map is
and what is cached. -/
theorem of_write {keys : DbtVec K} {s' : SimpleRustyStorage}
    {ops : List DbWrite} {cur' : AssocMap K V} {cache : K → Option (Option V)}
    (hwrites : m.keysByIndex.Writes s keys s') (hkeys : keys.Reflects s' cur'.keys per.keys)
    (hops : ∀ op ∈ ops, op.key.head? = some m.prefixMapKey)
    (hview : StoresValues (replay s'.view ops) m cur')
    (hcached : ∀ key entry, cache key = some entry → cur'.get? key = entry)
    (huncached : ∀ key, cache key = none →
      s.db (m.mapKeyRustyKey key) = (cur'.get? key).map .fromAny) :
    DbtMap.Reflects ⟨m.prefixMapKey, cache, keys, s.pendingWrites.persistCount⟩ (s'.enqueue ops)
      cur' per where
  keyPrefix_eq := hwrites.keyPrefix_eq.trans h.keyPrefix_eq
  keys := by
    apply hkeys.enqueue_of_ne
    intro op hop
    rw [hops op hop, hwrites.keyPrefix_eq]
    exact fun heq => h.prefix_ne (some_inj.mp heq)
  persisted := by
    rw [db_enqueue, hwrites.touches.db_eq]
    exact h.persisted
  current := by
    rw [view_enqueue]
    exact hview
  persistCount_le := hwrites.touches.persistCount_eq.ge
  cached := hcached
  uncached key hc := by
    rw [db_enqueue, hwrites.touches.db_eq]
    exact huncached key hc
  fresh hlt := by
    rw [persistCount_enqueue, hwrites.touches.persistCount_eq] at hlt
    exact absurd hlt (lt_irrefl _)

theorem pushKey_eq_some {key : K}
    (hlt : cur.get? key = none → cur.keys.length + 1 < u64Bound) (value : V) :
    ∃ s' keys, m.pushKey s key (cur.get? key) = some (s', keys) ∧
      keys.Reflects s' (cur.put key value).keys per.keys ∧ m.keysByIndex.Writes s keys s' := by
  rw [pushKey, keys_put]
  cases hget : cur.get? key with
  | none =>
    obtain ⟨s', keys, hpush, hreflects, hwrites, -⟩ := h.keys.push_eq_some (hlt hget) key
    have hnew : key ∉ cur.keys := by simp [AssocMap.mem_keys, hget]
    rw [if_neg hnew]
    exact ⟨s', keys, hpush, hreflects, hwrites⟩
  | some old =>
    have hold : key ∈ cur.keys := by simp [AssocMap.mem_keys, hget]
    rw [if_pos hold]
    exact ⟨s, m.keysByIndex, rfl, h.keys, .refl _ _⟩

theorem insert_eq_some {key : K}
    (hlt : cur.get? key = none → cur.keys.length + 1 < u64Bound) (value : V) :
    ∃ s' m', m.insert s key value = some (cur.get? key, s', m') ∧
      m'.Reflects s' (cur.put key value) per := by
  obtain ⟨s', keys, hpush, hkeys, hwrites⟩ := h.pushKey_eq_some hlt value
  set ops : List DbWrite := [.write (m.mapKeyRustyKey key) (.fromAny value)] with hops
  set cache := update (m.processPersistCount s.pendingWrites.persistCount).cache key
    (some (some value)) with hcache
  refine ⟨s'.enqueue ops, ⟨m.prefixMapKey, cache, keys, s.pendingWrites.persistCount⟩, ?_,
    h.of_write hwrites hkeys (by simp [hops, WriteOperation.key, head?_mapKeyRustyKey]) ?_ ?_ ?_⟩
  · rw [insert, h.get_eq]
    simp only [some_bind, hpush, hcache, persistCount_enqueue, hwrites.touches.persistCount_eq]
    rfl
  · intro key'
    rw [get?_put, hops, replay_cons, replay_nil, WriteOperation.apply]
    by_cases hk : key' = key
    · rw [hk, update_self, if_pos rfl]
      rfl
    · rw [update_of_ne (m.mapKeyRustyKey_injective.ne hk), if_neg hk]
      exact h.view_of_writes hwrites key'
  · intro key' entry hc
    rw [get?_put]
    by_cases hk : key' = key
    · rw [hcache, hk, update_self, some_inj] at hc
      rw [if_pos hk, hc]
    · rw [hcache, update_of_ne hk] at hc
      rw [if_neg hk]
      exact h.processPersistCount_cached hc
  · intro key' hc
    rw [get?_put]
    by_cases hk : key' = key
    · rw [hcache, hk, update_self] at hc
      cases hc
    · rw [hcache, update_of_ne hk] at hc
      rw [if_neg hk]
      exact h.processPersistCount_uncached hc

theorem insert_eq_none {key : K} (hnew : cur.get? key = none)
    (hlt : ¬ cur.keys.length + 1 < u64Bound) (value : V) : m.insert s key value = none := by
  rw [insert, h.get_eq, hnew]
  simp [pushKey, h.keys.push_eq_none hlt]

end

section
omit [Serde K] [Serde V] [Serde UInt64]

theorem foldl_mark (keys : List K) (cache : K → Option (Option V)) (key : K) :
    keys.foldl (fun cache key => Function.update cache key (some none)) cache key =
      if key ∈ keys then some none else cache key := by
  induction keys generalizing cache with
  | nil => rfl
  | cons k keys ih =>
    rw [foldl_cons, ih]
    by_cases hk : key = k
    · simp [hk]
    · simp [hk, update_of_ne]

theorem get?_eq_none_of_not_mem {key : K} (hkey : key ∉ cur.keys) : cur.get? key = none := by
  simpa [AssocMap.mem_keys] using hkey

end

theorem clear_eq_some (h : m.Reflects s cur per)
    (hloaded : m.keysByIndex.currentLength = none → cur.keys = []) :
    ∃ s' m', m.clear s = some (s', m') ∧ m'.Reflects s' .empty per := by
  obtain ⟨s', keys, hclear, hkeys, hwrites⟩ := h.keys.clear_eq_some hloaded
  set ops : List DbWrite := (cur.keys.map m.mapKeyRustyKey).map .delete with hops
  set cache := cur.keys.foldl (fun cache key => update cache key (some none))
    (m.processPersistCount s.pendingWrites.persistCount).cache with hcache
  refine ⟨s'.enqueue ops, ⟨m.prefixMapKey, cache, keys, s.pendingWrites.persistCount⟩, ?_,
    h.of_write hwrites hkeys ?_ ?_ ?_ ?_⟩
  · rw [clear, h.keys.getAll_eq]
    simp only [some_bind, hclear, hcache, persistCount_enqueue, hwrites.touches.persistCount_eq]
    rfl
  · simp [hops, WriteOperation.key, head?_mapKeyRustyKey]
  · intro key
    have hmem := mem_map_of_injective m.mapKeyRustyKey_injective (a := key) (l := cur.keys)
    rw [hops, replay_map_delete, get?_empty]
    by_cases hk : key ∈ cur.keys
    · rw [if_pos (hmem.mpr hk)]
      rfl
    · rw [if_neg (hmem.not.mpr hk), h.view_of_writes hwrites key, get?_eq_none_of_not_mem hk]
  · intro key entry hc
    rw [hcache, foldl_mark] at hc
    by_cases hk : key ∈ cur.keys
    · rw [if_pos hk, some_inj] at hc
      exact hc
    · rw [if_neg hk] at hc
      rw [← h.processPersistCount_cached hc, get?_eq_none_of_not_mem hk]
      rfl
  · intro key hc
    rw [hcache, foldl_mark] at hc
    by_cases hk : key ∈ cur.keys
    · rw [if_pos hk] at hc
      cases hc
    · rw [if_neg hk] at hc
      rw [h.processPersistCount_uncached hc, get?_eq_none_of_not_mem hk]
      rfl

/-! ### Persisting and opening -/

theorem enqueue_of_ne (h : m.Reflects s cur per) {ops : List DbWrite}
    (hvalues : ∀ op ∈ ops, op.key.head? ≠ some m.prefixMapKey)
    (hkeys : ∀ op ∈ ops, op.key.head? ≠ some m.keysByIndex.keyPrefix) :
    m.Reflects (s.enqueue ops) cur per := by
  refine { h with keys := h.keys.enqueue_of_ne hkeys, current := ?_ }
  intro key
  rw [view_enqueue, ← h.current key]
  apply replay_of_ne
  intro op hop heq
  exact hvalues op hop (heq ▸ rfl)

theorem persist (h : m.Reflects s cur per) : m.Reflects s.persist cur cur where
  keyPrefix_eq := h.keyPrefix_eq
  keys := h.keys.persist
  persisted := h.current
  current := h.current
  persistCount_le := h.persistCount_le.trans (Nat.le_succ _)
  cached := h.cached
  uncached key _ := h.current key
  fresh _ := h.current

theorem newMap {db : Db} {tableCount : UInt8}
    (hvalues : StoresValues db (DbtMap.newMap (.new db) tableCount) per)
    (hkeys : Stores db (tableCount + 1) per.keys) (hlt : per.keys.length < u64Bound) :
    (DbtMap.newMap (.new db) tableCount).Reflects (.new db) per per where
  keyPrefix_eq := rfl
  keys := .of_stores hkeys hlt le_rfl (.inr rfl)
  persisted := hvalues
  current := hvalues
  persistCount_le := le_rfl
  cached _ _ hc := nomatch hc
  uncached key _ := hvalues key
  fresh _ := hvalues

end Reflects

end DbtMap

/-! ## Calls -/

/-- A call of a map, or of the storage that it lives in. -/
inductive MapCall (K V : Type) where
  | insert (key : K) (value : V)
  | get (key : K)
  | containsKey (key : K)
  | len
  | isEmpty
  | allKeys
  | clear
  /-- Writes of other tables, which share the queue. -/
  | otherTables (ops : List DbWrite)
  | persist
  /-- Drop all handles, and open the database again. -/
  | reopen

inductive MapReply (K V : Type) where
  | done
  | value (value : Option V)
  | contained (b : Bool)
  | length (n : ℕ)
  | empty (b : Bool)
  | keys (keys : List K)
  deriving DecidableEq

/-- What the handle answers, and the storage and the handle after the call. -/
def DbtMap.answer (x : SimpleRustyStorage × DbtMap K V) :
    MapCall K V → Option ((SimpleRustyStorage × DbtMap K V) × MapReply K V)
  | .insert key value => (x.2.insert x.1 key value).map fun y => (y.2, .value y.1)
  | .get key => (x.2.get x.1 key).map fun value => (x, .value value)
  | .containsKey key => some (x, .contained (x.2.containsKey x.1 key))
  | .len => (x.2.len x.1).map fun n => (x, .length n)
  | .isEmpty => (x.2.isEmpty x.1).map fun b => (x, .empty b)
  | .allKeys => (x.2.allKeys x.1).map fun keys => (x, .keys keys)
  | .clear => (x.2.clear x.1).map fun y => (y, .done)
  | .otherTables ops =>
    some ((x.1.enqueue (ops.filter fun op => op.key.head? != some x.2.prefixMapKey &&
      op.key.head? != some x.2.keysByIndex.keyPrefix), x.2), .done)
  | .persist => some ((x.1.persist, x.2), .done)
  | .reopen => some ((.new x.1.db, newMap (.new x.1.db) x.2.prefixMapKey), .done)

/-- A map, and the map as it was when it was last persisted. -/
structure MapSnapshots (K V : Type) where
  current : AssocMap K V
  persisted : AssocMap K V

omit [Serde K] [Serde V] [Serde UInt64] in
/-- What an insertion-ordered map answers.  It holds at most `2^64 - 1` keys. -/
def MapSnapshots.answer (t : MapSnapshots K V) :
    MapCall K V → Option (MapSnapshots K V × MapReply K V)
  | .insert key value =>
    if t.current.get? key = none ∧ u64Bound ≤ t.current.keys.length + 1 then none
    else some ({ t with current := t.current.put key value }, .value (t.current.get? key))
  | .get key => some (t, .value (t.current.get? key))
  | .containsKey key => some (t, .contained (t.current.get? key).isSome)
  | .len => some (t, .length t.current.keys.length)
  | .isEmpty => some (t, .empty t.current.keys.isEmpty)
  | .allKeys => some (t, .keys t.current.keys)
  | .clear => some ({ t with current := .empty }, .done)
  | .otherTables _ => some (t, .done)
  | .persist => some ({ t with persisted := t.current }, .done)
  | .reopen => some ({ t with current := t.persisted }, .done)

namespace DbtMap

/-- A map with entries is cleared only if the length of its vector of keys is loaded. -/
def clearsLoaded (x : SimpleRustyStorage × DbtMap K V) : MapCall K V → Bool
  | .clear => x.2.keysByIndex.currentLength.isSome || x.2.isEmpty x.1 == some true
  | _ => true

/-- The handle stands for the snapshots. -/
def Represents (x : SimpleRustyStorage × DbtMap K V) (t : MapSnapshots K V) : Prop :=
  x.2.Reflects x.1 t.current t.persisted

/-- **One call.** -/
theorem Represents.answer {x : SimpleRustyStorage × DbtMap K V} {t : MapSnapshots K V}
    (h : Represents x t) (call : MapCall K V) (hloaded : clearsLoaded x call = true) :
    Agrees Represents (answer x call) (t.answer call) := by
  cases call with
  | insert key value =>
    rw [DbtMap.answer, MapSnapshots.answer]
    by_cases hfull : t.current.get? key = none ∧ u64Bound ≤ t.current.keys.length + 1
    · rw [if_pos hfull, h.insert_eq_none hfull.1 (not_lt.mpr hfull.2)]
      trivial
    · have hlt : t.current.get? key = none → t.current.keys.length + 1 < u64Bound := fun hnew =>
        not_le.mp fun hle => hfull ⟨hnew, hle⟩
      obtain ⟨s', m', hinsert, hreflects⟩ := h.insert_eq_some hlt value
      rw [if_neg hfull, hinsert]
      exact ⟨hreflects, rfl⟩
  | get key =>
    rw [DbtMap.answer, MapSnapshots.answer, h.get_eq]
    exact ⟨h, rfl⟩
  | containsKey key =>
    rw [DbtMap.answer, MapSnapshots.answer, h.containsKey_eq]
    exact ⟨h, rfl⟩
  | len =>
    rw [DbtMap.answer, MapSnapshots.answer, len, h.keys.len_eq]
    exact ⟨h, rfl⟩
  | isEmpty =>
    rw [DbtMap.answer, MapSnapshots.answer, h.isEmpty_eq]
    exact ⟨h, rfl⟩
  | allKeys =>
    rw [DbtMap.answer, MapSnapshots.answer, allKeys, h.keys.getAll_eq]
    exact ⟨h, rfl⟩
  | clear =>
    rw [clearsLoaded, Bool.or_eq_true, h.isEmpty_eq] at hloaded
    have hempty : x.2.keysByIndex.currentLength = none → t.current.keys = [] := by
      intro hnone
      simpa [hnone] using hloaded
    obtain ⟨s', m', hclear, hreflects⟩ := h.clear_eq_some hempty
    rw [DbtMap.answer, MapSnapshots.answer, hclear]
    exact ⟨hreflects, rfl⟩
  | otherTables ops =>
    refine ⟨h.enqueue_of_ne ?_ ?_, rfl⟩
    · intro op hop
      have hfilter := (mem_filter.mp hop).2
      rw [Bool.and_eq_true] at hfilter
      simpa using hfilter.1
    · intro op hop
      have hfilter := (mem_filter.mp hop).2
      rw [Bool.and_eq_true] at hfilter
      simpa using hfilter.2
  | persist => exact ⟨h.persist, rfl⟩
  | reopen =>
    refine ⟨Reflects.newMap h.persisted ?_ h.keys.persisted_lt, rfl⟩
    have hkeys := h.keys.persisted
    rwa [h.keyPrefix_eq] at hkeys

/-- **A map in the database is an insertion-ordered map with snapshots**, as long as no map
that has entries is cleared before the length of its vector of keys is loaded. -/
theorem answers_like_map (tableCount : UInt8) (calls : List (MapCall K V))
    (hloaded : callsMeet clearsLoaded answer
      (.new fun _ => none, newMap (.new fun _ => none) tableCount) calls = true) :
    (runCalls answer (.new fun _ => none, newMap (.new fun _ => none) tableCount) calls).map (·.2) =
      (runCalls MapSnapshots.answer ⟨.empty, .empty⟩ calls).map (·.2) := by
  have hempty : Stores (fun _ => none) (tableCount + 1) ([] : List K) := ⟨.inr ⟨rfl, rfl⟩, nofun⟩
  have hnew : Represents (K := K) (V := V)
      (.new fun _ => none, newMap (.new fun _ => none) tableCount) ⟨.empty, .empty⟩ :=
    Reflects.newMap (fun _ => rfl) hempty (Nat.two_pow_pos 64)
  exact runCalls_eq_of_meets (fun _ _ h call => h.answer call) hnew hloaded

omit [Serde UInt64] in
theorem answers_like_map_second_key : let _ := Serde.fixedInt
    let calls : List (MapCall UInt64 UInt64) :=
      [.insert 1 2, .persist, .reopen, .insert 3 4, .clear, .allKeys, .get 1]
    (runCalls answer (.new fun _ => none, newMap (.new fun _ => none) 0) calls).map (·.2) =
      (runCalls MapSnapshots.answer ⟨.empty, .empty⟩ calls).map (·.2) :=
  let _ := Serde.fixedInt
  answers_like_map 0 [.insert 1 2, .persist, .reopen, .insert 3 4, .clear, .allKeys, .get 1]
    (by decide +kernel)

omit [Serde UInt64] in
/-- Clearing a map that was reopened with one entry is a panic; an ordinary map is emptied. -/
theorem reopened_clear_panics : let _ := Serde.fixedInt
    let calls : List (MapCall UInt64 UInt64) := [.insert 1 2, .persist, .reopen, .clear]
    (runCalls answer (.new fun _ => none, newMap (.new fun _ => none) 0) calls).map (·.2) = none ∧
      (runCalls MapSnapshots.answer ⟨.empty, .empty⟩ calls).map (·.2) =
        some [.value none, .done, .done, .done] := by
  decide +kernel

end DbtMap

end NyksNode
