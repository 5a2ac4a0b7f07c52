import Mathlib.Data.List.Nodup

/-!
# Maps as association lists

The contents of a hash map: a list of entries in which no key occurs twice.  The order
of the entries carries no meaning; every lemma below speaks about `get?`.
-/

namespace NyksNode

open List Option

theorem map_fst_zip_sublist {α β : Type*} (l : List α) (m : List β) :
    ((l.zip m).map (·.1)).Sublist l := by
  induction l generalizing m with
  | nil => simp
  | cons a l ih =>
    cases m with
    | nil => simp
    | cons b m => exact (ih m).cons_cons a

theorem mem_zip_map {α β : Type*} {f : α → β} {l : List α} {x : α × β} :
    x ∈ l.zip (l.map f) ↔ x.1 ∈ l ∧ x.2 = f x.1 := by
  obtain ⟨a, b⟩ := x
  induction l with
  | nil => simp
  | cons c l ih =>
    rw [map_cons, zip_cons_cons, mem_cons, ih, mem_cons, Prod.mk.injEq]
    constructor
    · rintro (⟨rfl, rfl⟩ | ⟨ha, hb⟩)
      · exact ⟨.inl rfl, rfl⟩
      · exact ⟨.inr ha, hb⟩
    · rintro ⟨rfl | ha, hb⟩
      · exact .inl ⟨rfl, hb⟩
      · exact .inr ⟨ha, hb⟩

/-! ## Plain lists of entries -/

section
variable {κ ν : Type*} [DecidableEq κ]

theorem lookup_eraseP_of_ne (es : List (κ × ν)) {k k' : κ} (hne : k' ≠ k) :
    (es.eraseP fun e => e.1 == k).lookup k' = es.lookup k' := by
  induction es with
  | nil => rfl
  | cons e es ih =>
    by_cases he : e.1 = k
    · have hne' : (k' == e.1) = false := by simpa [he] using hne
      rw [eraseP_cons_of_pos (by simpa using he), lookup_cons, hne']
    · rw [eraseP_cons_of_neg (by simpa using he), lookup_cons, lookup_cons, ih]

theorem lookup_cons_eraseP (es : List (κ × ν)) (k : κ) (v : ν) (k' : κ) :
    ((k, v) :: es.eraseP fun e => e.1 == k).lookup k' =
      if k' = k then some v else es.lookup k' := by
  by_cases hk : k' = k
  · simp [hk]
  · have hbeq : (k' == k) = false := by simpa using hk
    rw [lookup_cons, hbeq, if_neg hk]
    exact lookup_eraseP_of_ne es hk

variable {es : List (κ × ν)}

theorem nodup_keys_cons_eraseP (hnd : (es.map (·.1)).Nodup) (k : κ) (v : ν) :
    (((k, v) :: es.eraseP fun e => e.1 == k).map (·.1)).Nodup := by
  have herase : (es.eraseP fun e => e.1 == k).map (·.1) = (es.map (·.1)).erase k := by
    rw [erase_eq_eraseP', eraseP_map]
    rfl
  rw [map_cons, herase, nodup_cons]
  exact ⟨hnd.not_mem_erase, hnd.erase k⟩

theorem mem_of_lookup {k : κ} {v : ν} (h : es.lookup k = some v) : (k, v) ∈ es := by
  induction es with
  | nil => simp at h
  | cons e es ih =>
    rw [lookup_cons] at h
    by_cases hk : k = e.1
    · rw [beq_iff_eq.mpr hk] at h
      obtain rfl : e.2 = v := by simpa using h
      rw [hk]
      exact mem_cons_self
    · rw [beq_eq_false_iff_ne.mpr hk] at h
      exact mem_cons_of_mem _ (ih h)

theorem lookup_of_mem (hnd : (es.map (·.1)).Nodup) {e : κ × ν} (he : e ∈ es) :
    es.lookup e.1 = some e.2 := by
  induction es with
  | nil => simp at he
  | cons e' es ih =>
    rw [map_cons, nodup_cons] at hnd
    cases mem_cons.mp he with
    | inl heq => rw [heq, lookup_cons, beq_self_eq_true]
    | inr hmem =>
      have hne : (e.1 == e'.1) = false := by
        rw [beq_eq_false_iff_ne]
        intro heq
        exact hnd.1 (heq ▸ mem_map_of_mem hmem)
      rw [lookup_cons, hne]
      exact ih hnd.2 hmem

theorem lookup_map_entries (keys : List κ) (f : κ → ν) (k : κ) :
    (keys.map fun c => (c, f c)).lookup k = if k ∈ keys then some (f k) else none := by
  induction keys with
  | nil => rfl
  | cons c keys ih =>
    by_cases hc : k = c
    · simp [hc]
    · have hbeq : (k == c) = false := by simpa using hc
      rw [map_cons, lookup_cons, hbeq, ih]
      simp [hc]

theorem eraseP_map_entries (keys : List κ) (f : κ → ν) (k : κ) :
    (keys.map fun c => (c, f c)).eraseP (fun e => e.1 == k) =
      (keys.erase k).map fun c => (c, f c) := by
  rw [eraseP_map, erase_eq_eraseP']
  rfl

end

structure AssocMap (κ ν : Type*) where
  entries : List (κ × ν)
  nodup_keys : (entries.map (·.1)).Nodup

namespace AssocMap
variable {κ ν : Type*}

def empty : AssocMap κ ν := ⟨[], nodup_nil⟩

def keys (m : AssocMap κ ν) : List κ := m.entries.map (·.1)

def values (m : AssocMap κ ν) : List ν := m.entries.map (·.2)

variable [DecidableEq κ]

def get? (m : AssocMap κ ν) (k : κ) : Option ν := (m.entries.find? fun e => e.1 = k).map (·.2)

/-- Put a value in, in the place of the one that is there. -/
def insert (m : AssocMap κ ν) (k : κ) (v : ν) : AssocMap κ ν where
  entries := (k, v) :: m.entries.filter fun e => e.1 ≠ k
  nodup_keys := by
    rw [map_cons, nodup_cons]
    constructor
    · simp
    · exact m.nodup_keys.sublist (List.Sublist.map _ filter_sublist)

/-- Entries after a value was put in, in the place of the one that is there or at the end. -/
def putEntry (es : List (κ × ν)) (k : κ) (v : ν) : List (κ × ν) :=
  if k ∈ es.map (·.1) then es.map fun e => if e.1 = k then (k, v) else e else es ++ [(k, v)]

theorem map_fst_putEntry (es : List (κ × ν)) (k : κ) (v : ν) : (putEntry es k v).map (·.1) =
      if k ∈ es.map (·.1) then es.map (·.1) else es.map (·.1) ++ [k] := by
  rw [putEntry]
  by_cases hk : k ∈ es.map (·.1)
  · rw [if_pos hk, if_pos hk, List.map_map]
    apply map_congr_left
    intro e _
    by_cases he : e.1 = k
    · simp [he]
    · simp [he]
  · rw [if_neg hk, if_neg hk, map_append]
    rfl

/-- Put a value in, keeping the order in which keys came. -/
def put (m : AssocMap κ ν) (k : κ) (v : ν) : AssocMap κ ν where
  entries := putEntry m.entries k v
  nodup_keys := by
    rw [map_fst_putEntry]
    by_cases hk : k ∈ m.entries.map (·.1)
    · rw [if_pos hk]
      exact m.nodup_keys
    · rw [if_neg hk]
      exact nodup_append.mpr ⟨m.nodup_keys, nodup_singleton k, by
        intro a ha b hb hab
        rw [mem_singleton.mp hb] at hab
        exact hk (hab ▸ ha)⟩

theorem keys_put (m : AssocMap κ ν) (k : κ) (v : ν) :
    (m.put k v).keys = if k ∈ m.keys then m.keys else m.keys ++ [k] :=
  map_fst_putEntry m.entries k v

/-- The map of a list of entries; a later entry replaces an earlier one. -/
def ofList (es : List (κ × ν)) : AssocMap κ ν := es.foldl (fun m e => m.insert e.1 e.2) empty

variable {m : AssocMap κ ν} {k : κ} {v : ν}

theorem get?_eq_some_iff : m.get? k = some v ↔ (k, v) ∈ m.entries := by
  rw [get?, map_eq_some_iff]
  constructor
  · rintro ⟨⟨k', v'⟩, hfind, rfl⟩
    have hk := find?_some hfind
    simp only [decide_eq_true_eq] at hk
    subst hk
    exact mem_of_find?_eq_some hfind
  · intro hmem
    cases hfind : m.entries.find? fun e => e.1 = k with
    | none => simpa using find?_eq_none.mp hfind _ hmem
    | some e =>
      refine ⟨e, rfl, ?_⟩
      have hk := find?_some hfind
      simp only [decide_eq_true_eq] at hk
      have heq := inj_on_of_nodup_map m.nodup_keys (mem_of_find?_eq_some hfind) hmem hk
      rw [heq]

@[simp] theorem get?_empty (k : κ) : (empty : AssocMap κ ν).get? k = none := rfl

theorem get?_insert (m : AssocMap κ ν) (k : κ) (v : ν) (k' : κ) :
    (m.insert k v).get? k' = if k' = k then some v else m.get? k' := by
  apply ext
  intro w
  rw [get?_eq_some_iff]
  simp only [insert, mem_cons, Prod.mk.injEq, mem_filter, decide_not, Bool.not_eq_true',
    decide_eq_false_iff_not]
  split
  · rename_i hk
    simp [hk, eq_comm]
  · rename_i hk
    simp [hk, get?_eq_some_iff]

theorem get?_put (m : AssocMap κ ν) (k : κ) (v : ν) (k' : κ) :
    (m.put k v).get? k' = if k' = k then some v else m.get? k' := by
  have hentries : (m.put k v).entries = putEntry m.entries k v := rfl
  apply ext
  intro w
  rw [get?_eq_some_iff, hentries, putEntry]
  by_cases hk : k ∈ m.entries.map (·.1)
  · obtain ⟨e, he, rfl⟩ := mem_map.mp hk
    rw [if_pos hk, List.mem_map]
    by_cases hk' : k' = e.1
    · rw [if_pos hk', some_inj]
      constructor
      · rintro ⟨e', -, he'⟩
        by_cases heq : e'.1 = e.1
        · rw [if_pos heq] at he'
          exact congrArg Prod.snd he'
        · rw [if_neg heq] at he'
          exact absurd (congrArg Prod.fst he') (fun h => heq (h.trans hk'))
      · rintro rfl
        exact ⟨e, he, by rw [if_pos rfl, hk']⟩
    · rw [if_neg hk', get?_eq_some_iff]
      constructor
      · rintro ⟨e', hmem, he'⟩
        by_cases heq : e'.1 = e.1
        · rw [if_pos heq] at he'
          exact absurd (congrArg Prod.fst he').symm hk'
        · rw [if_neg heq] at he'
          exact he' ▸ hmem
      · intro hmem
        exact ⟨(k', w), hmem, if_neg hk'⟩
  · rw [if_neg hk, mem_append, mem_singleton, Prod.mk.injEq]
    by_cases hk' : k' = k
    · have hnot : (k', w) ∉ m.entries := fun hmem => hk (mem_map.mpr ⟨_, hmem, hk'⟩)
      rw [if_pos hk', some_inj]
      simp [hk', hk' ▸ hnot, eq_comm]
    · rw [if_neg hk', get?_eq_some_iff]
      simp [hk']

theorem mem_keys : k ∈ m.keys ↔ (m.get? k).isSome = true := by
  simp only [keys, List.mem_map, isSome_iff_exists, get?_eq_some_iff]
  constructor
  · rintro ⟨e, he, rfl⟩
    exact ⟨e.2, he⟩
  · rintro ⟨v, hv⟩
    exact ⟨_, hv, rfl⟩

theorem mem_values : v ∈ m.values ↔ ∃ k, m.get? k = some v := by
  simp only [values, List.mem_map, get?_eq_some_iff]
  constructor
  · rintro ⟨e, he, rfl⟩
    exact ⟨e.1, he⟩
  · rintro ⟨k, hk⟩
    exact ⟨_, hk, rfl⟩

/-! ## Removing a key -/

def erase (m : AssocMap κ ν) (k : κ) : AssocMap κ ν where
  entries := m.entries.filter fun e => e.1 ≠ k
  nodup_keys := m.nodup_keys.sublist (List.Sublist.map _ filter_sublist)

theorem get?_erase (m : AssocMap κ ν) (k k' : κ) :
    (m.erase k).get? k' = if k' = k then none else m.get? k' := by
  apply ext
  intro w
  rw [get?_eq_some_iff]
  simp only [erase, mem_filter, decide_not, Bool.not_eq_true', decide_eq_false_iff_not]
  by_cases hk : k' = k
  · simp [hk]
  · simp [hk, get?_eq_some_iff]

theorem get?_erase_eq_some {k' : κ} {w : ν} :
    (m.erase k).get? k' = some w ↔ k' ≠ k ∧ m.get? k' = some w := by
  rw [get?_erase, ite_none_left_eq_some]

/-- An entry after an insertion is the new one or an old one. -/
@[elab_as_elim]
theorem of_get?_insert {P : κ → ν → Prop} {k' : κ} {w : ν} (hw : (m.insert k v).get? k' = some w)
    (hnew : P k v) (hold : k' ≠ k → m.get? k' = some w → P k' w) : P k' w := by
  rw [get?_insert] at hw
  by_cases hk : k' = k
  · rw [if_pos hk] at hw
    cases hw
    exact hk ▸ hnew
  · exact hold hk (by rwa [if_neg hk] at hw)

@[elab_as_elim]
theorem of_get?_put {P : κ → ν → Prop} {k' : κ} {w : ν} (hw : (m.put k v).get? k' = some w)
    (hnew : P k v) (hold : k' ≠ k → m.get? k' = some w → P k' w) : P k' w := by
  rw [get?_put, ← get?_insert m k v] at hw
  exact of_get?_insert hw hnew hold

theorem mem_keys_erase {k' : κ} : k' ∈ (m.erase k).keys ↔ k' ≠ k ∧ k' ∈ m.keys := by
  rw [mem_keys, mem_keys, get?_erase]
  by_cases hk : k' = k
  · simp [hk]
  · simp [hk]

theorem cons_keys_erase_perm (hk : k ∈ m.keys) : (k :: (m.erase k).keys).Perm m.keys := by
  have hnot : k ∉ (m.erase k).keys := fun hmem => (mem_keys_erase.mp hmem).1 rfl
  refine (perm_ext_iff_of_nodup (nodup_cons.mpr ⟨hnot, (m.erase k).nodup_keys⟩)
    m.nodup_keys).mpr fun a => ?_
  change a ∈ k :: (m.erase k).keys ↔ a ∈ m.keys
  rw [mem_cons, mem_keys_erase]
  by_cases ha : a = k
  · simp [ha, hk]
  · simp [ha]

theorem mem_keys_insert {k' : κ} : k' ∈ (m.insert k v).keys ↔ k' = k ∨ k' ∈ m.keys := by
  rw [mem_keys, mem_keys, get?_insert]
  by_cases hk : k' = k
  · simp [hk]
  · simp [hk]

def length (m : AssocMap κ ν) : ℕ := m.entries.length

omit [DecidableEq κ] in
theorem length_keys (m : AssocMap κ ν) : m.keys.length = m.length := by
  rw [keys, length_map, length]

/-! ## Maps from lists -/

theorem get?_foldl_insert (es : List (κ × ν)) (hnd : (es.map (·.1)).Nodup) (m : AssocMap κ ν)
    (k : κ) : (es.foldl (fun m e => m.insert e.1 e.2) m).get? k =
      ((es.find? fun e => e.1 = k).map (·.2)).or (m.get? k) := by
  induction es generalizing m with
  | nil => rfl
  | cons e es ih =>
    rw [map_cons, nodup_cons] at hnd
    rw [foldl_cons, ih hnd.2, get?_insert, find?_cons]
    by_cases hk : e.1 = k
    · subst hk
      have hnone : es.find? (fun x => decide (x.1 = e.1)) = none := by
        rw [find?_eq_none]
        intro x hx
        simp only [decide_eq_true_eq]
        intro heq
        exact hnd.1 (mem_map.mpr ⟨x, hx, heq⟩)
      simp [hnone]
    · simp [hk, Ne.symm hk]

theorem get?_ofList {es : List (κ × ν)} (hnd : (es.map (·.1)).Nodup) :
    (ofList es).get? k = some v ↔ (k, v) ∈ es := by
  have hmap : (ofList es).get? k = (⟨es, hnd⟩ : AssocMap κ ν).get? k := by
    rw [ofList, get?_foldl_insert es hnd, get?_empty, or_none]
    rfl
  rw [hmap, get?_eq_some_iff]

end AssocMap

/-- The order in which a hash map lists its entries.  Every entry is listed once; nothing else is
known. -/
class IterOrder where
  iter {α : Type} : List α → List α
  iter_perm {α : Type} (l : List α) : (iter l).Perm l

namespace IterOrder

/-- The order in which the model keeps the entries. -/
@[reducible] def asKept : IterOrder := ⟨id, fun _ => .refl _⟩

@[simp] theorem mem_iter [IterOrder] {α : Type} {l : List α} {a : α} : a ∈ iter l ↔ a ∈ l :=
  (iter_perm l).mem_iff

end IterOrder

end NyksNode
