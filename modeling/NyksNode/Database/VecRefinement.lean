import NyksNode.Database.Vec
import NyksNode.Lib.Fold
import NyksNode.Lib.Sorted

/-!
# What a vector in the database stands for

A `DbtVec` stands for a list, and its database holds a second list, the first one as it was
when the queue was last persisted.  `DbtVec.Reflects` says how the two lists are spread over
the handle, its cache, the queue and the database; for each operation there is a lemma that
says what it does to the lists.
-/

namespace NyksNode

open List Option Function

variable {V : Type} [Serde V] [Serde UInt64]

/-! ## Lists in the database -/

/-- The database holds the list `xs`. -/
structure Stores (db : Db) (keyPrefix : UInt8) (xs : List V) : Prop where
  length_eq : db (lengthKey keyPrefix) = some (DbtVec.lengthValue xs.length) ∨
    db (lengthKey keyPrefix) = none ∧ xs = []
  element_eq : ∀ i x, xs[i]? = some x → db (indexKey keyPrefix i) = some (.fromAny x)

namespace Stores
variable {db db' : Db} {keyPrefix : UInt8} {xs : List V}

theorem congr (h : Stores db keyPrefix xs)
    (hdb : ∀ key : RustyKey, key.head? = some keyPrefix → db' key = db key) :
    Stores db' keyPrefix xs := by
  refine ⟨?_, ?_⟩
  · rw [hdb _ rfl]
    exact h.length_eq
  · intro i x hx
    rw [hdb _ rfl]
    exact h.element_eq i x hx

theorem set (h : Stores db keyPrefix xs) (hlen : xs.length < u64Bound) {index : ℕ}
    (hindex : index < xs.length) (value : V) :
    Stores (Function.update db (indexKey keyPrefix index) (some (.fromAny value))) keyPrefix
      (xs.set index value) := by
  refine ⟨?_, ?_⟩
  · rw [update_of_ne (indexKey_ne_lengthKey _ _).symm, length_set]
    rcases h.length_eq with hl | ⟨-, rfl⟩
    · exact .inl hl
    · exact absurd hindex (Nat.not_lt_zero _)
  · intro i x hx
    have hi : i < xs.length := by
      rw [← length_set (i := index) (a := value)]
      exact (List.getElem?_eq_some_iff.mp hx).1
    by_cases heq : i = index
    · subst heq
      rw [getElem?_set_self hi, some_inj] at hx
      rw [update_self, hx]
    · have hne : indexKey keyPrefix i ≠ indexKey keyPrefix index := fun hk =>
        heq (indexKey_injective (hi.trans hlen) (hindex.trans hlen) hk)
      rw [getElem?_set_ne (Ne.symm heq)] at hx
      rw [update_of_ne hne]
      exact h.element_eq i x hx

theorem push (h : Stores db keyPrefix xs) (hlen : xs.length + 1 < u64Bound) (value : V) :
    Stores (Function.update (Function.update db (indexKey keyPrefix xs.length)
      (some (.fromAny value))) (lengthKey keyPrefix)
        (some (DbtVec.lengthValue (xs.length + 1)))) keyPrefix (xs ++ [value]) := by
  refine ⟨.inl ?_, ?_⟩
  · rw [update_self, length_append, length_singleton]
  · intro i x hx
    rw [update_of_ne (indexKey_ne_lengthKey _ _)]
    have hi : i < xs.length + 1 := by
      simpa using (List.getElem?_eq_some_iff.mp hx).1
    by_cases heq : i = xs.length
    · subst heq
      rw [getElem?_concat_length, some_inj] at hx
      rw [update_self, hx]
    · have hne : indexKey keyPrefix i ≠ indexKey keyPrefix xs.length := fun hk =>
        heq (indexKey_injective (by omega) (by omega) hk)
      rw [getElem?_append_left (by omega)] at hx
      rw [update_of_ne hne]
      exact h.element_eq i x hx

theorem pop {x : V} (h : Stores db keyPrefix (xs ++ [x])) (hlen : xs.length + 1 < u64Bound) :
    Stores (Function.update (Function.update db (indexKey keyPrefix xs.length) none)
      (lengthKey keyPrefix) (some (DbtVec.lengthValue xs.length))) keyPrefix xs := by
  refine ⟨.inl (update_self ..), ?_⟩
  intro i y hy
  have hi : i < xs.length := (List.getElem?_eq_some_iff.mp hy).1
  have hne : indexKey keyPrefix i ≠ indexKey keyPrefix xs.length := fun hk =>
    hi.ne (indexKey_injective (by omega) (by omega) hk)
  rw [update_of_ne (indexKey_ne_lengthKey _ _), update_of_ne hne]
  exact h.element_eq i y (by rw [getElem?_append_left hi, hy])

end Stores

/-! ## Handles -/

namespace DbtVec

/-- The handle and its storage stand for the list `cur`, and the database holds `per`.  An element
that is not cached is in the database, and once the queue was persisted all of them are. -/
structure Reflects (v : DbtVec V) (s : SimpleRustyStorage) (cur per : List V) : Prop where
  length_lt : cur.length < u64Bound
  persisted_lt : per.length < u64Bound
  persisted : Stores s.db v.keyPrefix per
  current : Stores s.view v.keyPrefix cur
  currentLength_eq : v.currentLength = some cur.length ∨
    v.currentLength = none ∧ cur.length = per.length
  persistCount_le : v.persistCount ≤ s.pendingWrites.persistCount
  cached : ∀ i x, v.cache i = some x → cur[i]? = some x
  uncached : ∀ i x, v.cache i = none → cur[i]? = some x →
    s.db (indexKey v.keyPrefix i) = some (.fromAny x)
  fresh : v.persistCount < s.pendingWrites.persistCount → ∀ i x, cur[i]? = some x →
    s.db (indexKey v.keyPrefix i) = some (.fromAny x)

omit [Serde V] in
theorem intoAny_lengthValue {n : ℕ} (hn : n < u64Bound) :
    ((lengthValue n).intoAny : Option UInt64).map UInt64.toNat = some n := by
  rw [lengthValue, RustyValue.intoAny_fromAny, map_some, UInt64.toNat_ofNat',
    Nat.mod_eq_of_lt (show n < 2 ^ 64 from hn)]

theorem persistedLength_eq {v : DbtVec V} {s : SimpleRustyStorage} {per : List V}
    (h : Stores s.db v.keyPrefix per) (hlt : per.length < u64Bound) :
    v.persistedLength s = some (some per.length) ∨ v.persistedLength s = some none ∧ per = [] := by
  rcases h.length_eq with hl | ⟨hl, hnil⟩
  · left
    rw [persistedLength, hl]
    have hn := intoAny_lengthValue hlt
    cases hv : ((lengthValue per.length).intoAny : Option UInt64) with
    | none => simp [hv] at hn
    | some l => simpa [hv] using hn
  · right
    rw [persistedLength, hl]
    exact ⟨rfl, hnil⟩

omit [Serde V] [Serde UInt64] in
/-- The handle has written to its own table only. -/
structure Writes (v : DbtVec V) (s : SimpleRustyStorage) (v' : DbtVec V)
    (s' : SimpleRustyStorage) : Prop where
  keyPrefix_eq : v'.keyPrefix = v.keyPrefix
  touches : s.Touches v.keyPrefix s'

namespace Writes
variable {v v' v'' : DbtVec V} {s s' s'' : SimpleRustyStorage}

omit [Serde V] [Serde UInt64]

theorem refl (v : DbtVec V) (s : SimpleRustyStorage) : v.Writes s v s := ⟨rfl, .refl _ _⟩

theorem trans (h : v.Writes s v' s') (h' : v'.Writes s' v'' s'') : v.Writes s v'' s'' := by
  refine ⟨h'.keyPrefix_eq.trans h.keyPrefix_eq, h.touches.trans ?_⟩
  rw [← h.keyPrefix_eq]
  exact h'.touches

end Writes

namespace Reflects
variable {v : DbtVec V} {s : SimpleRustyStorage} {cur per : List V}

theorem len_eq (h : v.Reflects s cur per) : v.len s = some cur.length := by
  rw [len]
  rcases h.currentLength_eq with hl | ⟨hl, hlen⟩
  · rw [hl]
  · rw [hl]
    rcases persistedLength_eq h.persisted h.persisted_lt with hp | ⟨hp, hnil⟩
    · simp [hp, hlen]
    · simp [hp, hlen, hnil]

theorem isEmpty_eq (h : v.Reflects s cur per) : v.isEmpty s = some cur.isEmpty := by
  rw [isEmpty, h.len_eq, map_some]
  cases cur <;> rfl

/-! ### Reading -/

section
variable (h : v.Reflects s cur per)
include h

theorem fetch_eq {i : ℕ} (hi : i < cur.length) :
    v.cache i = some cur[i] ∨ v.cache i = none ∧ v.getPersisted s i = some cur[i] := by
  have hget := getElem?_eq_getElem hi
  cases hc : v.cache i with
  | some x =>
    have hx := h.cached i x hc
    rw [hget, some_inj] at hx
    exact .inl (by rw [hx])
  | none =>
    refine .inr ⟨rfl, ?_⟩
    rw [getPersisted, h.uncached i _ hc hget]
    exact RustyValue.intoAny_fromAny _

theorem get_eq (index : ℕ) : v.get s index = cur[index]? := by
  rw [get, h.len_eq, some_bind]
  by_cases hi : index < cur.length
  · rw [if_neg (not_le.mpr hi), getElem?_eq_getElem hi]
    rcases h.fetch_eq hi with hc | ⟨hc, hp⟩
    · rw [hc]
    · rw [hc]
      exact hp
  · rw [if_pos (not_lt.mp hi), getElem?_eq_none (not_lt.mp hi)]

/-- Elements that are found where `fetch_eq` says, in one lookup. -/
theorem exists_fetch (d : V) {i : ℕ} (hi : i < cur.length) :
    (v.cache i).isSome = true ∧ v.cache i = some (cur.getD i d) ∨
      (v.cache i).isSome = false ∧ v.getPersisted s i = some (cur.getD i d) := by
  rw [getD_eq_getElem cur d hi]
  rcases h.fetch_eq hi with hc | ⟨hc, hp⟩
  · exact .inl ⟨by rw [hc]; rfl, hc⟩
  · exact .inr ⟨by rw [hc]; rfl, hp⟩

theorem getMany_eq (indices : List ℕ) : v.getMany s indices = indices.mapM (cur[·]?) := by
  rw [getMany]
  cases hmax : indices.max? with
  | none => rw [max?_eq_none_iff.mp hmax]; rfl
  | some maxIndex =>
    have hmem := (max?_eq_some_iff.mp hmax).1
    have hle := (max?_eq_some_iff.mp hmax).2
    simp only [h.len_eq, bind_eq_bind, bind_some]
    by_cases hlt : maxIndex < cur.length
    · have hall : ∀ x ∈ indices.zipIdx, x.1 < cur.length := fun x hx =>
        (hle _ (fst_mem_of_mem_zipIdx hx)).trans_lt hlt
      set element : ℕ → V := fun i => cur.getD i cur[maxIndex]
      set p : ℕ × ℕ → Bool := fun x => (v.cache x.1).isSome
      -- both loops attach the element to the position of its request
      have hcached : (indices.zipIdx.filter p).mapM
          (fun x => (v.cache x.1).map fun value => (x.2, value)) =
            some ((indices.zipIdx.filter p).map fun x => (x.2, element x.1)) := by
        apply mapM_eq_some
        intro x hx
        rcases h.exists_fetch cur[maxIndex] (hall x (mem_of_mem_filter hx)) with hc | hc
        · rw [hc.2]; rfl
        · simp [p, hc.1] at hx
      have hfetched : (indices.zipIdx.filter (not ∘ p)).mapM
          (fun x => (v.getPersisted s x.1).map fun value => (x.2, value)) =
            some ((indices.zipIdx.filter (not ∘ p)).map fun x => (x.2, element x.1)) := by
        apply mapM_eq_some
        intro x hx
        rcases h.exists_fetch cur[maxIndex] (hall x (mem_of_mem_filter hx)) with hc | hc
        · simp [p, hc.1] at hx
        · rw [hc.2]; rfl
      have hpositions : (indices.zipIdx.map fun x => (x.2, element x.1)).Pairwise
          fun a b => a.1 < b.1 := by
        rw [pairwise_map, ← pairwise_map (f := Prod.snd) (R := (· < ·)), zipIdx_map_snd]
        exact pairwise_lt_range'
      have hsort := insertionSort_eq_of_keys Prod.fst
        ((filter_append_perm p indices.zipIdx).map fun x => (x.2, element x.1)) hpositions
      have hvalues : indices.mapM (cur[·]?) = some (indices.map element) := by
        apply mapM_eq_some
        intro i hi
        have hlen : i < cur.length := (hle i hi).trans_lt hlt
        rw [getElem?_eq_getElem hlen, ← getD_eq_getElem cur cur[maxIndex] hlen]
      rw [if_neg (not_le.mpr hlt), partition_eq_filter_filter]
      simp only [hcached, hfetched, bind_some, hvalues, some_inj]
      rw [map_append] at hsort
      refine (congrArg (List.map Prod.snd) hsort).trans ?_
      rw [List.map_map, show (Prod.snd ∘ fun x : ℕ × ℕ => (x.2, element x.1)) =
        element ∘ Prod.fst from rfl, ← List.map_map, zipIdx_map_fst]
    · rw [if_pos (not_lt.mp hlt), eq_comm, ← not_isSome_iff_eq_none, isSome_mapM_iff]
      intro hall
      have hget := hall maxIndex hmem
      rw [getElem?_eq_none (not_lt.mp hlt)] at hget
      cases hget

end

omit [Serde V] [Serde UInt64] in
theorem foldlM_fill {fetch : ℕ → Option V} {d : V} : ∀ (l : List ℕ) (elements : List (Option V)),
      (∀ i ∈ l, fetch i = some (cur.getD i d)) →
      ∃ elements', l.foldlM (fill fetch) elements = some elements' ∧
        elements'.length = elements.length ∧ ∀ i, elements'[i]? =
          if i ∈ l ∧ i < elements.length then some (some (cur.getD i d)) else elements[i]? := by
  intro l
  induction l with
  | nil =>
    intro elements _
    exact ⟨elements, rfl, rfl, fun i => by simp⟩
  | cons a l ih =>
    intro elements hl
    have ha : fill fetch elements a = some (elements.set a (some (cur.getD a d))) := by
      rw [fill, hl a mem_cons_self, map_some]
    obtain ⟨elements', hfold, hlen, hget⟩ :=
      ih (elements.set a (some (cur.getD a d))) fun i hi => hl i (mem_cons_of_mem _ hi)
    refine ⟨elements', ?_, by rw [hlen, length_set], ?_⟩
    · rw [foldlM_cons, ha]
      exact hfold
    · intro i
      rw [hget i, length_set, getElem?_set]
      by_cases hi : i ∈ l
      · grind
      · grind

theorem getAll_eq (h : v.Reflects s cur per) : v.getAll s = some cur := by
  rw [getAll, h.len_eq, some_bind]
  cases cur with
  | nil => rfl
  | cons d rest =>
    set cur := d :: rest
    set p : ℕ → Bool := fun i => (v.cache i).isSome
    rw [partition_eq_filter_filter]
    have hmem : ∀ q : ℕ → Bool, ∀ i ∈ (range cur.length).filter q, i < cur.length ∧ q i := by
      intro q i hi
      simpa using hi
    have hcached : ∀ i ∈ (range cur.length).filter p, v.cache i = some (cur.getD i d) := by
      intro i hi
      rcases h.exists_fetch d (hmem p i hi).1 with hc | hc
      · exact hc.2
      · exact absurd (hmem p i hi).2 (by simp [p, hc.1])
    have hfetched : ∀ i ∈ (range cur.length).filter (not ∘ p),
        v.getPersisted s i = some (cur.getD i d) := by
      intro i hi
      rcases h.exists_fetch d (hmem _ i hi).1 with hc | hc
      · exact absurd (hmem _ i hi).2 (by simp [p, hc.1])
      · exact hc.2
    obtain ⟨elements, hfold, hlen, hget⟩ :=
      foldlM_fill _ (replicate cur.length none) hcached
    obtain ⟨elements', hfold', hlen', hget'⟩ := foldlM_fill _ elements hfetched
    -- every index is in one of the two halves
    have helements : elements' = cur.map some := by
      rw [length_replicate] at hlen
      apply ext_getElem?
      intro i
      rw [hget' i, hget i, hlen, length_replicate, getElem?_map]
      by_cases hi : i < cur.length
      · rw [getElem?_eq_getElem hi, getD_eq_getElem cur d hi]
        cases hp : p i <;> simp [hi, hp]
      · rw [getElem?_eq_none (not_lt.mp hi), if_neg (by simp [hi]), if_neg (by simp [hi]),
          getElem?_eq_none (by simpa using hi)]
        rfl
    simp only [hfold, hfold', helements, some_bind]
    rw [mapM_map]
    exact (mapM_eq_some (g := id) fun _ _ => rfl).trans (congrArg some (map_id _))

/-! ### Writing -/

section
variable (h : v.Reflects s cur per)
include h

theorem processPersistCount_cached {n i : ℕ} {x : V}
    (hx : (v.processPersistCount n).cache i = some x) : cur[i]? = some x := by
  rw [processPersistCount] at hx
  by_cases hn : v.persistCount < n
  · simp [hn] at hx
  · rw [if_neg hn] at hx
    exact h.cached i x hx

theorem processPersistCount_uncached {i : ℕ} {x : V}
    (hc : (v.processPersistCount s.pendingWrites.persistCount).cache i = none)
    (hx : cur[i]? = some x) : s.db (indexKey v.keyPrefix i) = some (.fromAny x) := by
  rw [processPersistCount] at hc
  by_cases hn : v.persistCount < s.pendingWrites.persistCount
  · exact h.fresh hn i x hx
  · rw [if_neg hn] at hc
    exact h.uncached i x hc hx

/-- After a write the handle is up to date with the count, so what is left to show is what the
lists are and what is cached. -/
theorem of_write {ops : List DbWrite} {cur' : List V}
    {currentLength : Option ℕ} {cache : ℕ → Option V} (hlt : cur'.length < u64Bound)
    (hview : Stores (replay s.view ops) v.keyPrefix cur')
    (hlen : currentLength = some cur'.length ∨ currentLength = none ∧ cur'.length = per.length)
    (hcached : ∀ i x, cache i = some x → cur'[i]? = some x)
    (huncached : ∀ i x, cache i = none → cur'[i]? = some x →
      s.db (indexKey v.keyPrefix i) = some (.fromAny x)) :
    DbtVec.Reflects ⟨currentLength, v.keyPrefix, cache, s.pendingWrites.persistCount⟩
      (s.enqueue ops) cur' per where
  length_lt := hlt
  persisted_lt := h.persisted_lt
  persisted := h.persisted
  current := by
    rw [SimpleRustyStorage.view_enqueue]
    exact hview
  currentLength_eq := hlen
  persistCount_le := le_rfl
  cached := hcached
  uncached := huncached
  fresh hlt := absurd hlt (lt_irrefl _)

theorem writeOpOverwrite {index : ℕ} (hindex : index < cur.length)
    (value : V) : (v.writeOpOverwrite s index value).2.Reflects (v.writeOpOverwrite s index value).1
      (cur.set index value) per := by
  refine h.of_write (by rw [length_set]; exact h.length_lt)
    (h.current.set h.length_lt hindex value) (by rw [length_set]; exact h.currentLength_eq)
    ?_ ?_
  · intro i x hx
    by_cases hi : i = index
    · subst hi
      rw [update_self] at hx
      rw [getElem?_set_self hindex, hx]
    · rw [update_of_ne hi] at hx
      rw [getElem?_set_ne (Ne.symm hi)]
      exact h.processPersistCount_cached hx
  · intro i x hc hx
    by_cases hi : i = index
    · subst hi
      rw [update_self] at hc
      cases hc
    · rw [update_of_ne hi] at hc
      rw [getElem?_set_ne (Ne.symm hi)] at hx
      exact h.processPersistCount_uncached hc hx

end

omit [Serde UInt64] in
theorem writes_writeOpOverwrite (v : DbtVec V) (s : SimpleRustyStorage) (index : ℕ) (value : V) :
    v.Writes s (v.writeOpOverwrite s index value).2 (v.writeOpOverwrite s index value).1 := by
  refine ⟨rfl, .enqueue s ?_⟩
  intro op hop
  rw [mem_singleton.mp hop]
  rfl

theorem set_eq (h : v.Reflects s cur per) (index : ℕ) (value : V) : v.set s index value =
      if index < cur.length then some (v.writeOpOverwrite s index value) else none := by
  rw [set, h.len_eq, some_bind]
  by_cases hi : index < cur.length
  · rw [if_neg (not_le.mpr hi), if_pos hi]
  · rw [if_pos (not_lt.mp hi), if_neg hi]

/-- The loop of `set_many`; the length that indices are compared with is read before it. -/
theorem foldlM_overwrite (keyVals : List (ℕ × V)) :
    ∀ {v : DbtVec V} {s : SimpleRustyStorage} {cur : List V}, v.Reflects s cur per →
      (∀ kv ∈ keyVals, kv.1 < cur.length) → ∃ s' v', keyVals.foldlM (fun x kv =>
          if cur.length ≤ kv.1 then none else some (x.2.writeOpOverwrite x.1 kv.1 kv.2)) (s, v) =
            some (s', v') ∧ v'.Reflects s' (keyVals.foldl (fun xs kv => xs.set kv.1 kv.2) cur) per ∧
        v.Writes s v' s' ∧ v'.currentLength = v.currentLength := by
  induction keyVals with
  | nil =>
    intro v s cur h _
    exact ⟨s, v, rfl, h, .refl v s, rfl⟩
  | cons kv keyVals ih =>
    intro v s cur h hlt
    have hkv : kv.1 < cur.length := hlt kv mem_cons_self
    obtain ⟨s', v', hfold, hreflects, hwrites, hlength⟩ :=
      ih (h.writeOpOverwrite hkv kv.2) fun kv' hkv' => by
        rw [length_set]
        exact hlt kv' (mem_cons_of_mem _ hkv')
    rw [length_set] at hfold
    refine ⟨s', v', ?_, hreflects, (writes_writeOpOverwrite v s kv.1 kv.2).trans hwrites, hlength⟩
    rw [foldlM_cons, if_neg (not_le.mpr hkv)]
    exact hfold

theorem setMany_eq_none (h : v.Reflects s cur per) {keyVals : List (ℕ × V)}
    (hkv : ∃ kv ∈ keyVals, cur.length ≤ kv.1) : v.setMany s keyVals = none := by
  obtain ⟨kv, hmem, hle⟩ := hkv
  rw [setMany, h.len_eq, some_bind]
  cases hfold : keyVals.foldlM (fun x kv =>
      if cur.length ≤ kv.1 then none else some (x.2.writeOpOverwrite x.1 kv.1 kv.2)) (s, v) with
  | none => rfl
  | some x =>
    obtain ⟨t, t', ht⟩ := exists_step_of_foldlM hfold hmem
    rw [if_pos hle] at ht
    cases ht

theorem push_eq_some (h : v.Reflects s cur per) (hlt : cur.length + 1 < u64Bound) (value : V) :
    ∃ s' v', v.push s value = some (s', v') ∧ v'.Reflects s' (cur ++ [value]) per ∧
      v.Writes s v' s' ∧ v'.currentLength = some (cur.length + 1) := by
  set ops : List DbWrite := [.write (indexKey v.keyPrefix cur.length) (.fromAny value),
    .write (lengthKey v.keyPrefix) (lengthValue (cur.length + 1))] with hops
  set cache := update (v.processPersistCount s.pendingWrites.persistCount).cache
    cur.length (some value) with hcache
  have hlength : (cur ++ [value]).length = cur.length + 1 := by simp
  refine ⟨s.enqueue ops, ⟨some (cur.length + 1), v.keyPrefix, cache, s.pendingWrites.persistCount⟩,
    ?_, h.of_write (hlength ▸ hlt) (h.current.push hlt value) (.inl (by rw [hlength])) ?_ ?_,
    ⟨rfl, .enqueue s (by simp [hops, WriteOperation.key, indexKey, lengthKey])⟩, rfl⟩
  · rw [push, h.len_eq, some_bind, if_neg (not_le.mpr hlt)]
    rfl
  · intro i x hx
    by_cases hi : i = cur.length
    · rw [hcache, hi, update_self] at hx
      rw [hi, getElem?_concat_length, hx]
    · rw [hcache, update_of_ne hi] at hx
      have hold := h.processPersistCount_cached hx
      rw [getElem?_append_left (List.getElem?_eq_some_iff.mp hold).1]
      exact hold
  · intro i x hc hx
    by_cases hi : i = cur.length
    · rw [hcache, hi, update_self] at hc
      cases hc
    · rw [hcache, update_of_ne hi] at hc
      have hlt : i < cur.length := by
        have := (List.getElem?_eq_some_iff.mp hx).1
        omega
      rw [getElem?_append_left hlt] at hx
      exact h.processPersistCount_uncached hc hx

theorem push_eq_none (h : v.Reflects s cur per) (hlt : ¬ cur.length + 1 < u64Bound) (value : V) :
    v.push s value = none := by
  rw [push, h.len_eq, some_bind, if_pos (not_lt.mp hlt)]

/-- The writes of `pop` shorten the list, whatever becomes of the cache below its new end. -/
theorem of_pop {x : V} (h : v.Reflects s (cur ++ [x]) per) {cache : ℕ → Option V}
    (hlast : cache cur.length = none) (hcache : ∀ i ≠ cur.length,
      cache i = (v.processPersistCount s.pendingWrites.persistCount).cache i) :
    DbtVec.Reflects ⟨some cur.length, v.keyPrefix, cache, s.pendingWrites.persistCount⟩
      (s.enqueue [.delete (indexKey v.keyPrefix cur.length),
        .write (lengthKey v.keyPrefix) (lengthValue cur.length)]) cur per := by
  have hlt : cur.length + 1 < u64Bound := by simpa using h.length_lt
  refine h.of_write (by omega) (h.current.pop hlt) (.inl rfl) ?_ ?_
  · intro i y hy
    have hi : i ≠ cur.length := by
      intro hi
      rw [hi, hlast] at hy
      cases hy
    rw [hcache i hi] at hy
    have hold := h.processPersistCount_cached hy
    have hlt := (List.getElem?_eq_some_iff.mp hold).1
    rw [length_append, length_singleton] at hlt
    rwa [getElem?_append_left (by omega)] at hold
  · intro i y hc hy
    have hi : i < cur.length := (List.getElem?_eq_some_iff.mp hy).1
    rw [hcache i hi.ne] at hc
    exact h.processPersistCount_uncached hc (by rw [getElem?_append_left hi, hy])

theorem pop_eq_some (h : v.Reflects s cur per) (hloaded : v.currentLength = none → cur = []) :
    ∃ s' v', v.pop s = some (cur.getLast?, s', v') ∧ v'.Reflects s' cur.dropLast per ∧
      v.Writes s v' s' ∧ (v'.currentLength = none → cur.dropLast = []) := by
  rcases eq_nil_or_concat cur with rfl | ⟨init, x, rfl⟩
  · refine ⟨s, v, ?_, h, .refl v s, fun _ => rfl⟩
    rw [pop, h.isEmpty_eq]
    rfl
  rw [concat_eq_append] at *
  have hlength : v.currentLength = some (init.length + 1) := by
    rcases h.currentLength_eq with hl | ⟨hl, -⟩
    · simpa using hl
    · exact absurd (hloaded hl) (by simp)
  have hget : (init ++ [x])[init.length]? = some x := getElem?_concat_length
  set ops : List DbWrite := [.delete (indexKey v.keyPrefix init.length),
    .write (lengthKey v.keyPrefix) (lengthValue init.length)] with hops
  set v' := v.processPersistCount s.pendingWrites.persistCount with hv'
  have hwrites : s.Touches v.keyPrefix (s.enqueue ops) :=
    .enqueue s (by simp [hops, WriteOperation.key, indexKey, lengthKey])
  have hempty : v.isEmpty s = some false := by
    rw [h.isEmpty_eq]
    simp
  have hwrite : write ⟨some init.length, v.keyPrefix, v.cache, v.persistCount⟩ s ops =
      (s.enqueue ops, ⟨some init.length, v.keyPrefix, v'.cache, s.pendingWrites.persistCount⟩) :=
    rfl
  rw [getLast?_concat, dropLast_concat]
  cases hc : v'.cache init.length with
  | some value =>
    have hvalue := h.processPersistCount_cached hc
    rw [hget, some_inj] at hvalue
    refine ⟨s.enqueue ops, ⟨some init.length, v.keyPrefix,
      update v'.cache init.length none, s.pendingWrites.persistCount⟩, ?_,
      h.of_pop (update_self ..) fun i hi => update_of_ne hi _ _, ⟨rfl, hwrites⟩, by simp⟩
    simp [pop, hempty, hlength, ← hops, hwrite, hc, hvalue]
  | none =>
    have hvalue := h.processPersistCount_uncached hc hget
    refine ⟨s.enqueue ops, ⟨some init.length, v.keyPrefix, v'.cache,
      s.pendingWrites.persistCount⟩, ?_, h.of_pop hc fun i _ => rfl, ⟨rfl, hwrites⟩, by simp⟩
    simp [pop, hempty, hlength, ← hops, hwrite, hc, hvalue, RustyValue.intoAny_fromAny]

/-- The loop of `clear` needs one round for each element and one to stop. -/
theorem clearLoop_eq_some (n : ℕ) :
    ∀ {v : DbtVec V} {s : SimpleRustyStorage} {cur : List V}, cur.length = n →
      v.Reflects s cur per → (v.currentLength = none → cur = []) →
      ∃ s' v', clearLoop (n + 1) s v = some (s', v') ∧ v'.Reflects s' [] per ∧
        v.Writes s v' s' := by
  induction n with
  | zero =>
    intro v s cur hn h _
    have hnil := length_eq_zero_iff.mp hn
    subst hnil
    refine ⟨s, v, ?_, h, .refl v s⟩
    rw [clearLoop, h.isEmpty_eq]
    rfl
  | succ n ih =>
    intro v s cur hn h hloaded
    obtain ⟨s', v', hpop, hreflects, hwrites, hloaded'⟩ := h.pop_eq_some hloaded
    obtain ⟨s'', v'', hloop, hreflects', hwrites'⟩ := ih (by simp [hn]) hreflects hloaded'
    refine ⟨s'', v'', ?_, hreflects', hwrites.trans hwrites'⟩
    have hempty : cur.isEmpty = false := by
      rw [isEmpty_eq_false_iff, ← length_pos_iff]
      omega
    rw [clearLoop, h.isEmpty_eq, hempty, hpop]
    exact hloop

theorem clear_eq_some (h : v.Reflects s cur per) (hloaded : v.currentLength = none → cur = []) :
    ∃ s' v', v.clear s = some (s', v') ∧ v'.Reflects s' [] per ∧ v.Writes s v' s' := by
  rw [clear, h.len_eq]
  exact clearLoop_eq_some _ rfl h hloaded

/-! ### Persisting, opening and rolling back -/

theorem enqueue_of_ne (h : v.Reflects s cur per) {ops : List DbWrite}
    (hops : ∀ op ∈ ops, op.key.head? ≠ some v.keyPrefix) : v.Reflects (s.enqueue ops) cur per := by
  refine { h with current := h.current.congr ?_ }
  intro key hkey
  rw [SimpleRustyStorage.view_enqueue]
  apply replay_of_ne
  intro op hop heq
  exact hops op hop (heq ▸ hkey)

theorem persist (h : v.Reflects s cur per) : v.Reflects s.persist cur cur where
  length_lt := h.length_lt
  persisted_lt := h.length_lt
  persisted := h.current
  current := h.current
  currentLength_eq := h.currentLength_eq.imp id fun hnone => ⟨hnone.1, rfl⟩
  persistCount_le := h.persistCount_le.trans (Nat.le_succ _)
  cached := h.cached
  uncached _ _ _ hx := h.current.element_eq _ _ hx
  fresh _ _ _ hx := h.current.element_eq _ _ hx

/-- A handle without a cache, over a database without pending writes. -/
theorem of_stores {db : Db} {n persistCount : ℕ} {keyPrefix : UInt8} {currentLength : Option ℕ}
    (hdb : Stores db keyPrefix per) (hlt : per.length < u64Bound) (hle : persistCount ≤ n)
    (hlength : currentLength = some per.length ∨ currentLength = none) :
    DbtVec.Reflects ⟨currentLength, keyPrefix, fun _ => none, persistCount⟩ ⟨db, [], n⟩
      per per where
  length_lt := hlt
  persisted_lt := hlt
  persisted := hdb
  current := hdb
  currentLength_eq := hlength.imp id fun hnone => ⟨hnone, rfl⟩
  persistCount_le := hle
  cached _ _ hx := nomatch hx
  uncached _ _ _ hx := hdb.element_eq _ _ hx
  fresh _ _ _ hx := hdb.element_eq _ _ hx

theorem newVec_eq_some {db : Db} {keyPrefix : UInt8} (hdb : Stores db keyPrefix per)
    (hlt : per.length < u64Bound) :
    ∃ v : DbtVec V, newVec (.new db) keyPrefix = some v ∧ v.Reflects (.new db) per per ∧
      v.currentLength = some per.length := by
  refine ⟨⟨some per.length, keyPrefix, fun _ => none, 0⟩, ?_, of_stores hdb hlt le_rfl (.inl rfl),
    rfl⟩
  have hopened : Stores (SimpleRustyStorage.new db).db
    (new (V := V) (.new db) keyPrefix).keyPrefix per := hdb
  rw [newVec, restoreOrNew]
  rcases persistedLength_eq hopened hlt with hp | ⟨hp, hnil⟩
  · rw [hp]
    rfl
  · rw [hp, hnil]
    rfl

theorem deleteCache_eq_some (h : v.Reflects s cur per) :
    ∃ v', v.deleteCache s.dropUnpersisted = some v' ∧ v'.Reflects s.dropUnpersisted per per ∧
      (v'.currentLength = none → per = []) := by
  rw [deleteCache]
  rcases persistedLength_eq (s := s.dropUnpersisted) h.persisted h.persisted_lt with
    hp | ⟨hp, hnil⟩
  · exact ⟨_, by rw [hp]; rfl, of_stores h.persisted h.persisted_lt h.persistCount_le (.inl rfl),
      nofun⟩
  · exact ⟨_, by rw [hp]; rfl, of_stores h.persisted h.persisted_lt h.persistCount_le (.inr rfl),
      fun _ => hnil⟩

end Reflects

end DbtVec

end NyksNode
