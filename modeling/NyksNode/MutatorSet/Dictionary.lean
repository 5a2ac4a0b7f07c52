import NyksNode.MutatorSet.Update

/-!
# Dictionaries as functions on keys

Every dictionary that the proofs meet holds, for each key of a list, a value that
is determined by the key.  `ChunkDictionary.ofKeys` is that dictionary, and the
operations of the source act on its key list and its value function.
-/

namespace NyksNode

open List Function

namespace Chunk

/-! ## Inserting indices into a chunk -/

theorem insert_of_lt {c : Chunk} {i : ℕ} (hi : i < chunkSize) :
    c.insert i = some ⟨(c.relativeIndices ++ [i]).insertionSort (· ≤ ·)⟩ := if_pos hi

theorem insert_mod (c : Chunk) (i : ℕ) : c.insert (i % chunkSize) =
      some ⟨(c.relativeIndices ++ [i % chunkSize]).insertionSort (· ≤ ·)⟩ :=
  insert_of_lt (Nat.mod_lt _ chunkSize_pos)

theorem contains_mod (c : Chunk) (i : ℕ) :
    c.contains (i % chunkSize) = some (c.relativeIndices.contains (i % chunkSize)) :=
  if_pos (Nat.mod_lt _ chunkSize_pos)

end Chunk

namespace ChunkDictionary
variable {D : Type} {keys : List ℕ} {f g : ℕ → MmrMembershipProof D × Chunk} {k : ℕ}

/-- The dictionary with value `f k` for every key `k` of a list. -/
def ofKeys (keys : List ℕ) (f : ℕ → MmrMembershipProof D × Chunk) : ChunkDictionary D :=
  ⟨keys.map fun k => (k, f k)⟩

@[simp] theorem dictionary_ofKeys : (ofKeys keys f).dictionary = keys.map fun k => (k, f k) := rfl

@[simp] theorem ofKeys_nil : ofKeys [] f = empty := rfl

@[simp] theorem allChunkIndices_ofKeys : (ofKeys keys f).allChunkIndices = keys := by
  simp [allChunkIndices, comp_def]

@[simp] theorem authenticationPaths_ofKeys :
    (ofKeys keys f).authenticationPaths = keys.map fun k => (f k).1 := by
  simp [authenticationPaths, comp_def]

@[simp] theorem leafMutations_ofKeys [Tip5 D] :
    (ofKeys keys f).leafMutations = keys.map fun k => ⟨k, (f k).2.hash, (f k).1⟩ := by
  simp [leafMutations, comp_def]

theorem ofKeys_congr (hfg : ∀ k ∈ keys, f k = g k) : ofKeys keys f = ofKeys keys g := by
  simp only [ofKeys, mk.injEq]
  exact map_congr_left fun k hk => by rw [hfg k hk]

/-- A dictionary whose entries are the values of `f` at their keys. -/
theorem eq_ofKeys {d : ChunkDictionary D} (hd : ∀ e ∈ d.dictionary, e.2 = f e.1) :
    d = ofKeys d.allChunkIndices f := by
  ext1
  rw [dictionary_ofKeys, allChunkIndices, map_map]
  conv_lhs => rw [← map_id d.dictionary]
  exact map_congr_left fun e he => by simp [← hd e he]

/-! ## Reading -/

theorem exists_get {d : ChunkDictionary D} (hk : k ∈ d.allChunkIndices) :
    ∃ v, d.get k = some v := by
  obtain ⟨e, he, rfl⟩ := mem_map.mp hk
  cases hfind : d.dictionary.find? fun e' => e'.1 == e.1 with
  | none => simpa using find?_eq_none.mp hfind e he
  | some e' => exact ⟨e'.2, by rw [get, hfind, Option.map_some]⟩

@[simp] theorem get_ofKeys : (ofKeys keys f).get k = if k ∈ keys then some (f k) else none := by
  induction keys with
  | nil => rfl
  | cons x keys ih =>
    by_cases hx : x = k
    · subst hx; simp [get]
    · have hk : k ≠ x := fun h => hx h.symm
      simp only [get, dictionary_ofKeys, map_cons, mem_cons, hk, false_or] at ih ⊢
      rw [find?_cons_of_neg (by simpa using hx), ih]

@[simp] theorem containsKey_ofKeys : (ofKeys keys f).containsKey k = decide (k ∈ keys) := by
  rw [Bool.eq_iff_iff]
  simp [containsKey]

/-! ## Writing -/

private theorem map_fst_modify (l : List (ChunkEntry D)) (n : ℕ)
    (h : MmrMembershipProof D × Chunk → MmrMembershipProof D × Chunk) :
    (l.modify n fun e => (e.1, h e.2)).map (·.1) = l.map (·.1) := by
  induction l generalizing n with
  | nil => simp
  | cons e l ih =>
    cases n with
    | zero => simp
    | succ n => simp [ih]

@[simp] theorem allChunkIndices_modify (d : ChunkDictionary D) (k : ℕ)
    (h : MmrMembershipProof D × Chunk → MmrMembershipProof D × Chunk) :
    (d.modify k h).allChunkIndices = d.allChunkIndices :=
  map_fst_modify _ _ _

/-- With distinct keys, changing the first entry of a key changes the value of that key. -/
theorem modify_ofKeys (hnd : keys.Nodup)
    (h : MmrMembershipProof D × Chunk → MmrMembershipProof D × Chunk) :
    (ofKeys keys f).modify k h = ofKeys keys (Function.update f k (h (f k))) := by
  ext1
  simp only [modify, dictionary_ofKeys]
  induction keys with
  | nil => simp
  | cons x keys ih =>
    rw [nodup_cons] at hnd
    by_cases hx : x = k
    · subst hx
      have hrest : ∀ y ∈ keys, (y, f y) = (y, update f x (h (f x)) y) := by
        intro y hy
        have hne : y ≠ x := fun heq => hnd.1 (heq ▸ hy)
        rw [update_of_ne hne]
      simp only [map_cons, findIdx_cons, beq_self_eq_true, cond_true,
        modify_zero_cons, update_self, List.cons.injEq, true_and]
      exact map_congr_left hrest
    · have hb : (x == k) = false := by simpa using hx
      simp only [map_cons, findIdx_cons, hb, cond_false, modify_succ_cons,
        update_of_ne hx, ih hnd.2]

theorem insert_ofKeys_last (hk : ∀ x ∈ keys, x < k) (v : MmrMembershipProof D × Chunk) :
    (ofKeys keys f).insert k v = ofKeys (keys ++ [k]) (Function.update f k v) := by
  have hnot : k ∉ keys := fun hmem => lt_irrefl _ (hk k hmem)
  have hcount : (keys.map fun x => (x, f x)).countP (fun e => decide (e.1 < k)) =
      (keys.map fun x => (x, f x)).length := by
    rw [countP_eq_length]
    intro e he
    obtain ⟨x, hx, rfl⟩ := mem_map.mp he
    simpa using hk x hx
  have hold : ∀ x ∈ keys, (x, f x) = (x, update f k v x) := by
    intro x hx
    have hne : x ≠ k := (hk x hx).ne
    rw [update_of_ne hne]
  ext1
  simp only [insert, containsKey_ofKeys, hnot, decide_false, Bool.false_eq_true, if_false,
    dictionary_ofKeys, hcount, insertIdx_length_self, map_append, map_cons, map_nil, update_self]
  rw [map_congr_left hold]

/-- Inserting the value of a key keeps a dictionary that is a function of its keys. -/
theorem exists_insert_ofKeys (hnd : keys.Nodup) (k : ℕ) :
    ∃ keys', (ofKeys keys f).insert k (f k) = ofKeys keys' f ∧ keys'.Nodup ∧
      ∀ c, c ∈ keys' ↔ c = k ∨ c ∈ keys := by
  by_cases hk : k ∈ keys
  · refine ⟨keys, ?_, hnd, fun c => (or_iff_right_of_imp fun hc => hc ▸ hk).symm⟩
    rw [insert, containsKey_ofKeys, decide_eq_true hk, if_pos rfl, modify_ofKeys hnd,
      update_eq_self]
  · set n := (ofKeys keys f).dictionary.countP fun e => decide (e.1 < k) with hn
    have hle : n ≤ keys.length := by
      have hcount : n ≤ (keys.map fun k => (k, f k)).length := countP_le_length
      rwa [length_map] at hcount
    have hperm : (keys.insertIdx n k).Perm (k :: keys) := perm_insertIdx k keys hle
    refine ⟨keys.insertIdx n k, ?_, hperm.nodup_iff.mpr (nodup_cons.mpr ⟨hk, hnd⟩),
      fun c => hperm.mem_iff.trans mem_cons⟩
    rw [insert, containsKey_ofKeys, decide_eq_false hk, if_neg Bool.false_ne_true, ← hn]
    ext1
    exact (map_insertIdx (fun k => (k, f k)) keys n k).symm

theorem allChunkIndices_sublist_insert (d : ChunkDictionary D) (k : ℕ)
    (v : MmrMembershipProof D × Chunk) :
    d.allChunkIndices.Sublist (d.insert k v).allChunkIndices := by
  rw [insert]
  split
  · rw [allChunkIndices_modify]
  · exact (sublist_insertIdx _ _ _).map _

/-! ## Writing paths back -/

private theorem writePaths_map (sel : ℕ → Bool) (p : ℕ → MmrMembershipProof D)
    (es : List (ChunkEntry D)) (rest : List (MmrMembershipProof D)) :
    writePaths sel es ((es.filter fun e => sel e.1).map (fun e => p e.1) ++ rest) =
      (es.map fun e => if sel e.1 then (e.1, p e.1, e.2.2) else e, rest) := by
  induction es with
  | nil => rfl
  | cons e es ih =>
    by_cases he : sel e.1 = true
    · rw [writePaths, if_pos he, filter_cons_of_pos (by simpa using he), map_cons, cons_append]
      simp [ih, he]
    · rw [writePaths, if_neg he, filter_cons_of_neg (by simpa using he)]
      simp [ih, he]

/-- Writing, to every selected entry, a path that depends on its key. -/
theorem writeAllPaths_map (ds : List ((ℕ → Bool) × ChunkDictionary D))
    (p : ℕ → MmrMembershipProof D) : writeAllPaths ds
        ((ds.flatMap fun d => d.2.dictionary.filter fun e => d.1 e.1).map fun e => p e.1) =
      ds.map fun d => ⟨d.2.dictionary.map fun e => if d.1 e.1 then (e.1, p e.1, e.2.2) else e⟩ := by
  induction ds with
  | nil => rfl
  | cons d ds ih =>
    rw [writeAllPaths, flatMap_cons, map_append, writePaths_map]
    simp [ih]

/-- The paths of dictionaries that hold the values of one function. -/
theorem flatMap_authenticationPaths_ofKeys (kss : List (List ℕ))
    (f : ℕ → MmrMembershipProof D × Chunk) :
    (kss.map fun keys => ofKeys keys f).flatMap (·.authenticationPaths) =
      kss.flatten.map fun k => (f k).1 := by
  simp [flatMap_def, comp_def, authenticationPaths_ofKeys]

theorem flatMap_allChunkIndices_ofKeys (kss : List (List ℕ))
    (f : ℕ → MmrMembershipProof D × Chunk) :
    (kss.map fun keys => ofKeys keys f).flatMap (·.allChunkIndices) = kss.flatten := by
  simp [flatMap_def, comp_def]

theorem writeAllPaths_ofKeys (kss : List (List ℕ)) (f : ℕ → MmrMembershipProof D × Chunk)
    (p : ℕ → MmrMembershipProof D) :
    writeAllPaths ((kss.map fun keys => ofKeys keys f).map fun d => ((fun _ => true), d))
        (kss.flatten.map p) = kss.map fun keys => ofKeys keys fun k => (p k, (f k).2) := by
  have hwrite := writeAllPaths_map ((kss.map fun keys => ofKeys keys f).map
    fun d => ((fun _ => true : ℕ → Bool), d)) p
  refine Eq.trans ?_ (hwrite.trans ?_)
  · congr 1
    simp [flatMap_def, map_flatten, comp_def]
  · simp [ofKeys, comp_def]

@[simp] theorem length_writeAllPaths (ds : List ((ℕ → Bool) × ChunkDictionary D))
    (ps : List (MmrMembershipProof D)) : (writeAllPaths ds ps).length = ds.length := by
  induction ds generalizing ps with
  | nil => rfl
  | cons d ds ih => simp [writeAllPaths, ih]

private theorem map_fst_writePaths (sel : ℕ → Bool) (es : List (ChunkEntry D))
    (ps : List (MmrMembershipProof D)) : (writePaths sel es ps).1.map (·.1) = es.map (·.1) := by
  induction es generalizing ps with
  | nil => rfl
  | cons e es ih =>
    rw [writePaths]
    split <;> simp [ih]

theorem map_allChunkIndices_writeAllPaths (ds : List ((ℕ → Bool) × ChunkDictionary D))
    (ps : List (MmrMembershipProof D)) :
    (writeAllPaths ds ps).map allChunkIndices = ds.map fun d => d.2.allChunkIndices := by
  induction ds generalizing ps with
  | nil => rfl
  | cons d ds ih =>
    simp only [writeAllPaths, map_cons, ih, List.cons.injEq, and_true]
    exact map_fst_writePaths _ _ _

end ChunkDictionary

end NyksNode
