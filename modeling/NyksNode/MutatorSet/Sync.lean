import NyksNode.MutatorSet.Removal

/-!
# Updates keep records in step

The dictionaries of a ledger are functions of the ledger, so an update function is
specified by one equation: from the dictionaries of the ledger before the change it
makes those of the ledger after the change.
-/

namespace NyksNode.Ledger

open List Function AbsoluteIndexSet ChunkDictionary LawfulMmr MmrAccumulator RemovalRecord

variable {D : Type} [Tip5 D] [Inhabited D] {L : Ledger D} {rr : RemovalRecord D}

/-! ## The chunks that a removal changes -/

theorem map_mod_bloomIndex (is : List ℕ) :
    is.map (· % chunkSize) = (is.map bloomIndex).map (· % chunkSize) := by
  simp [comp_def]

variable {g : ℕ × List ℕ}

omit [Tip5 D] [Inhabited D] in
theorem div_of_mem_group (hg : g ∈ rr.getChunkidxToIndicesDict) :
    ∀ j ∈ g.2.map bloomIndex, j / chunkSize = g.1 := by
  intro j hj
  obtain ⟨i, hi, rfl⟩ := mem_map.mp hj
  rw [bloomIndex_div, (chunkIndexOf_of_mem_indicesToHashMap hg hi).2]

/-- A chunk after a removal has the indices of its group on top of its old ones. -/
theorem chunk_remove_group (hs : L.Synced rr) (hg : g ∈ rr.getChunkidxToIndicesDict) :
    (L.remove rr hs).chunk g.1 =
      ⟨SlidingFilter.chunk chunkSize (g.2.map bloomIndex + L.bits) g.1⟩ := by
  have hgroup : ((rr.absoluteIndices.bloomIndices : Multiset ℕ).filter
      fun j => j / chunkSize = g.1) = g.2.map bloomIndex := by
    rw [((mem_groupByKey chunkIndexOf).mp hg).2, Multiset.filter_coe, bloomIndices, filter_map]
    simp [comp_def]
  have hself : ((g.2.map bloomIndex : Multiset ℕ).filter fun j => j / chunkSize = g.1) =
      g.2.map bloomIndex := Multiset.filter_eq_self.mpr (div_of_mem_group hg)
  refine Chunk.ext (SlidingFilter.chunk_congr ?_)
  rw [bits_remove, Multiset.filter_add, Multiset.filter_add, hgroup, hself]

/-- The indices of one group turn the old chunk into the new one. -/
theorem insertAll_group (hs : L.Synced rr) (hg : g ∈ rr.getChunkidxToIndicesDict) :
    (L.chunk g.1).insertAll (g.2.map (· % chunkSize)) = some ((L.remove rr hs).chunk g.1) := by
  rw [map_mod_bloomIndex, chunk_remove_group hs hg]
  exact Chunk.insertAll_chunk (div_of_mem_group hg)

variable {c : ℕ}

omit [Tip5 D] [Inhabited D] in
theorem mem_keys_groups :
    c ∈ rr.getChunkidxToIndicesDict.map (·.1) ↔ c ∈ rr.absoluteIndices.chunkIndices := by
  rw [getChunkidxToIndicesDict, indicesToHashMap, map_fst_groupByKey]
  rfl

theorem chunk_remove_of_notMem_chunkIndices (hs : L.Synced rr) (hc : c < L.batchIndex)
    (hnot : c ∉ rr.absoluteIndices.chunkIndices) : (L.remove rr hs).chunk c = L.chunk c :=
  chunk_remove_of_notMem hs hc fun hmem =>
    hnot (mem_chunkIndices.mpr (hs.mem_keys.mp hmem).2)

/-- The removed record has the chunks of its groups that are inactive. -/
theorem Synced.get_of_mem_groups (hs : L.Synced rr) (hg : g ∈ rr.getChunkidxToIndicesDict) :
    rr.targetChunks.get g.1 =
      if g.1 < L.batchIndex then some (L.authenticatedChunk g.1) else none := by
  have hmem : g.1 ∈ rr.targetChunks.allChunkIndices ↔ g.1 < L.batchIndex := by
    rw [hs.mem_keys, and_iff_left_iff_imp]
    exact fun _ => ((mem_groupByKey chunkIndexOf).mp hg).1
  rw [hs.chunks, dictionary, get_ofKeys]
  simp [hmem]

/-- The dictionary of `keys` once the chunks of `done` have their new indices.  Its paths are
still those of the ledger. -/
def partialDictionary (L L' : Ledger D) (done keys : List ℕ) : ChunkDictionary D :=
  .ofKeys keys fun c =>
    (membershipProof L.inactiveLeafs c, if c ∈ done then L'.chunk c else L.chunk c)

theorem partialDictionary_nil (L L' : Ledger D) (keys : List ℕ) :
    partialDictionary L L' [] keys = L.dictionary keys := by
  simp only [partialDictionary, not_mem_nil, if_false]
  rfl

theorem partialDictionary_cons_of_notMem (L L' : Ledger D) (done : List ℕ) {keys : List ℕ}
    (hc : c ∉ keys) :
    partialDictionary L L' (c :: done) keys = partialDictionary L L' done keys := by
  refine ofKeys_congr fun x hx => ?_
  have hne : x ≠ c := fun heq => hc (heq ▸ hx)
  simp [hne]

variable {done : List ℕ}

theorem get_partialDictionary (L L' : Ledger D) (keys : List ℕ) (hc : c ∉ done) :
    (partialDictionary L L' done keys).get c =
      if c ∈ keys then some (membershipProof L.inactiveLeafs c, L.chunk c) else none := by
  simp [partialDictionary, hc]

theorem modify_partialDictionary (L L' : Ledger D) (done : List ℕ) {keys : List ℕ}
    (hnd : keys.Nodup) (c : ℕ) :
    (partialDictionary L L' done keys).modify c (fun v => (v.1, L'.chunk c)) =
      partialDictionary L L' (c :: done) keys := by
  rw [partialDictionary, modify_ofKeys hnd]
  refine ofKeys_congr fun x _ => ?_
  by_cases hx : x = c
  · subst hx
    simp
  · simp [hx]

def leafMutation (L L' : Ledger D) (c : ℕ) : LeafMutation D :=
  ⟨c, (L'.chunk c).hash, membershipProof L.inactiveLeafs c⟩

/-- The leaf mutations collected so far: those of the inactive chunks among `done`, each once. -/
structure Collected (L L' : Ledger D) (done : List ℕ) (ms : List (LeafMutation D)) : Prop where
  nodup : (ms.map (·.leafIndex)).Nodup
  eq_leafMutation : ∀ m ∈ ms, m = leafMutation L L' m.leafIndex
  mem_iff : ∀ c, c ∈ ms.map (·.leafIndex) ↔ c ∈ done ∧ c < L.batchIndex

theorem Collected.nil (L L' : Ledger D) : Collected L L' [] [] := ⟨by simp, by simp, by simp⟩

/-- Collecting the leaf of chunk `c`, if it is inactive. -/
theorem Collected.cons {L L' : Ledger D} {ms : List (LeafMutation D)} (hms : Collected L L' done ms)
    (hc : c ∉ done) : Collected L L' (c :: done)
      (if c < L.batchIndex then ms ++ [leafMutation L L' c] else ms) := by
  have hnew : c ∉ ms.map (·.leafIndex) := fun hmem => hc ((hms.mem_iff c).mp hmem).1
  split
  · rename_i hlt
    constructor
    · rw [map_append, nodup_append']
      refine ⟨hms.nodup, by simp, ?_⟩
      simpa [disjoint_singleton, leafMutation] using hnew
    · exact forall_mem_append.mpr ⟨hms.eq_leafMutation, forall_mem_singleton.mpr rfl⟩
    · intro x
      rw [map_append, mem_append, hms.mem_iff, mem_cons]
      by_cases hx : x = c
      · subst hx
        simp [leafMutation, hlt]
      · simp [leafMutation, hx]
  · rename_i hge
    refine ⟨hms.nodup, hms.eq_leafMutation, fun x => ?_⟩
    rw [hms.mem_iff, mem_cons]
    by_cases hx : x = c
    · subst hx
      simp [hge]
    · simp [hx]

/-! ## The loops of the mutation argument -/

omit [Tip5 D] [Inhabited D] in
theorem containsKey_iff (s : MutationArgument D) (c : ℕ) :
    s.containsKey c = true ↔ c ∈ s.leafMutations.map (·.leafIndex) := by
  simp [MutationArgument.containsKey]

/-- The leafs after chunk `c` has been looked at: an inactive chunk is collected once. -/
def collectLeaf (L L' : Ledger D) (c : ℕ) (ms : List (LeafMutation D)) : List (LeafMutation D) :=
  if c ∈ ms.map (·.leafIndex) then ms
  else if c < L.batchIndex then ms ++ [leafMutation L L' c] else ms

theorem collectLeaf_collectLeaf (L L' : Ledger D) (c : ℕ) (ms : List (LeafMutation D)) :
    collectLeaf L L' c (collectLeaf L L' c ms) = collectLeaf L L' c ms := by
  by_cases hc : c ∈ ms.map (·.leafIndex)
  · simp [collectLeaf, hc]
  · by_cases hlt : c < L.batchIndex
    · simp [collectLeaf, hc, hlt, leafMutation]
    · simp [collectLeaf, hc, hlt]

theorem leafMutations_collect (L L' : Ledger D) (hc : c < L.batchIndex) (s : MutationArgument D) :
    (s.collect c (membershipProof L.inactiveLeafs c) (L'.chunk c)) =
      ⟨s.mutatedChunkDictionaries, collectLeaf L L' c s.leafMutations⟩ := by
  by_cases hmem : c ∈ s.leafMutations.map (·.leafIndex)
  · rw [MutationArgument.collect, if_pos ((containsKey_iff s c).mpr hmem), collectLeaf, if_pos hmem]
  · rw [MutationArgument.collect, if_neg (mt (containsKey_iff s c).mp hmem), collectLeaf,
      if_neg hmem, if_pos hc]
    rfl

section
variable (hs : L.Synced rr) {g : ℕ × List ℕ} (hg : g ∈ rr.getChunkidxToIndicesDict)
include hg

theorem applyToDictionary_partialDictionary {done keys : List ℕ} (hnd : keys.Nodup)
    (hkeys : ∀ c ∈ keys, c < L.batchIndex) (hdone : g.1 ∉ done) (i : ℕ) (s : MutationArgument D) :
    ∃ mutated, applyToDictionary rr g i (partialDictionary L (L.remove rr hs) done keys) s =
      some (partialDictionary L (L.remove rr hs) (g.1 :: done) keys,
        ⟨mutated, collectLeaf L (L.remove rr hs) g.1 s.leafMutations⟩) := by
  have hins := insertAll_group hs hg
  by_cases hmem : g.1 ∈ keys
  · -- the dictionary has the chunk
    refine ⟨s.mutatedChunkDictionaries.insert i, ?_⟩
    rw [applyToDictionary, get_partialDictionary _ _ _ hdone, if_pos hmem]
    simp only [hins, some_bind, modify_partialDictionary _ _ _ hnd,
      leafMutations_collect L _ (hkeys _ hmem)]
    rfl
  · refine ⟨s.mutatedChunkDictionaries, ?_⟩
    rw [applyToDictionary, get_partialDictionary _ _ _ hdone, if_neg hmem,
      partialDictionary_cons_of_notMem _ _ _ hmem]
    by_cases hlt : g.1 < L.batchIndex
    · -- the record that is applied has the chunk
      simp only [hs.get_of_mem_groups hg, if_pos hlt, authenticatedChunk, hins,
        some_bind, leafMutations_collect L _ hlt]
      split
      · rename_i hc
        rw [collectLeaf, if_pos ((containsKey_iff s _).mp hc)]
      · rfl
    · -- the chunk is active
      simp [hs.get_of_mem_groups hg, collectLeaf, hlt]

/-- The group of a chunk, applied to all dictionaries: only the first one to see an inactive
chunk collects its leaf. -/
theorem applyToDictionaries_partialDictionary {done : List ℕ} {kss : List (List ℕ)}
    (hnd : ∀ keys ∈ kss, keys.Nodup) (hkeys : ∀ keys ∈ kss, ∀ c ∈ keys, c < L.batchIndex)
    (hdone : g.1 ∉ done) (i : ℕ) (s : MutationArgument D) : ∃ mutated, applyToDictionaries rr g i
        (kss.map (partialDictionary L (L.remove rr hs) done)) s =
      some (kss.map (partialDictionary L (L.remove rr hs) (g.1 :: done)),
        ⟨mutated, if kss = [] then s.leafMutations
          else collectLeaf L (L.remove rr hs) g.1 s.leafMutations⟩) := by
  induction kss generalizing i s with
  | nil => exact ⟨s.mutatedChunkDictionaries, by simp [applyToDictionaries]⟩
  | cons keys kss ih =>
    obtain ⟨m₁, h₁⟩ := applyToDictionary_partialDictionary hs hg (hnd keys mem_cons_self)
      (hkeys keys mem_cons_self) hdone i s
    obtain ⟨m₂, h₂⟩ := ih (fun k hk => hnd k (mem_cons_of_mem _ hk))
      (fun k hk => hkeys k (mem_cons_of_mem _ hk)) (i + 1)
      ⟨m₁, collectLeaf L (L.remove rr hs) g.1 s.leafMutations⟩
    refine ⟨m₂, ?_⟩
    simp [applyToDictionaries, h₁, h₂, reduceCtorEq, collectLeaf_collectLeaf]

end

theorem foldlM_applyToDictionaries (hs : L.Synced rr) {kss : List (List ℕ)} (hne : kss ≠ [])
    (hnd : ∀ keys ∈ kss, keys.Nodup) (hkeys : ∀ keys ∈ kss, ∀ c ∈ keys, c < L.batchIndex)
    {gs : List (ℕ × List ℕ)} (hgs : ∀ g ∈ gs, g ∈ rr.getChunkidxToIndicesDict)
    (hgnd : (gs.map (·.1)).Nodup) (hdone : ∀ g ∈ gs, g.1 ∉ done) {s : MutationArgument D}
    (hms : Collected L (L.remove rr hs) done s.leafMutations) :
    ∃ s', gs.foldlM (fun s g => applyToDictionaries rr g 0 s.1 s.2)
          (kss.map (partialDictionary L (L.remove rr hs) done), s) =
        some (kss.map (partialDictionary L (L.remove rr hs) ((gs.map (·.1)).reverse ++ done)), s') ∧
      Collected L (L.remove rr hs) ((gs.map (·.1)).reverse ++ done) s'.leafMutations := by
  -- the invariant is `Collected`, over the chunks whose groups have been applied
  induction gs generalizing done s with
  | nil => exact ⟨s, rfl, hms⟩
  | cons g gs ih =>
    rw [map_cons, nodup_cons] at hgnd
    have hg := hdone g mem_cons_self
    obtain ⟨m, hm⟩ := applyToDictionaries_partialDictionary hs (hgs g mem_cons_self) hnd hkeys
      hg 0 s
    have hnew : g.1 ∉ s.leafMutations.map (·.leafIndex) :=
      fun hmem => hg ((hms.mem_iff g.1).mp hmem).1
    simp only [hne, if_false, collectLeaf, if_neg hnew] at hm
    obtain ⟨s', hfold, hs'⟩ := ih (fun x hx => hgs x (mem_cons_of_mem _ hx)) hgnd.2
      (fun x hx hmem => by
        rcases mem_cons.mp hmem with heq | hmem
        · exact hgnd.1 (mem_map.mpr ⟨x, hx, heq⟩)
        · exact hdone x (mem_cons_of_mem _ hx) hmem)
      (s := ⟨m, if g.1 < L.batchIndex then
        s.leafMutations ++ [leafMutation L (L.remove rr hs) g.1] else s.leafMutations⟩)
      (hms.cons hg)
    refine ⟨s', ?_, ?_⟩
    · rw [foldlM_cons_of hm, hfold]
      simp
    · simpa using hs'

omit [Inhabited D] in
theorem getBatchMutationArgument_nil (rr : RemovalRecord D) :
    getBatchMutationArgumentForRemovalRecord rr [] = some ([], ⟨[], []⟩) := by
  exact foldlM_simulates (l := rr.getChunkidxToIndicesDict)
    (fun _ : Unit => (([] : List (ChunkDictionary D)), (⟨[], []⟩ : MutationArgument D)))
    (fun _ _ => ()) (fun _ _ _ => rfl) ()

/-- **The mutation argument of a removal.**  The chunks of all dictionaries are as after the
removal, and the collected leafs are exactly those that the removal changes. -/
theorem getBatchMutationArgument_dictionary (hs : L.Synced rr) {kss : List (List ℕ)}
    (hne : kss ≠ []) (hnd : ∀ keys ∈ kss, keys.Nodup)
    (hkeys : ∀ keys ∈ kss, ∀ c ∈ keys, c < L.batchIndex) :
    ∃ s, getBatchMutationArgumentForRemovalRecord rr (kss.map L.dictionary) =
        some (kss.map fun keys => .ofKeys keys fun c =>
          (membershipProof L.inactiveLeafs c, (L.remove rr hs).chunk c), s) ∧
      Collected L (L.remove rr hs) rr.absoluteIndices.chunkIndices s.leafMutations := by
  have hstart : kss.map L.dictionary = kss.map (partialDictionary L (L.remove rr hs) []) :=
    map_congr_left fun keys _ => (partialDictionary_nil _ _ keys).symm
  obtain ⟨s, hfold, hms⟩ := foldlM_applyToDictionaries hs hne hnd hkeys (fun g hg => hg)
    (nodup_keys_groupByKey chunkIndexOf _) (by simp) (s := ⟨[], []⟩) (.nil _ _)
  have hdone : ∀ c, c ∈ (rr.getChunkidxToIndicesDict.map (·.1)).reverse ++ [] ↔
      c ∈ rr.absoluteIndices.chunkIndices := by
    intro c
    rw [append_nil, mem_reverse, mem_keys_groups]
  refine ⟨s, ?_, hms.nodup, hms.eq_leafMutation, fun c => by rw [hms.mem_iff, hdone]⟩
  rw [getBatchMutationArgumentForRemovalRecord, hstart, hfold]
  congr 2
  refine map_congr_left fun keys hks => ofKeys_congr fun c hc => ?_
  simp only [hdone]
  split
  · rfl
  · rename_i hnot
    rw [chunk_remove_of_notMem_chunkIndices hs (hkeys keys hks c hc) hnot]

/-! ## Records of the changed ledgers -/

/-- A record with given keys, as a ledger has its chunks. -/
def refresh (L : Ledger D) (r : RemovalRecord D) (keys : List ℕ) : RemovalRecord D :=
  ⟨r.absoluteIndices, L.dictionary keys⟩

@[simp] theorem absoluteIndices_refresh (r : RemovalRecord D) (keys : List ℕ) :
    (L.refresh r keys).absoluteIndices = r.absoluteIndices := rfl

@[simp] theorem allChunkIndices_refresh (r : RemovalRecord D) (keys : List ℕ) :
    (L.refresh r keys).targetChunks.allChunkIndices = keys :=
  allChunkIndices_ofKeys

def refreshFromRemove (hs : L.Synced rr) (r : RemovalRecord D) : RemovalRecord D :=
  (L.remove rr hs).refresh r r.targetChunks.allChunkIndices

variable {r : RemovalRecord D}

theorem Synced.refreshFromRemove (hs : L.Synced rr) (hr : L.Synced r) :
    (L.remove rr hs).Synced (refreshFromRemove hs r) where
  bits_lt := hr.bits_lt
  keys := by
    rw [Ledger.refreshFromRemove, allChunkIndices_refresh, hr.keys]
    rfl
  chunks := by rw [Ledger.refreshFromRemove, allChunkIndices_refresh, refresh]

omit [Tip5 D] [Inhabited D] in
/-- The keys of a record after an addition: a chunk that becomes inactive goes to the end. -/
def keysAfterAdd (L : Ledger D) (r : RemovalRecord D) : List ℕ :=
  if windowSlides L.commitments.length ∧ L.batchIndex ∈ r.absoluteIndices.chunkIndices then
    r.targetChunks.allChunkIndices ++ [L.batchIndex]
  else r.targetChunks.allChunkIndices

omit [Tip5 D] [Inhabited D] in
theorem mem_keysAfterAdd {L : Ledger D} :
    c ∈ L.keysAfterAdd r ↔ c ∈ r.targetChunks.allChunkIndices ∨
      windowSlides L.commitments.length = true ∧ c = L.batchIndex ∧
        c ∈ r.absoluteIndices.chunkIndices := by
  rw [keysAfterAdd]
  split
  · rename_i hb
    rw [mem_append, mem_singleton]
    refine or_congr_right ⟨fun hc => ⟨hb.1, hc, hc ▸ hb.2⟩, fun hc => hc.2.1⟩
  · rename_i hb
    refine ⟨.inl, fun hc => hc.resolve_right ?_⟩
    rintro ⟨hs, rfl, hmem⟩
    exact hb ⟨hs, hmem⟩

theorem nodup_keysAfterAdd (hr : L.Supplies r) (hnd : r.targetChunks.allChunkIndices.Nodup) :
    (L.keysAfterAdd r).Nodup := by
  rw [keysAfterAdd]
  split
  · rw [nodup_append']
    refine ⟨hnd, by simp, ?_⟩
    rw [disjoint_singleton]
    exact fun hmem => lt_irrefl _ (hr.key_lt hmem)
  · exact hnd

section
variable (d : D) (hlt : L.commitments.length + 1 < u64Bound)

def refreshFromAdd (L : Ledger D) (d : D) (hlt : L.commitments.length + 1 < u64Bound)
    (r : RemovalRecord D) : RemovalRecord D :=
  (L.add d hlt).refresh r (L.keysAfterAdd r)

omit [Tip5 D] [Inhabited D] in
theorem windowStart_le_add : L.windowStart ≤ (L.add d hlt).windowStart := by
  rw [windowStart, windowStart, batchIndex_add]
  refine Nat.mul_le_mul_right _ ?_
  split
  · exact Nat.le_succ _
  · exact le_rfl

theorem Supplies.refreshFromAdd {r : RemovalRecord D} (hr : L.Supplies r) :
    (L.add d hlt).Supplies (L.refreshFromAdd d hlt r) where
  keys := by
    ext c
    rw [Ledger.refreshFromAdd, allChunkIndices_refresh, mem_toFinset, mem_requiredChunks,
      mem_keysAfterAdd, batchIndex_add, absoluteIndices_refresh, hr.mem_keys, mem_chunkIndices]
    cases windowSlides L.commitments.length with
    | false => simp
    | true =>
      simp only [true_and, if_true, Nat.lt_succ_iff_lt_or_eq]
      rw [or_and_right]
  chunks := by rw [Ledger.refreshFromAdd, allChunkIndices_refresh, refresh]

theorem Synced.refreshFromAdd {r : RemovalRecord D} (hr : L.Synced r) :
    (L.add d hlt).Synced (L.refreshFromAdd d hlt r) where
  bits_lt := fun j hj => (hr.bits_lt j hj).trans_le
    (Nat.add_le_add_right (windowStart_le_add d hlt) _)
  keys := (hr.supplies.refreshFromAdd d hlt).keys
  chunks := (hr.supplies.refreshFromAdd d hlt).chunks

theorem authenticatedChunk_add_of_not_slides (hs : windowSlides L.commitments.length = false) :
    (L.add d hlt).authenticatedChunk = L.authenticatedChunk := by
  funext c
  simp [authenticatedChunk, inactiveLeafs_add_of_not_slides d hlt hs]

end

/-- A record after the entry for the new chunk has been inserted. -/
theorem insertSlidChunk_supplied (hr : L.Supplies r) (hs : windowSlides L.commitments.length = true)
    (v : MmrMembershipProof D × Chunk) : r.insertSlidChunk L.batchIndex v =
      ⟨r.absoluteIndices, .ofKeys (L.keysAfterAdd r)
        (Function.update L.authenticatedChunk L.batchIndex v)⟩ := by
  have hlast : ∀ c ∈ r.targetChunks.allChunkIndices, c < L.batchIndex := fun c => hr.key_lt
  rw [insertSlidChunk, keysAfterAdd]
  by_cases hb : L.batchIndex ∈ r.absoluteIndices.chunkIndices
  · rw [if_pos (by simpa using hb), if_pos ⟨hs, hb⟩, hr.chunks, dictionary,
      insert_ofKeys_last hlast, allChunkIndices_ofKeys]
  · rw [if_neg (by simpa using hb), if_neg fun hand => hb hand.2]
    ext1
    · rfl
    · conv_lhs => rw [hr.chunks, dictionary]
      refine ofKeys_congr fun c hc => ?_
      rw [update_of_ne (hlast c hc).ne]

/-- The paths selected for an update from an append are those of the old chunks. -/
theorem selectedForAppend_iff (hr : L.Supplies r) (hc : c ∈ L.keysAfterAdd r) :
    selectedForAppend L.batchIndex r c = true ↔ c < L.batchIndex := by
  rw [selectedForAppend, Bool.and_eq_true, bne_iff_ne]
  constructor
  · rintro ⟨-, hne⟩
    rcases mem_keysAfterAdd.mp hc with hmem | ⟨-, heq, -⟩
    · exact hr.key_lt hmem
    · exact absurd heq hne
  · intro hlt
    rcases mem_keysAfterAdd.mp hc with hmem | ⟨-, heq, -⟩
    · refine ⟨any_eq_true.mpr ⟨c, ?_, by simpa using hlt⟩, hlt.ne⟩
      exact mem_chunkIndices.mpr (hr.mem_keys.mp hmem).2
    · exact absurd heq hlt.ne

/-! ## Records follow a removal -/

variable [DecidableEq D] [MmrOps D] [LawfulMmr D]

theorem updateDictionariesFromRemove_dictionary (hs : L.Synced rr) (kss : List (List ℕ))
    (hnd : ∀ keys ∈ kss, keys.Nodup) (hkeys : ∀ keys ∈ kss, ∀ c ∈ keys, c < L.batchIndex) :
    ∃ r, updateDictionariesFromRemove rr (kss.map L.dictionary) =
      some (kss.map (L.remove rr hs).dictionary, r) := by
  rcases eq_or_ne kss [] with rfl | hne
  · have hlaw := batchUpdateFromBatchLeafMutation_ofLeafs L.inactiveLeafs [] []
      (by simp) (by simp) (by simp [AuthenticMutations])
    obtain ⟨r, hr, -⟩ := Option.map_eq_some_iff.mp hlaw
    rw [map_nil] at hr
    refine ⟨(⟨[], []⟩, r.2), ?_⟩
    simp [updateDictionariesFromRemove, getBatchMutationArgument_nil, hr, writeAllPaths]
  · obtain ⟨s, hs', hms⟩ := getBatchMutationArgument_dictionary hs hne hnd hkeys
    have hall : ∀ c ∈ kss.flatten, c < L.inactiveLeafs.length := by
      intro c hc
      obtain ⟨keys, hks, hc⟩ := mem_flatten.mp hc
      simpa using hkeys keys hks c hc
    have hauth : AuthenticMutations L.inactiveLeafs s.leafMutations := by
      intro m hm
      have hlt := ((hms.mem_iff m.leafIndex).mp (mem_map_of_mem hm)).2
      refine ⟨by simpa using hlt, ?_⟩
      rw [hms.eq_leafMutation m hm]
      rfl
    have happly : Merkle.applyMutations L.inactiveLeafs s.leafMutations =
        (L.remove rr hs).inactiveLeafs := by
      refine applyMutations_remove hs hms.nodup (fun m hm => ?_) fun c hc => ?_
      · rw [hms.eq_leafMutation m hm]
        rfl
      · exact (hms.mem_iff c).mpr ⟨mem_chunkIndices.mpr (hs.mem_keys.mp hc).2, hs.key_lt hc⟩
    have hlaw := batchUpdateFromBatchLeafMutation_ofLeafs L.inactiveLeafs
      (kss.flatten) s.leafMutations hall hms.nodup hauth
    rw [happly] at hlaw
    obtain ⟨r, hr, hpaths⟩ := Option.map_eq_some_iff.mp hlaw
    refine ⟨(s, r.2), ?_⟩
    rw [updateDictionariesFromRemove, hs', some_bind]
    simp only [flatMap_authenticationPaths_ofKeys,
      flatMap_allChunkIndices_ofKeys, hr, hpaths, some_bind, writeAllPaths_ofKeys]
    rfl

theorem batchUpdateFromRemove_synced (hs : L.Synced rr) {rrs : List (RemovalRecord D)}
    (hrrs : ∀ r ∈ rrs, L.Synced r) (hnd : ∀ r ∈ rrs, r.targetChunks.allChunkIndices.Nodup) :
    batchUpdateFromRemove rrs rr = some (rrs.map (refreshFromRemove hs)) := by
  have hdicts : rrs.map (·.targetChunks) =
      (rrs.map fun r => r.targetChunks.allChunkIndices).map L.dictionary := by
    rw [map_map]
    exact map_congr_left fun r hr => (hrrs r hr).chunks
  obtain ⟨r, hr⟩ := updateDictionariesFromRemove_dictionary hs
    (rrs.map fun r => r.targetChunks.allChunkIndices)
    (by simpa using hnd)
    (by
      intro keys hks c hc
      obtain ⟨r, hr, rfl⟩ := mem_map.mp hks
      exact (hrrs r hr).key_lt hc)
  rw [batchUpdateFromRemove, hdicts, hr, some_bind]
  simp only [map_map, zipWith_map_right, zipWith_self]
  rfl

/-! ## Records follow an addition -/

section
variable (d : D) (hlt : L.commitments.length + 1 < u64Bound)

theorem slidingChunk_accumulator (hs : windowSlides L.commitments.length = true) :
    slidingChunk L.accumulator = some ((L.add d hlt).authenticatedChunk L.batchIndex) := by
  have hb : L.inactiveLeafs.length + 1 < u64Bound := by
    have := L.batchIndex_lt
    rw [length_inactiveLeafs, u64Bound]
    omega
  have happ := append_ofLeafs L.inactiveLeafs (L.chunk L.batchIndex).hash hb
  have hcount : L.commitments.length / batchSize - 1 = L.batchIndex :=
    div_batchSize_of_windowSlides hs
  rw [slidingChunk, aocl_accumulator, swbfInactive_accumulator, swbfActive_accumulator,
    slidChunk_window, numLeafs_ofLeafs, numLeafs_ofLeafs,
    length_inactiveLeafs, if_pos hcount, happ, some_bind,
    authenticatedChunk, chunk_add, inactiveLeafs_add_of_slides d hlt hs, length_inactiveLeafs]

variable {rrs : List (RemovalRecord D)}

theorem updatePathsFromAppend_supplied (hrrs : ∀ r ∈ rrs, L.Supplies r)
    (hs : windowSlides L.commitments.length = true) : updatePathsFromAppend
        (rrs.map fun r => ⟨r.absoluteIndices, .ofKeys (L.keysAfterAdd r)
          (Function.update L.authenticatedChunk L.batchIndex
            ((L.add d hlt).authenticatedChunk L.batchIndex))⟩)
        L.accumulator L.batchIndex (L.chunk L.batchIndex).hash =
      rrs.map (L.refreshFromAdd d hlt) := by
  set withEntry : RemovalRecord D → RemovalRecord D := fun r =>
    ⟨r.absoluteIndices, .ofKeys (L.keysAfterAdd r) (update L.authenticatedChunk L.batchIndex
        ((L.add d hlt).authenticatedChunk L.batchIndex))⟩ with hwith
  set selected := (rrs.map withEntry).flatMap fun r =>
    r.targetChunks.dictionary.filter fun e =>
      selectedForAppend L.batchIndex r e.1 with hsel
  have hentry : ∀ e ∈ selected, e.1 < L.batchIndex ∧
      e.2.1 = membershipProof L.inactiveLeafs e.1 := by
    intro e he
    obtain ⟨r', hr', he⟩ := mem_flatMap.mp he
    obtain ⟨r, hr, rfl⟩ := mem_map.mp hr'
    obtain ⟨hmem, hsele⟩ := mem_filter.mp he
    obtain ⟨c, hc, rfl⟩ := mem_map.mp hmem
    have hc' : c < L.batchIndex := (selectedForAppend_iff (hrrs r hr) hc).mp hsele
    refine ⟨hc', ?_⟩
    simp only [update_of_ne hc'.ne]
    rfl
  have hpaths : selected.map (·.2.1) =
      (selected.map (·.1)).map (membershipProof L.inactiveLeafs) := by
    rw [map_map]
    exact map_congr_left fun e he => (hentry e he).2
  have hlaw := batchUpdateFromAppend_ofLeafs L.inactiveLeafs (L.chunk L.batchIndex).hash
    (selected.map (·.1)) (by
      intro c hc
      obtain ⟨e, he, rfl⟩ := mem_map.mp hc
      simpa using (hentry e he).1)
  rw [← inactiveLeafs_add_of_slides d hlt hs, ← hpaths, map_map] at hlaw
  have hwrite := writeAllPaths_map
    ((rrs.map withEntry).map fun r =>
      (selectedForAppend L.batchIndex r, r.targetChunks))
    (membershipProof (L.add d hlt).inactiveLeafs)
  rw [flatMap_map, ← hsel] at hwrite
  rw [updatePathsFromAppend, swbfInactive_accumulator, numLeafs_ofLeafs, ← hsel, hlaw]
  refine (congrArg _ hwrite).trans ?_
  simp only [map_map, zipWith_map_right, zipWith_map_left, zipWith_self]
  refine map_congr_left fun r hr => RemovalRecord.ext rfl (ChunkDictionary.ext ?_)
  simp only [hwith, Function.comp_def, ChunkDictionary.dictionary_ofKeys, map_map,
    refreshFromAdd, refresh, dictionary]
  refine map_congr_left fun c hc => ?_
  have hiff := selectedForAppend_iff (hrrs r hr) hc
  have hsame : selectedForAppend L.batchIndex (withEntry r) c =
      selectedForAppend L.batchIndex r c := rfl
  by_cases hb : c < L.batchIndex
  · rw [if_pos (hsame.trans (hiff.mpr hb)), update_of_ne hb.ne]
    rfl
  · have hc' : c = L.batchIndex :=
      ((mem_keysAfterAdd.mp hc).resolve_left fun hmem => hb ((hrrs r hr).key_lt hmem)).2.1
    rw [if_neg fun hsele => hb (hiff.mp (hsame.symm.trans hsele)), hc', update_self]

/-- **Records follow an addition**, valid or not. -/
theorem batchUpdateFromAddition_supplied (hrrs : ∀ r ∈ rrs, L.Supplies r) :
    batchUpdateFromAddition rrs L.accumulator = some (rrs.map (L.refreshFromAdd d hlt)) := by
  rw [batchUpdateFromAddition, aocl_accumulator, numLeafs_ofLeafs]
  cases hs : windowSlides L.commitments.length with
  | false =>
    simp only [Bool.not_false, if_true, Option.some_inj]
    conv_lhs => rw [← map_id rrs]
    refine map_congr_left fun r hr => RemovalRecord.ext rfl ?_
    rw [refreshFromAdd, keysAfterAdd, if_neg (by simp [hs]), refresh, dictionary,
      authenticatedChunk_add_of_not_slides d hlt hs]
    exact (hrrs r hr).chunks
  | true =>
    have hcount : L.commitments.length / batchSize - 1 = L.batchIndex :=
      div_batchSize_of_windowSlides hs
    have hmap := map_congr_left fun r hr => insertSlidChunk_supplied (hrrs r hr) hs
      ((L.add d hlt).authenticatedChunk L.batchIndex)
    rw [Bool.not_true, if_neg Bool.false_ne_true, slidingChunk_accumulator d hlt hs,
      some_bind, hcount]
    refine congrArg some (Eq.trans ?_ (updatePathsFromAppend_supplied d hlt hrrs hs))
    rw [← hmap]
    rfl

theorem batchUpdateFromAddition_synced (hrrs : ∀ r ∈ rrs, L.Synced r) :
    batchUpdateFromAddition rrs L.accumulator = some (rrs.map (L.refreshFromAdd d hlt)) :=
  batchUpdateFromAddition_supplied d hlt fun r hr => (hrrs r hr).supplies

end

end NyksNode.Ledger
