import NyksNode.MutatorSet.ItemBatch

/-!
# Reverting updates of a membership proof

A node that rolls back blocks takes its membership proofs back with it.  Additions only ever make
paths longer and add entries, so to revert them the paths are cut and the late entries dropped.
To revert a removal, its indices are taken out of the chunks again, and the paths are
refreshed with the old leafs.

The leafs that go into that refresh are authenticated by two kinds of paths: a chunk of the proof
itself by its path after the removal, a chunk that only the record has by the path before it.
-/

namespace NyksNode

open List Option ChunkDictionary Ledger

/-- The loop `for index in indices { chunk.remove_once(index) }`. -/
def Chunk.removeAllOnce (c : Chunk) (indices : List ℕ) : Option Chunk :=
  indices.foldlM Chunk.removeOnce c

section
variable {D : Type} [Tip5 D]

/-- Take the indices `g` of one chunk out of the dictionary at position `i`. -/
def revertInDictionary (rr : RemovalRecord D) (g : ℕ × List ℕ) (i : ℕ) (d : ChunkDictionary D)
    (s : MutationArgument D) : Option (ChunkDictionary D × MutationArgument D) :=
  match d.get g.1 with
  | some (path, chunk) => do
    let chunk ← chunk.removeAllOnce (g.2.map (· % chunkSize))
    some (d.modify g.1 fun v => (v.1, chunk), (s.markMutated i).collect g.1 path chunk)
  | none =>
    match rr.targetChunks.get g.1 with
    -- the index is then in the active part of the filter
    | none => some (d, s)
    -- the record has the chunk as it was before the removal
    | some (path, chunk) => some (d, s.collect g.1 path chunk)

/-- The inner loop, over the dictionaries from position `i` on. -/
def revertInDictionaries (rr : RemovalRecord D) (g : ℕ × List ℕ) :
    ℕ → List (ChunkDictionary D) → MutationArgument D →
      Option (List (ChunkDictionary D) × MutationArgument D)
  | _, [], s => some ([], s)
  | i, d :: ds, s => do
    let (d, s) ← revertInDictionary rr g i d s
    let (ds, s) ← revertInDictionaries rr g (i + 1) ds s
    some (d :: ds, s)

def prepareAuthenticatedBatchModificationForRemovalRecordReversion (rr : RemovalRecord D)
    (chunkDictionaries : List (ChunkDictionary D)) :
    Option (List (ChunkDictionary D) × MutationArgument D) :=
  rr.getChunkidxToIndicesDict.foldlM
    (fun s g => revertInDictionaries rr g 0 s.1 s.2) (chunkDictionaries, ⟨[], []⟩)

namespace MsMembershipProof

/-- `MsMembershipProof::revert_update_from_batch_addition`.  Asserts that the item had been added
before. -/
def revertUpdateFromBatchAddition (mp : MsMembershipProof D) (previous : MutatorSetAccumulator D) :
    Option (MsMembershipProof D) :=
  let previousLeafCount := previous.aocl.numLeafs
  let swbfiLeafCount := previous.swbfInactive.numLeafs
  if mp.aoclLeafIndex < previousLeafCount then
    some { mp with
      authPathAocl := mp.authPathAocl.take (Nat.log2 (mp.aoclLeafIndex ^^^ previousLeafCount))
      targetChunks :=
        -- remove chunks from unslid windows, then trim the paths of the others
        ⟨(mp.targetChunks.dictionary.filter fun e => e.1 < swbfiLeafCount).map fun e =>
          (e.1, e.2.1.take (Nat.log2 (swbfiLeafCount ^^^ e.1)), e.2.2)⟩ }
  else none

/-- `MsMembershipProof::revert_update_from_remove`: the old proof, and whether it changed. -/
def revertUpdateFromRemove [MmrOps D] (mp : MsMembershipProof D) (rr : RemovalRecord D) :
    Option (MsMembershipProof D × Bool) := do
  let (dictionaries, s) ←
    prepareAuthenticatedBatchModificationForRemovalRecordReversion rr [mp.targetChunks]
  let (paths, changed) ←
    MmrOps.batchUpdateFromBatchLeafMutation (dictionaries.flatMap (·.authenticationPaths))
      (dictionaries.flatMap (·.allChunkIndices)) s.leafMutations
  let dictionaries :=
    ChunkDictionary.writeAllPaths (dictionaries.map fun d => (fun _ => true, d)) paths
  some ({ mp with targetChunks := dictionaries.headD .empty },
    !changed.isEmpty || !s.mutatedChunkDictionaries.isEmpty)

/-- One addition: the proof is updated in anticipation, then the commitment is added. -/
def addAndUpdate [MmrOps D] (item : D) (s : MutatorSetAccumulator D × MsMembershipProof D)
    (r : AdditionRecord D) : Option (MutatorSetAccumulator D × MsMembershipProof D) := do
  match ← s.2.updateFromAddition item s.1 r with
  | .error _ => none
  | .ok (mp, _) =>
    let A ← s.1.add r
    some (A, mp)

end MsMembershipProof

end

/-! ## Additions -/

namespace Ledger

variable {D : Type} [Tip5 D] [Inhabited D] {L L' : Ledger D} {item : D}
  {mp mp' : MsMembershipProof D}

/-- A proof after some additions: what it was before is a first part of what it is. -/
structure Grown (item : D) (L : Ledger D) (mp : MsMembershipProof D) (L' : Ledger D)
    (mp' : MsMembershipProof D) : Prop where
  commitments : L.commitments <+: L'.commitments
  bits : L'.bits = L.bits
  tracks : L'.Tracks item mp'
  senderRandomness : mp'.senderRandomness = mp.senderRandomness
  receiverPreimage : mp'.receiverPreimage = mp.receiverPreimage
  aoclLeafIndex : mp'.aoclLeafIndex = mp.aoclLeafIndex
  keys : mp'.targetChunks.allChunkIndices.filter (· < L.batchIndex) =
    mp.targetChunks.allChunkIndices

theorem Grown.refl (ht : L.Tracks item mp) : Grown item L mp L mp where
  commitments := prefix_rfl
  bits := rfl
  tracks := ht
  senderRandomness := rfl
  receiverPreimage := rfl
  aoclLeafIndex := rfl
  keys := filter_eq_self.mpr fun c hc => by simpa using ht.synced.key_lt hc

omit [Tip5 D] [Inhabited D] in
theorem batchIndex_mono (h : L.commitments.length ≤ L'.commitments.length) :
    L.batchIndex ≤ L'.batchIndex := by
  simp only [batchIndex, aoclToSwbfiLeafCounts]
  exact Nat.div_le_div_right (Nat.sub_le_sub_right h 1)

theorem Grown.add (hg : Grown item L mp L' mp') (d : D)
    (hlt : L'.commitments.length + 1 < u64Bound) :
    Grown item L mp (L'.add d hlt) (L'.proofFromAdd d hlt item mp') where
  commitments := hg.commitments.trans (prefix_append _ _)
  bits := hg.bits
  tracks := hg.tracks.proofFromAdd d hlt
  senderRandomness := hg.senderRandomness
  receiverPreimage := hg.receiverPreimage
  aoclLeafIndex := hg.aoclLeafIndex
  keys := by
    have hle := batchIndex_mono hg.commitments.length_le
    rw [proofFromAdd, dictionary, allChunkIndices_ofKeys, keysAfterAdd]
    split
    · rw [filter_append, hg.keys, append_right_eq_self, filter_eq_nil_iff]
      simpa using hle
    · exact hg.keys

theorem Grown.inactiveLeafs (hg : Grown item L mp L' mp') :
    L.inactiveLeafs <+: L'.inactiveLeafs := by
  have hle := batchIndex_mono hg.commitments.length_le
  have hchunk : L'.chunk = L.chunk := by
    funext c
    rw [chunk, hg.bits, chunk]
  rw [Ledger.inactiveLeafs, Ledger.inactiveLeafs, hchunk]
  obtain ⟨k, hk⟩ := Nat.exists_eq_add_of_le hle
  rw [hk, range_add, map_append]
  exact prefix_append _ _

/-- **Reverting additions**: the proof is again what it was. -/
theorem Grown.revert (hg : Grown item L mp L' mp') (ht : L.Tracks item mp) :
    mp'.revertUpdateFromBatchAddition L.accumulator = some mp := by
  obtain ⟨ds, hds⟩ := hg.commitments
  obtain ⟨cs, hcs⟩ := hg.inactiveLeafs
  have hi := ht.leafIndex_lt_length
  have hpath : mp'.authPathAocl.take (Nat.log2 (mp.aoclLeafIndex ^^^ L.commitments.length)) =
      mp.authPathAocl := by
    rw [hg.tracks.authPath, hg.aoclLeafIndex, ← hds, ht.authPath]
    exact take_membershipProof L.commitments ds hi
  have hentry : ∀ c < L.batchIndex, (L'.authenticatedChunk c).1.take
      (Nat.log2 (L.batchIndex ^^^ c)) = (L.authenticatedChunk c).1 := by
    intro c hc
    have hcut := take_membershipProof L.inactiveLeafs cs (i := c) (by simpa using hc)
    rw [hcs, length_inactiveLeafs, Merkle.height, Nat.xor_comm] at hcut
    exact hcut
  have hchunks : (⟨(mp'.targetChunks.dictionary.filter fun e => e.1 < L.batchIndex).map fun e =>
      (e.1, e.2.1.take (Nat.log2 (L.batchIndex ^^^ e.1)), e.2.2)⟩ : ChunkDictionary D) =
      mp.targetChunks := by
    have hold : mp.targetChunks = L.dictionary mp.targetChunks.allChunkIndices := ht.synced.chunks
    have hnew : mp'.targetChunks = L'.dictionary mp'.targetChunks.allChunkIndices :=
      hg.tracks.synced.chunks
    rw [hold, hnew, ← hg.keys]
    ext1
    simp only [dictionary, dictionary_ofKeys, List.filter_map, List.map_map]
    refine List.map_congr_left fun c hc => ?_
    have hlt : c < L.batchIndex := by simpa using of_mem_filter hc
    have hchunk : (L'.authenticatedChunk c).2 = (L.authenticatedChunk c).2 := by
      simp [authenticatedChunk, chunk, hg.bits]
    simp [hentry c hlt, hchunk]
  rw [MsMembershipProof.revertUpdateFromBatchAddition]
  simp only [aocl_accumulator, MmrAccumulator.numLeafs_ofLeafs, swbfInactive_accumulator,
    length_inactiveLeafs, hg.aoclLeafIndex, if_pos hi, hpath, hchunks]
  simp [hg.senderRandomness, hg.receiverPreimage]

/-- **Updating through additions** grows a proof. -/
theorem exists_grown [DecidableEq D] [MmrOps D] [LawfulMmr D] (hg : Grown item L mp L' mp')
    {rs : List (AdditionRecord D)} {A : MutatorSetAccumulator D}
    (hadd : rs.foldlM MutatorSetAccumulator.add L'.accumulator = some A) :
    ∃ L'' mp'', rs.foldlM (MsMembershipProof.addAndUpdate item) (L'.accumulator, mp') =
      some (A, mp'') ∧ Grown item L mp L'' mp'' := by
  induction rs generalizing L' mp' with
  | nil =>
    cases hadd
    exact ⟨L', mp', rfl, hg⟩
  | cons r rs ih =>
    rw [foldlM_cons_eq_some] at hadd
    obtain ⟨A', hr, hrs⟩ := hadd
    have hlt := lt_of_add_accumulator hr
    have hA' := add_accumulator (L := L') hlt r
    obtain rfl := some_inj.mp (hr.symm.trans hA')
    obtain ⟨b, hupdate, -⟩ := updateFromAddition_tracks hg.tracks r hlt
    obtain ⟨L'', mp'', hrun, hg''⟩ := ih (hg.add r.canonicalCommitment hlt) hrs
    refine ⟨L'', mp'', ?_, hg''⟩
    rw [foldlM_cons, MsMembershipProof.addAndUpdate, hupdate]
    simp [hA', hrun]

/-! ## Removals -/

section
variable {rr : RemovalRecord D}

/-- Taking the indices of a group out of the new chunk gives the old one. -/
theorem removeAllOnce_chunk {s : Multiset ℕ} {k : ℕ} {js : List ℕ}
    (hjs : ∀ j ∈ js, j / chunkSize = k) :
    Chunk.removeAllOnce ⟨SlidingFilter.chunk chunkSize (js + s) k⟩ (js.map (· % chunkSize)) =
      some ⟨SlidingFilter.chunk chunkSize s k⟩ := by
  induction js with
  | nil => simp [Chunk.removeAllOnce]
  | cons j js ih =>
    rw [forall_mem_cons] at hjs
    have hlt : j % chunkSize < chunkSize := Nat.mod_lt _ chunkSize_pos
    rw [← Multiset.cons_coe, Multiset.cons_add, map_cons, Chunk.removeAllOnce,
      foldlM_cons, Chunk.removeOnce, if_pos hlt,
      SlidingFilter.reverse_erase_reverse_chunk hjs.1, some_bind]
    exact ih hjs.2

theorem removeAllOnce_group (hs : L.Synced rr) {g : ℕ × List ℕ}
    (hg : g ∈ rr.getChunkidxToIndicesDict) :
    ((L.remove rr hs).chunk g.1).removeAllOnce (g.2.map (· % chunkSize)) = some (L.chunk g.1) := by
  rw [map_mod_bloomIndex, chunk_remove_group hs hg]
  exact removeAllOnce_chunk (div_of_mem_group hg)

/-- The leafs collected so far, for the inactive chunks among `done`, each once.  Their paths are
those of one of the two ledgers. -/
structure Reverted (L L' : Ledger D) (done : List ℕ) (ms : List (LeafMutation D)) : Prop where
  nodup : (ms.map (·.leafIndex)).Nodup
  newLeaf : ∀ m ∈ ms, m.newLeaf = (L.chunk m.leafIndex).hash
  path : ∀ m ∈ ms, m.membershipProof = membershipProof L'.inactiveLeafs m.leafIndex ∨
    m.membershipProof = membershipProof L.inactiveLeafs m.leafIndex
  mem_iff : ∀ c, c ∈ ms.map (·.leafIndex) ↔ c ∈ done ∧ c < L.batchIndex

variable {done : List ℕ}

theorem Reverted.skip {ms : List (LeafMutation D)} (hms : Reverted L L' done ms) {c : ℕ}
    (hc : ¬ c < L.batchIndex) : Reverted L L' (c :: done) ms := by
  refine ⟨hms.nodup, hms.newLeaf, hms.path, fun x => ?_⟩
  rw [hms.mem_iff, mem_cons]
  by_cases hx : x = c
  · subst hx
    simp [hc]
  · simp [hx]

variable {s : MutationArgument D}

theorem Reverted.collect (hms : Reverted L L' done s.leafMutations) {c : ℕ} (hc : c ∉ done)
    (hlt : c < L.batchIndex) {path : MmrMembershipProof D}
    (hpath : path = membershipProof L'.inactiveLeafs c ∨ path = membershipProof L.inactiveLeafs c) :
    Reverted L L' (c :: done) (s.collect c path (L.chunk c)).leafMutations := by
  have hnew : c ∉ s.leafMutations.map (·.leafIndex) :=
    fun hmem => hc ((hms.mem_iff c).mp hmem).1
  rw [MutationArgument.collect, if_neg (mt (containsKey_iff s c).mp hnew)]
  constructor
  · rw [map_append, nodup_append']
    exact ⟨hms.nodup, by simp, by simpa [disjoint_singleton] using hnew⟩
  · rw [forall_mem_append]
    exact ⟨hms.newLeaf, by simp⟩
  · rw [forall_mem_append]
    exact ⟨hms.path, by simpa using hpath⟩
  · intro x
    rw [map_append, mem_append, hms.mem_iff, mem_cons]
    by_cases hx : x = c
    · subst hx
      simp [hlt]
    · simp [hx]

variable {keys : List ℕ}

theorem exists_revertInDictionary (hs : L.Synced rr) {g : ℕ × List ℕ}
    (hg : g ∈ rr.getChunkidxToIndicesDict) (hnd : keys.Nodup) (hkeys : ∀ c ∈ keys, c < L.batchIndex)
    (hdone : g.1 ∉ done) (hms : Reverted L (L.remove rr hs) done s.leafMutations) :
    ∃ s', revertInDictionary rr g 0 (partialDictionary (L.remove rr hs) L done keys) s =
        some (partialDictionary (L.remove rr hs) L (g.1 :: done) keys, s') ∧
      Reverted L (L.remove rr hs) (g.1 :: done) s'.leafMutations := by
  by_cases hmem : g.1 ∈ keys
  · refine ⟨_, ?_, hms.collect (s := s.markMutated 0) hdone (hkeys _ hmem) (Or.inl rfl)⟩
    rw [revertInDictionary, get_partialDictionary _ _ _ hdone, if_pos hmem]
    simp [removeAllOnce_group hs hg, modify_partialDictionary _ _ _ hnd]
  · by_cases hlt : g.1 < L.batchIndex
    · refine ⟨_, ?_, hms.collect hdone hlt (Or.inr rfl)⟩
      rw [revertInDictionary, get_partialDictionary _ _ _ hdone, if_neg hmem,
        partialDictionary_cons_of_notMem _ _ _ hmem]
      simp [hs.get_of_mem_groups hg, hlt, authenticatedChunk]
    · refine ⟨s, ?_, hms.skip hlt⟩
      rw [revertInDictionary, get_partialDictionary _ _ _ hdone, if_neg hmem,
        partialDictionary_cons_of_notMem _ _ _ hmem]
      simp [hs.get_of_mem_groups hg, hlt]

section
variable (hs : L.Synced rr) (hnd : keys.Nodup) (hkeys : ∀ c ∈ keys, c < L.batchIndex)
include hs hnd hkeys

theorem exists_foldlM_revertInDictionaries {gs : List (ℕ × List ℕ)}
    (hgs : ∀ g ∈ gs, g ∈ rr.getChunkidxToIndicesDict) (hgnd : (gs.map (·.1)).Nodup)
    (hdone : ∀ g ∈ gs, g.1 ∉ done) (hms : Reverted L (L.remove rr hs) done s.leafMutations) :
    ∃ s', gs.foldlM (fun s g => revertInDictionaries rr g 0 s.1 s.2)
          ([partialDictionary (L.remove rr hs) L done keys], s) =
        some ([partialDictionary (L.remove rr hs) L ((gs.map (·.1)).reverse ++ done) keys], s') ∧
      Reverted L (L.remove rr hs) ((gs.map (·.1)).reverse ++ done) s'.leafMutations := by
  -- the invariant is `Reverted`, over the chunks whose groups have been taken out
  induction gs generalizing done s with
  | nil => exact ⟨s, rfl, hms⟩
  | cons g gs ih =>
    rw [map_cons, nodup_cons] at hgnd
    rw [forall_mem_cons] at hgs hdone
    obtain ⟨s₁, hstep, hms₁⟩ := exists_revertInDictionary hs hgs.1 hnd hkeys hdone.1 hms
    have hrest : ∀ x ∈ gs, x.1 ∉ g.1 :: done := by
      intro x hx hmem
      rcases mem_cons.mp hmem with heq | hmem
      · exact hgnd.1 (mem_map.mpr ⟨x, hx, heq⟩)
      · exact hdone.2 x hx hmem
    obtain ⟨s', hfold, hms'⟩ := ih hgs.2 hgnd.2 hrest hms₁
    refine ⟨s', ?_, by simpa using hms'⟩
    rw [foldlM_cons, revertInDictionaries, hstep]
    simp only [revertInDictionaries, some_bind, hfold]
    simp

/-- **The modification that reverts a removal**: the chunks are as before the removal, and so are
the collected leafs. -/
theorem exists_prepareReversion :
    ∃ s, prepareAuthenticatedBatchModificationForRemovalRecordReversion rr
          [(L.remove rr hs).dictionary keys] = some ([.ofKeys keys fun c =>
          (membershipProof (L.remove rr hs).inactiveLeafs c, L.chunk c)], s) ∧
      Reverted L (L.remove rr hs) rr.absoluteIndices.chunkIndices s.leafMutations := by
  have hnil : Reverted L (L.remove rr hs) [] [] := ⟨by simp, by simp, by simp, by simp⟩
  obtain ⟨s, hfold, hms⟩ := exists_foldlM_revertInDictionaries hs hnd hkeys (fun g hg => hg)
    (nodup_keys_groupByKey chunkIndexOf _) (by simp) (s := ⟨[], []⟩) hnil
  have hdone : ∀ c, c ∈ (rr.getChunkidxToIndicesDict.map (·.1)).reverse ++ [] ↔
      c ∈ rr.absoluteIndices.chunkIndices := by
    intro c
    rw [append_nil, mem_reverse, mem_keys_groups]
  refine ⟨s, ?_, hms.nodup, hms.newLeaf, hms.path, fun c => by rw [hms.mem_iff, hdone]⟩
  rw [partialDictionary_nil] at hfold
  rw [prepareAuthenticatedBatchModificationForRemovalRecordReversion, hfold]
  congr 3
  refine ofKeys_congr fun c hc => ?_
  simp only [hdone]
  split
  · rfl
  · rename_i hnot
    rw [chunk_remove_of_notMem_chunkIndices hs (hkeys c hc) hnot]

end

theorem applyMutations_revert (hs : L.Synced rr) {ms : List (LeafMutation D)}
    (hms : Reverted L (L.remove rr hs) rr.absoluteIndices.chunkIndices ms) :
    Merkle.applyMutations (L.remove rr hs).inactiveLeafs ms = L.inactiveLeafs := by
  refine Merkle.applyMutations_map_range hms.nodup hms.newLeaf fun c hc hnot => ?_
  rw [chunk_remove_of_notMem_chunkIndices hs hc fun hmem => hnot ((hms.mem_iff c).mpr ⟨hmem, hc⟩)]

/-- **Reverting a removal**: the proof is again what it was. -/
theorem exists_revertUpdateFromRemove [MmrOps D] [MmrOps.RefreshesFromEither D]
    (ht : L.Tracks item mp) (hs : L.Synced rr) :
    ∃ b, (proofFromRemove hs mp).revertUpdateFromRemove rr = some (mp, b) := by
  have hnd := ht.nodup_keys
  have hlt : ∀ c ∈ mp.targetChunks.allChunkIndices, c < L.batchIndex :=
    fun c hc => ht.synced.key_lt hc
  have hchunks : mp.targetChunks = L.dictionary mp.targetChunks.allChunkIndices :=
    ht.synced.chunks
  rw [proofFromRemove]
  generalize mp.targetChunks.allChunkIndices = keys at hnd hlt hchunks ⊢
  obtain ⟨s, hprepare, hms⟩ := exists_prepareReversion hs hnd hlt
  have hlaw := MmrOps.RefreshesFromEither.batchUpdateFromBatchLeafMutation_either
    (L.remove rr hs).inactiveLeafs keys s.leafMutations (by simpa using hlt) hms.nodup
    (fun m hm => by simpa using ((hms.mem_iff _).mp (mem_map_of_mem hm)).2)
    (by simpa only [applyMutations_revert hs hms] using hms.path)
  rw [applyMutations_revert hs hms] at hlaw
  obtain ⟨r, hr, hpaths⟩ := map_eq_some_iff.mp hlaw
  have hwrite := writeAllPaths_ofKeys [keys]
    (fun c => (membershipProof (L.remove rr hs).inactiveLeafs c, L.chunk c))
    (membershipProof L.inactiveLeafs)
  simp only [map_singleton, flatten_singleton] at hwrite
  apply Exists.intro
  rw [MsMembershipProof.revertUpdateFromRemove, hprepare, some_bind]
  simp only [flatMap_singleton, authenticationPaths_ofKeys,
    allChunkIndices_ofKeys, hr, some_bind, hpaths, map_singleton, hwrite, headD_cons]
  rw [some_inj, Prod.mk.injEq]
  refine ⟨?_, rfl⟩
  cases mp
  cases hchunks
  rfl

end

end Ledger

/-- **Reverting undoes updating.**  For a proof that verifies and holds an entry for exactly the
inactive chunks of its item: after any additions, with the accumulator from before them, and after
the removal of any valid record, with that record. -/
theorem MutatorSetAccumulator.revert_update {D : Type} [Tip5 D] [Inhabited D] [DecidableEq D]
    [MmrOps D] [LawfulMmr D] [MmrOps.RefreshesFromEither D] [Tip5.CollisionFree D]
    {A : MutatorSetAccumulator D} (hA : A.WellFormed) {item : D} {mp : MsMembershipProof D}
    (hmp : A.Proves item mp) : (∀ (rs : List (AdditionRecord D)) (A' : MutatorSetAccumulator D),
      rs.foldlM MutatorSetAccumulator.add A = some A' →
      ∃ mp', rs.foldlM (MsMembershipProof.addAndUpdate item) (A, mp) = some (A', mp') ∧
        mp'.revertUpdateFromBatchAddition A = some mp) ∧
    ∀ rr : RemovalRecord D, rr.validate A = true →
      ∃ mp' b b', mp.updateFromRemove rr = some (mp', b) ∧
        mp'.revertUpdateFromRemove rr = some (mp, b') := by
  obtain ⟨L, rfl⟩ := hA
  have ht : L.Tracks item mp := tracks_of_proves hmp
  constructor
  · intro rs A' hadd
    obtain ⟨L', mp', hrun, hg⟩ := exists_grown (Ledger.Grown.refl ht) hadd
    exact ⟨mp', hrun, hg.revert ht⟩
  · intro rr hrr
    have hs := (validate_accumulator_iff L rr).mp hrr
    obtain ⟨b, hupdate, -⟩ := updateFromRemove_tracks ht hs
    obtain ⟨b', hrevert⟩ := exists_revertUpdateFromRemove ht hs
    exact ⟨_, b, b', hupdate, hrevert⟩

namespace Coins

open SymbolicDigest (atom zero)

/-- A coin of the first chunk is taken through two additions, the first of which makes the window
slide, and through the removal of another one of its chunk. -/
theorem revert_update_sixteen : (∃ A mp, [(⟨zero⟩ : AdditionRecord SymbolicDigest), ⟨zero⟩].foldlM
        (MsMembershipProof.addAndUpdate (atom 0))
        (sixteen.accumulator, (coin sixteen [0] 0).msMembershipProof) = some (A, mp) ∧
      mp.revertUpdateFromBatchAddition sixteen.accumulator =
        some (coin sixteen [0] 0).msMembershipProof) ∧
    ∃ mp b b', (coin sixteen [0] 0).msMembershipProof.updateFromRemove (record sixteen [0] 1) =
        some (mp, b) ∧ mp.revertUpdateFromRemove (record sixteen [0] 1) =
        some ((coin sixteen [0] 0).msMembershipProof, b') := by
  have hproves : sixteen.accumulator.Proves (atom 0) (coin sixteen [0] 0).msMembershipProof :=
    ⟨by decide +kernel, by decide +kernel, by decide⟩
  have hrevert := MutatorSetAccumulator.revert_update (wellFormed 16 (by decide)) hproves
  have hadd : ([(⟨zero⟩ : AdditionRecord SymbolicDigest), ⟨zero⟩].foldlM MutatorSetAccumulator.add
      sixteen.accumulator).isSome = true := by decide +kernel
  obtain ⟨A, hadd⟩ := isSome_iff_exists.mp hadd
  obtain ⟨mp, hrun, hmp⟩ := hrevert.1 _ A hadd
  exact ⟨⟨A, mp, hrun, hmp⟩, hrevert.2 (record sixteen [0] 1) (by decide +kernel)⟩

/-- A proof with an entry for a chunk that is not inactive verifies, but the entry is dropped when
an addition is reverted. -/
theorem revert_drops_entry :
    sixteen.accumulator.verify (atom 0) (coin sixteen [0, 1] 0).msMembershipProof = some true ∧
    ∃ A mp mp', [(⟨zero⟩ : AdditionRecord SymbolicDigest)].foldlM
        (MsMembershipProof.addAndUpdate (atom 0))
        (sixteen.accumulator, (coin sixteen [0, 1] 0).msMembershipProof) = some (A, mp) ∧
      mp.revertUpdateFromBatchAddition sixteen.accumulator = some mp' ∧
      mp' ≠ (coin sixteen [0, 1] 0).msMembershipProof := by
  simp only [exists_and_left]
  decide +kernel

end Coins

end NyksNode
