import NyksNode.MutatorSet.Order

/-!
# Batches of authenticated items

The proofs of many items are kept current together: one update of all their paths, whose
results are written back one after another.  For items that are in step with a ledger, the
batch does to each one what the update of a single proof does.

This rests on what the items hold.  A single update refreshes the paths of the chunks that the item
has an index in, the batch those of every entry, so a proof with an entry too many ends up
different.  And a removal record that lacks an inactive chunk is completed, in a batch, from the
proofs of the other items.
-/

namespace NyksNode.Ledger

open List Option MmrAccumulator MsMembershipProof

variable {D : Type} [Tip5 D] [Inhabited D] {L : Ledger D} {rr : RemovalRecord D}

def itemFromAdd (L : Ledger D) (d : D) (hlt : L.commitments.length + 1 < u64Bound)
    (it : AuthenticatedItem D) : AuthenticatedItem D :=
  { it with msMembershipProof := L.proofFromAdd d hlt it.item it.msMembershipProof }

def itemFromRemove (hs : L.Synced rr) (it : AuthenticatedItem D) : AuthenticatedItem D :=
  { it with msMembershipProof := proofFromRemove hs it.msMembershipProof }

def recordOf (it : AuthenticatedItem D) : RemovalRecord D :=
  ⟨it.msMembershipProof.computeIndices it.item, it.msMembershipProof.targetChunks⟩

variable [DecidableEq D] [MmrOps D] [LawfulMmr D] [MmrOps.ReportsPositions D]

/-! ## Removals -/

omit [Inhabited D] [DecidableEq D] [LawfulMmr D] in
/-- The positions that an update from a removal reports are positions of paths. -/
theorem changed_lt_of_updateDictionariesFromRemove {ds ds' : List (ChunkDictionary D)}
    {s : MutationArgument D} {changed : List ℕ}
    (h : updateDictionariesFromRemove rr ds = some (ds', s, changed)) :
    ∀ j ∈ changed, j < (ds'.map fun d => d.dictionary.length).sum := by
  simp only [updateDictionariesFromRemove, bind_eq_some, some_inj, Prod.mk.injEq] at h
  obtain ⟨⟨mid, s'⟩, -, ⟨paths, changed'⟩, hpaths, rfl, -, rfl⟩ := h
  have hkeys := congrArg (map length) (ChunkDictionary.map_allChunkIndices_writeAllPaths
    (mid.map fun d => ((fun _ => true : ℕ → Bool), d)) paths)
  simp only [List.map_map, Function.comp_def, ChunkDictionary.allChunkIndices, length_map] at hkeys
  intro j hj
  have hlt := MmrOps.ReportsPositions.batchUpdateFromBatchLeafMutation_changed _ _ _ _ hpaths j hj
  rw [length_flatMap] at hlt
  simpa only [hkeys, ChunkDictionary.authenticationPaths, List.length_map] using hlt

variable {items : List (AuthenticatedItem D)}

section
variable (hs : L.Synced rr) (hitems : ∀ it ∈ items, L.Tracks it.item it.msMembershipProof)
include hs hitems

theorem exists_batchUpdateFromRemove :
    ∃ changed, batchUpdateFromRemove (items.map (·.msMembershipProof)) rr =
      some (items.map fun it => proofFromRemove hs it.msMembershipProof, changed) := by
  set kss := items.map fun it => it.msMembershipProof.targetChunks.allChunkIndices with hkss
  have hdicts : (items.map (·.msMembershipProof)).map (·.targetChunks) = kss.map L.dictionary := by
    rw [hkss, List.map_map, List.map_map]
    exact map_congr_left fun it hit => (hitems it hit).synced.chunks
  have hnodup : ∀ keys ∈ kss, keys.Nodup := by
    intro keys hkeys
    obtain ⟨it, hit, rfl⟩ := mem_map.mp hkeys
    exact (hitems it hit).nodup_keys
  have hlt : ∀ keys ∈ kss, ∀ c ∈ keys, c < L.batchIndex := by
    intro keys hkeys c hc
    obtain ⟨it, hit, rfl⟩ := mem_map.mp hkeys
    exact (hitems it hit).synced.key_lt hc
  obtain ⟨⟨s, changed⟩, hupdate⟩ := updateDictionariesFromRemove_dictionary hs kss hnodup hlt
  -- every reported position belongs to a proof
  have hmutated : (changed.mapM fun j => ((kss.map (L.remove rr hs).dictionary).zipIdx.flatMap
      fun d => replicate d.1.dictionary.length d.2)[j]?).isSome = true := by
    refine isSome_mapM_iff.mpr fun j hj => ?_
    have hj := changed_lt_of_updateDictionariesFromRemove hupdate j hj
    rw [← zipIdx_map_fst 0 (kss.map (L.remove rr hs).dictionary), List.map_map] at hj
    rw [isSome_getElem?, length_flatMap]
    simpa only [Function.comp_def, length_replicate] using hj
  obtain ⟨mutated, hmutated⟩ := isSome_iff_exists.mp hmutated
  apply Exists.intro
  rw [batchUpdateFromRemove, hdicts, hupdate]
  simp only [some_bind, hmutated]
  simp only [hkss, List.map_map, zipWith_map_right, zipWith_map_left, zipWith_self]
  rfl

theorem batchUpdateFromRemove_tracks :
    AuthenticatedItem.batchUpdateFromRemove items rr = some (items.map (itemFromRemove hs)) := by
  obtain ⟨changed, hbatch⟩ := exists_batchUpdateFromRemove hs hitems
  rw [AuthenticatedItem.batchUpdateFromRemove, hbatch, some_bind]
  simp only [zipWith_map_right, zipWith_self]
  rfl

end

/-! ## Additions -/

omit [MmrOps.ReportsPositions D] in
theorem batchUpdateFromAppend_commitments
    (hitems : ∀ it ∈ items, L.Tracks it.item it.msMembershipProof) (d : D) :
    (MmrOps.batchUpdateFromAppend ((items.map (·.msMembershipProof)).map (·.authPathAocl))
        ((items.map (·.msMembershipProof)).map (·.aoclLeafIndex)) L.commitments.length d
        (MmrAccumulator.ofLeafs L.commitments).peaks).1 = items.map fun it =>
        membershipProof (L.commitments ++ [d]) it.msMembershipProof.aoclLeafIndex := by
  have hpaths : (items.map (·.msMembershipProof)).map (·.authPathAocl) =
      ((items.map (·.msMembershipProof)).map (·.aoclLeafIndex)).map
        (membershipProof L.commitments) := by
    simp only [List.map_map]
    exact map_congr_left fun it hit => (hitems it hit).authPath
  rw [hpaths, LawfulMmr.batchUpdateFromAppend_ofLeafs]
  · simp only [List.map_map]
    rfl
  · simp only [List.map_map, List.mem_map, forall_exists_index, and_imp]
    rintro _ it hit rfl
    exact (hitems it hit).leafIndex_lt_length

omit [DecidableEq D] [MmrOps D] [LawfulMmr D] [MmrOps.ReportsPositions D] in
theorem leafIndex_lt_of_mem (hitems : ∀ it ∈ items, L.Tracks it.item it.msMembershipProof) :
    ∀ mp ∈ items.map (·.msMembershipProof), mp.aoclLeafIndex < L.commitments.length := by
  intro mp hmp
  obtain ⟨it, hit, rfl⟩ := mem_map.mp hmp
  exact (hitems it hit).leafIndex_lt_length

omit [MmrOps.ReportsPositions D] in
/-- If the window stays, an addition changes the paths of the commitments only. -/
theorem batchUpdateFromAddition_of_not_slides
    (hitems : ∀ it ∈ items, L.Tracks it.item it.msMembershipProof) (r : AdditionRecord D)
    (hs : windowSlides L.commitments.length = false) :
    ∃ changed, batchUpdateFromAddition (items.map (·.msMembershipProof))
        (items.map (·.item)) L.accumulator r =
      some (items.map fun it => L.pathFromAdd r.canonicalCommitment it.msMembershipProof,
        changed) := by
  apply Exists.intro
  rw [batchUpdateFromAddition]
  simp only [aocl_accumulator, numLeafs_ofLeafs, batchUpdateFromAppend_commitments hitems]
  rw [if_neg (not_not.mpr (leafIndex_lt_of_mem hitems)), if_neg (by simp),
    if_pos (by simpa using hs), zipWith_map_right, zipWith_map_left, zipWith_self]
  rfl

section
variable (hitems : ∀ it ∈ items, L.Tracks it.item it.msMembershipProof)
include hitems

theorem exists_slideDictionaries (d : D) (hlt : L.commitments.length + 1 < u64Bound)
    (hslides : windowSlides L.commitments.length = true) :
    ∃ changed, slideDictionaries (items.map recordOf) L.accumulator
        ((L.add d hlt).authenticatedChunk L.batchIndex) =
      some (items.map fun it => (L.itemFromAdd d hlt it).msMembershipProof.targetChunks,
        changed) := by
  have hcount : L.commitments.length / batchSize - 1 = L.batchIndex :=
    div_batchSize_of_windowSlides hslides
  have hsupplied : ∀ r ∈ items.map recordOf, L.Supplies r := by
    intro r hr
    obtain ⟨it, hit, rfl⟩ := List.mem_map.mp hr
    exact (hitems it hit).synced.supplies
  have hinsert := List.map_congr_left fun r hr => insertSlidChunk_supplied (hsupplied r hr) hslides
    ((L.add d hlt).authenticatedChunk L.batchIndex)
  have hpaths := updatePathsFromAppend_supplied d hlt hsupplied hslides
  rw [← hinsert] at hpaths
  have hchunk : ((L.add d hlt).authenticatedChunk L.batchIndex).2 = L.chunk L.batchIndex := rfl
  simp only [slideDictionaries, aocl_accumulator, numLeafs_ofLeafs, hcount, hchunk, hpaths]
  -- every reported position is that of a selected path
  set selected := (((items.map recordOf).map fun rr => rr.insertSlidChunk L.batchIndex
    ((L.add d hlt).authenticatedChunk L.batchIndex)).zipIdx.flatMap fun x =>
      (x.1.targetChunks.dictionary.filter fun e =>
        x.1.selectedForAppend L.batchIndex e.1).map fun e => (e, x.2))
  have hchanged : ((MmrOps.batchUpdateFromAppend (selected.map (·.1.2.1)) (selected.map (·.1.1))
      L.accumulator.swbfInactive.numLeafs (L.chunk L.batchIndex).hash
      L.accumulator.swbfInactive.peaks).2.mapM fun j => selected[j]?.map (·.2)).isSome = true := by
    refine isSome_mapM_iff.mpr fun j hj => ?_
    have hj := MmrOps.ReportsPositions.batchUpdateFromAppend_changed _ _ _ _ _ j hj
    rw [List.length_map] at hj
    rw [Option.isSome_map, isSome_getElem?]
    exact hj
  obtain ⟨withChangedPath, hchanged⟩ := Option.isSome_iff_exists.mp hchanged
  rw [hchanged]
  exact ⟨_, by simp only [List.map_map]; rfl⟩

theorem exists_batchUpdateFromAddition (r : AdditionRecord D)
    (hlt : L.commitments.length + 1 < u64Bound) :
    ∃ changed, batchUpdateFromAddition (items.map (·.msMembershipProof))
        (items.map (·.item)) L.accumulator r =
      some (items.map fun it => L.proofFromAdd r.canonicalCommitment hlt it.item
        it.msMembershipProof, changed) := by
  cases hslides : windowSlides L.commitments.length with
  | false =>
    obtain ⟨changed, hbatch⟩ := batchUpdateFromAddition_of_not_slides hitems r hslides
    refine ⟨changed, ?_⟩
    rw [hbatch]
    congr 2
    exact map_congr_left fun it hit =>
      (proofFromAdd_of_not_slides (hitems it hit) _ hlt hslides).symm
  | true =>
    obtain ⟨changed, hslide⟩ := exists_slideDictionaries hitems r.canonicalCommitment hlt hslides
    have hchunk := slidingChunk_accumulator r.canonicalCommitment hlt hslides
    apply Exists.intro
    rw [batchUpdateFromAddition]
    simp only [aocl_accumulator, numLeafs_ofLeafs, batchUpdateFromAppend_commitments hitems]
    rw [if_neg (not_not.mpr (leafIndex_lt_of_mem hitems)), if_neg (by simp),
      if_neg (by simpa using hslides)]
    simp only [hchunk, some_bind, zipWith_map_right, zipWith_map_left, zipWith_self]
    -- the path of the commitment is not part of the removal record
    change (slideDictionaries (items.map recordOf) L.accumulator _).bind _ = _
    rw [hslide]
    simp only [bind_some, zipWith_map_right, zipWith_self]
    rfl

theorem batchUpdateFromAddition_tracks (r : AdditionRecord D)
    (hlt : L.commitments.length + 1 < u64Bound) :
    AuthenticatedItem.batchUpdateFromAddition items L.accumulator r =
      some (items.map (L.itemFromAdd r.canonicalCommitment hlt)) := by
  obtain ⟨changed, hbatch⟩ := exists_batchUpdateFromAddition hitems r hlt
  rw [AuthenticatedItem.batchUpdateFromAddition, hbatch, some_bind]
  simp only [zipWith_map_right, zipWith_self]
  rfl

end

end NyksNode.Ledger

namespace NyksNode

section

variable {D : Type} [Tip5 D] [Inhabited D] [DecidableEq D] [MmrOps D] [LawfulMmr D]

namespace Ledger

omit [Tip5 D] [Inhabited D] [DecidableEq D] [MmrOps D] [LawfulMmr D] in
/-- The last commitment that a ledger has room for does not make the window slide. -/
theorem lt_or_not_slides (L : Ledger D) :
    L.commitments.length + 1 < u64Bound ∨ windowSlides L.commitments.length = false := by
  by_cases hlt : L.commitments.length + 1 < u64Bound
  · exact Or.inl hlt
  · right
    have hlast : L.commitments.length = 2 ^ 64 - 1 := by
      have := L.length_lt
      simp only [u64Bound] at this hlt
      omega
    rw [hlast]
    decide

variable [MmrOps.ReportsPositions D] {L : Ledger D} {items : List (AuthenticatedItem D)}

/-- **Additions**: the batch does to each proof what its own update does. -/
theorem batchUpdateFromAddition_eq_single
    (hitems : ∀ it ∈ items, L.Tracks it.item it.msMembershipProof) (r : AdditionRecord D) :
    ∃ mps changed, MsMembershipProof.batchUpdateFromAddition (items.map (·.msMembershipProof))
        (items.map (·.item)) L.accumulator r = some (mps, changed) ∧ List.Forall₂ (fun it mp => ∃ b,
        it.msMembershipProof.updateFromAddition it.item L.accumulator r = some (.ok (mp, b)))
        items mps := by
  cases lt_or_not_slides L with
  | inl hlt =>
    obtain ⟨changed, hbatch⟩ := exists_batchUpdateFromAddition hitems r hlt
    refine ⟨_, changed, hbatch, ?_⟩
    rw [List.forall₂_map_right_iff, List.forall₂_same]
    intro it hit
    obtain ⟨b, hsingle, -⟩ := updateFromAddition_tracks (hitems it hit) r hlt
    exact ⟨b, hsingle⟩
  | inr hslides =>
    obtain ⟨changed, hbatch⟩ := batchUpdateFromAddition_of_not_slides hitems r hslides
    refine ⟨_, changed, hbatch, ?_⟩
    rw [List.forall₂_map_right_iff, List.forall₂_same]
    intro it hit
    exact updateFromAddition_of_not_slides (hitems it hit) r hslides

/-- **Removals**: the batch does to each proof what its own update does. -/
theorem batchUpdateFromRemove_eq_single {rr : RemovalRecord D} (hs : L.Synced rr)
    (hitems : ∀ it ∈ items, L.Tracks it.item it.msMembershipProof) : ∃ mps changed,
      MsMembershipProof.batchUpdateFromRemove (items.map (·.msMembershipProof)) rr =
        some (mps, changed) ∧ List.Forall₂ (fun it mp => ∃ b,
        it.msMembershipProof.updateFromRemove rr = some (mp, b)) items mps := by
  obtain ⟨changed, hbatch⟩ := exists_batchUpdateFromRemove hs hitems
  refine ⟨_, changed, hbatch, ?_⟩
  rw [List.forall₂_map_right_iff, List.forall₂_same]
  intro it hit
  obtain ⟨b, hsingle, -⟩ := updateFromRemove_tracks (hitems it hit) hs
  exact ⟨b, hsingle⟩

end Ledger

/-- **A batch update is the update of each proof.**  For items whose proofs verify and hold an
entry for exactly the inactive chunks of the item, and for every addition record and every valid
removal record. -/
theorem MutatorSetAccumulator.batchUpdate_eq_single [MmrOps.ReportsPositions D]
    [Tip5.CollisionFree D] {A : MutatorSetAccumulator D} (hA : A.WellFormed)
    {items : List (AuthenticatedItem D)}
    (hitems : ∀ it ∈ items, A.Proves it.item it.msMembershipProof) :
    (∀ r : AdditionRecord D, ∃ mps changed,
      MsMembershipProof.batchUpdateFromAddition (items.map (·.msMembershipProof))
        (items.map (·.item)) A r = some (mps, changed) ∧ List.Forall₂ (fun it mp => ∃ b,
        it.msMembershipProof.updateFromAddition it.item A r = some (.ok (mp, b))) items mps) ∧
    ∀ rr : RemovalRecord D, rr.validate A = true → ∃ mps changed,
      MsMembershipProof.batchUpdateFromRemove (items.map (·.msMembershipProof)) rr =
        some (mps, changed) ∧ List.Forall₂ (fun it mp => ∃ b,
        it.msMembershipProof.updateFromRemove rr = some (mp, b)) items mps := by
  obtain ⟨L, rfl⟩ := hA
  have ht : ∀ it ∈ items, L.Tracks it.item it.msMembershipProof := fun it hit =>
    Ledger.tracks_of_proves (hitems it hit)
  constructor
  · intro r
    exact Ledger.batchUpdateFromAddition_eq_single ht r
  · intro rr hrr
    exact Ledger.batchUpdateFromRemove_eq_single ((Ledger.validate_accumulator_iff L rr).mp hrr) ht

end

/-! ## Coins -/

namespace Coins

open SymbolicDigest (atom zero)

def commitment (i : ℕ) : SymbolicDigest :=
  (commit (atom i) zero (digestHash zero)).canonicalCommitment

/-- A ledger of coins, none of them removed.  The indices of a coin all lie in the chunk of its
batch. -/
def ledger (n : ℕ) (h : n < u64Bound) : Ledger SymbolicDigest where
  commitments := (List.range n).map commitment
  bits := 0
  length_lt := by simpa using h
  bits_lt := by simp

theorem wellFormed (n : ℕ) (h : n < u64Bound) : (ledger n h).accumulator.WellFormed := ⟨_, rfl⟩

def record (L : Ledger SymbolicDigest) (keys : List ℕ) (i : ℕ) : RemovalRecord SymbolicDigest :=
  ⟨.compute (atom i) zero zero i, L.dictionary keys⟩

def coin (L : Ledger SymbolicDigest) (keys : List ℕ) (i : ℕ) : AuthenticatedItem SymbolicDigest :=
  ⟨atom i, ⟨zero, zero, membershipProof L.commitments i, i, L.dictionary keys⟩⟩

def nine : Ledger SymbolicDigest := ledger 9 (by decide)

/-- Sixteen coins, so that the next addition makes the window slide. -/
def sixteen : Ledger SymbolicDigest := ledger 16 (by decide)

theorem batchUpdate_eq_single_sixteen : (∃ mps changed, MsMembershipProof.batchUpdateFromAddition
      ([coin sixteen [0] 0, coin sixteen [] 8].map (·.msMembershipProof)) [atom 0, atom 8]
      sixteen.accumulator ⟨zero⟩ = some (mps, changed)) ∧
    ∃ mps changed, MsMembershipProof.batchUpdateFromRemove
      ([coin sixteen [0] 0, coin sixteen [] 8].map (·.msMembershipProof))
      (record sixteen [0] 1) = some (mps, changed) := by
  have hproves : ∀ it ∈ [coin sixteen [0] 0, coin sixteen [] 8],
      sixteen.accumulator.Proves it.item it.msMembershipProof := by
    intro it hit
    simp only [List.mem_cons, List.not_mem_nil, or_false] at hit
    rcases hit with rfl | rfl
    · exact ⟨by decide +kernel, by decide +kernel, by decide⟩
    · exact ⟨by decide +kernel, by decide +kernel, by decide⟩
  have hboth := MutatorSetAccumulator.batchUpdate_eq_single (wellFormed 16 (by decide)) hproves
  constructor
  · obtain ⟨mps, changed, hbatch, -⟩ := hboth.1 ⟨zero⟩
    exact ⟨mps, changed, hbatch⟩
  · obtain ⟨mps, changed, hbatch, -⟩ := hboth.2 (record sixteen [0] 1) (by decide +kernel)
    exact ⟨mps, changed, hbatch⟩

def seventeen : Ledger SymbolicDigest := ledger 17 (by decide)

/-- Three inactive chunks, and the next addition makes the window slide. -/
def thirtyTwo : Ledger SymbolicDigest := ledger 32 (by decide)

/-- Proofs that verify are not enough for additions, and for removals the record has to be
complete. -/
theorem batchUpdate_ne_single :
    (thirtyTwo.accumulator.verify (atom 0) (coin thirtyTwo [0, 1] 0).msMembershipProof = some true ∧
      ∃ mps changed mp b,
        MsMembershipProof.batchUpdateFromAddition [(coin thirtyTwo [0, 1] 0).msMembershipProof]
          [atom 0] thirtyTwo.accumulator ⟨zero⟩ = some (mps, changed) ∧
        (coin thirtyTwo [0, 1] 0).msMembershipProof.updateFromAddition (atom 0)
          thirtyTwo.accumulator ⟨zero⟩ = some (.ok (mp, b)) ∧ mps ≠ [mp]) ∧
    (∀ it ∈ [coin seventeen [0] 0, coin seventeen [1] 8],
      seventeen.accumulator.verify it.item it.msMembershipProof = some true) ∧
    ∃ mps changed mp b, MsMembershipProof.batchUpdateFromRemove
        [(coin seventeen [0] 0).msMembershipProof, (coin seventeen [1] 8).msMembershipProof]
        (record seventeen [] 1) = some (mps, changed) ∧
      (coin seventeen [1] 8).msMembershipProof.updateFromRemove (record seventeen [] 1) =
        some (mp, b) ∧ mps[1]? ≠ some mp := by
  -- An addition refreshes an entry for a chunk that the item has no index in, and a removal
  -- completes the record from another proof.
  simp only [exists_and_left]
  decide +kernel

end Coins

end NyksNode
