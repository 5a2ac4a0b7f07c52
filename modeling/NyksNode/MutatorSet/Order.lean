import NyksNode.MutatorSet.Coin

/-!
# The order of updates does not matter

A batch of updates is a list of additions, to be made in order, and a list of removal
records, to be applied in any order.  An interleaving makes them one at a time and
keeps the records that are still pending current.  Where an interleaving ends is a
function of the batch: the ledger with all commitments and all indices.
-/

namespace NyksNode

open List Option Ledger ChunkDictionary MutatorSetAccumulator RemovalRecord

variable {D : Type} [Tip5 D] [MmrOps D]

/-- The invariant of all runs: the accumulator commits to a ledger. -/
def MutatorSetAccumulator.WellFormed [Inhabited D] (A : MutatorSetAccumulator D) : Prop :=
  ∃ L : Ledger D, L.accumulator = A

theorem MutatorSetAccumulator.wellFormed_of_foldlM_add [Inhabited D] [DecidableEq D] [LawfulMmr D]
    {rs : List (AdditionRecord D)} {A A' : MutatorSetAccumulator D} (hA : A.WellFormed)
    (hrun : rs.foldlM add A = some A') : A'.WellFormed := by
  refine foldlM_invariant (P := MutatorSetAccumulator.WellFormed) ?_ hA hrun
  rintro _ r - A' ⟨L, rfl⟩ hadd
  have hlt := lt_of_add_accumulator hadd
  rw [add_accumulator hlt, some_inj] at hadd
  exact ⟨_, hadd⟩

theorem Ledger.exists_foldlM_add [Inhabited D] [DecidableEq D] [LawfulMmr D] (L : Ledger D)
    {rs : List (AdditionRecord D)} (hlt : L.commitments.length + rs.length < u64Bound) :
    ∃ L' : Ledger D, rs.foldlM MutatorSetAccumulator.add L.accumulator = some L'.accumulator ∧
      L'.commitments = L.commitments ++ rs.map (·.canonicalCommitment) ∧ L'.bits = L.bits := by
  induction rs generalizing L with
  | nil => exact ⟨L, rfl, by simp, rfl⟩
  | cons r rs ih =>
    rw [length_cons] at hlt
    have hlt₁ : L.commitments.length + 1 < u64Bound := by omega
    obtain ⟨L', hrun, hc, hb⟩ := ih (L.add r.canonicalCommitment hlt₁) (by
      rw [commitments_add, length_append, length_singleton]
      omega)
    refine ⟨L', ?_, by rw [hc, commitments_add, append_assoc]; rfl, hb⟩
    rw [foldlM_cons, add_accumulator hlt₁, some_bind, hrun]

/-- An accumulator, and the updates that are still to be made. -/
structure PendingUpdates (D : Type) where
  accumulator : MutatorSetAccumulator D
  additions : List (AdditionRecord D)
  removals : List (RemovalRecord D)

namespace PendingUpdates

/-- The next addition, or any of the removals; the other removals are kept current. -/
inductive Step : PendingUpdates D → PendingUpdates D → Prop
  | add {A A' : MutatorSetAccumulator D} {r : AdditionRecord D} {rs : List (AdditionRecord D)}
      {rrs rrs' : List (RemovalRecord D)}
      (hupdate : RemovalRecord.batchUpdateFromAddition rrs A = some rrs')
      (hadd : A.add r = some A') : Step ⟨A, r :: rs, rrs⟩ ⟨A', rs, rrs'⟩
  | remove {A A' : MutatorSetAccumulator D} {rs : List (AdditionRecord D)} {rr : RemovalRecord D}
      {before after rrs' : List (RemovalRecord D)}
      (hcan : A.canRemove rr = some true)
      (hupdate : RemovalRecord.batchUpdateFromRemove (before ++ after) rr = some rrs')
      (hremove : A.remove rr = some A') : Step ⟨A, rs, before ++ rr :: after⟩ ⟨A', rs, rrs'⟩

/-- An interleaving of all updates that ends in an accumulator. -/
def Completes (s : PendingUpdates D) (A : MutatorSetAccumulator D) : Prop :=
  Relation.ReflTransGen Step s ⟨A, [], []⟩

end PendingUpdates

/-! ## Updates keep keys -/

section
omit [MmrOps D]

variable {rr : RemovalRecord D}

variable {s' s : MutationArgument D} {ds' : List (ChunkDictionary D)}
  {rrs' : List (RemovalRecord D)}

theorem allChunkIndices_applyToDictionary {g : ℕ × List ℕ} {i : ℕ} {d d' : ChunkDictionary D}
    (hd : applyToDictionary rr g i d s = some (d', s')) :
    d'.allChunkIndices = d.allChunkIndices := by
  rw [applyToDictionary] at hd
  split at hd
  · simp only [bind_eq_some] at hd
    obtain ⟨chunk, -, hd⟩ := hd
    rw [← (Prod.mk.inj (some_inj.mp hd)).1, allChunkIndices_modify]
  · split at hd
    · rw [(Prod.mk.inj (some_inj.mp hd)).1]
    · split at hd
      · rw [(Prod.mk.inj (some_inj.mp hd)).1]
      · simp only [bind_eq_some] at hd
        obtain ⟨chunk, -, hd⟩ := hd
        rw [(Prod.mk.inj (some_inj.mp hd)).1]

variable {ds : List (ChunkDictionary D)}

theorem map_allChunkIndices_applyToDictionaries {g : ℕ × List ℕ} {i : ℕ}
    (hds : applyToDictionaries rr g i ds s = some (ds', s')) :
    ds'.map (·.allChunkIndices) = ds.map (·.allChunkIndices) := by
  induction ds generalizing i s ds' s' with
  | nil =>
    rw [applyToDictionaries, some_inj, Prod.mk.injEq] at hds
    rw [← hds.1]
  | cons d ds ih =>
    simp only [applyToDictionaries, bind_eq_some] at hds
    obtain ⟨⟨d₁, s₁⟩, h₁, ⟨ds₂, s₂⟩, h₂, hds⟩ := hds
    rw [← (Prod.mk.inj (some_inj.mp hds)).1, map_cons, map_cons, ih h₂,
      allChunkIndices_applyToDictionary h₁]

variable [MmrOps D]

theorem map_allChunkIndices_updateDictionaries {r : MutationArgument D × List ℕ}
    (hds : updateDictionariesFromRemove rr ds = some (ds', r)) :
    ds'.map (·.allChunkIndices) = ds.map (·.allChunkIndices) := by
  simp only [updateDictionariesFromRemove, bind_eq_some] at hds
  obtain ⟨⟨ds₁, s₁⟩, h₁, paths, -, hds⟩ := hds
  have hfold : ds₁.map (·.allChunkIndices) = ds.map (·.allChunkIndices) :=
    foldlM_invariant
      (P := fun st : List (ChunkDictionary D) × MutationArgument D =>
        st.1.map (·.allChunkIndices) = ds.map (·.allChunkIndices))
      (fun st g _ st' hst hstep =>
        (map_allChunkIndices_applyToDictionaries
          (show _ = some (st'.1, st'.2) from hstep)).trans hst)
      rfl h₁
  rw [← (Prod.mk.inj (Option.some_inj.mp hds)).1,
    map_allChunkIndices_writeAllPaths, List.map_map, ← hfold]
  rfl

variable {rrs : List (RemovalRecord D)}

omit [Tip5 D] [MmrOps D] in
theorem map_allChunkIndices_zipWith (hlen : ds.length = rrs.length) :
    (rrs.zipWith (fun rr d => { rr with targetChunks := d }) ds).map
        (·.targetChunks.allChunkIndices) = ds.map (·.allChunkIndices) := by
  induction rrs generalizing ds with
  | nil => simp_all
  | cons rr rrs ih =>
    cases ds with
    | nil => simp at hlen
    | cons d ds => simp [ih (by simpa using hlen)]

theorem map_keys_batchUpdateFromRemove (hrrs : batchUpdateFromRemove rrs rr = some rrs') :
    rrs'.map (·.targetChunks.allChunkIndices) = rrs.map (·.targetChunks.allChunkIndices) := by
  simp only [batchUpdateFromRemove, bind_eq_some] at hrrs
  obtain ⟨⟨ds, r⟩, hds, hrrs⟩ := hrrs
  have hkeys := map_allChunkIndices_updateDictionaries hds
  have hlen : ds.length = rrs.length := by
    have := congrArg List.length hkeys
    simpa using this
  rw [← Option.some_inj.mp hrrs, map_allChunkIndices_zipWith hlen, hkeys, List.map_map]
  rfl

theorem exists_keys_batchUpdateFromAddition {A : MutatorSetAccumulator D}
    (hrrs : batchUpdateFromAddition rrs A = some rrs') (hrr : rr ∈ rrs) :
    ∃ rr' ∈ rrs', rr.targetChunks.allChunkIndices.Sublist rr'.targetChunks.allChunkIndices := by
  rw [batchUpdateFromAddition] at hrrs
  simp only at hrrs
  split at hrrs
  · cases hrrs
    exact ⟨rr, hrr, List.Sublist.refl _⟩
  · simp only [bind_eq_some] at hrrs
    obtain ⟨v, -, hrrs⟩ := hrrs
    set c := A.aocl.numLeafs / batchSize - 1
    have hkeys : rrs'.map (·.targetChunks.allChunkIndices) =
        (rrs.map fun rr => rr.insertSlidChunk c v).map (·.targetChunks.allChunkIndices) := by
      rw [← some_inj.mp hrrs, updatePathsFromAppend]
      rw [map_allChunkIndices_zipWith, map_allChunkIndices_writeAllPaths, List.map_map]
      · rfl
      · simp
    have hmem : (rr.insertSlidChunk c v).targetChunks.allChunkIndices ∈
        rrs'.map (·.targetChunks.allChunkIndices) :=
      hkeys ▸ mem_map_of_mem (mem_map_of_mem hrr)
    obtain ⟨rr', hrr', heq⟩ := mem_map.mp hmem
    refine ⟨rr', hrr', heq ▸ ?_⟩
    rw [insertSlidChunk]
    split
    · exact allChunkIndices_sublist_insert _ _ _
    · exact List.Sublist.refl _

end

namespace PendingUpdates
variable [Inhabited D] [DecidableEq D] [LawfulMmr D] {s s' : PendingUpdates D}

/-- Before every step of a completed interleaving, no pending record repeats a key: such a record
would still repeat it when it is applied. -/
theorem Step.nodup_keys (hstep : Step s s')
    (hs' : ∀ rr ∈ s'.removals, rr.targetChunks.allChunkIndices.Nodup) :
    ∀ rr ∈ s.removals, rr.targetChunks.allChunkIndices.Nodup := by
  cases hstep with
  | @add A A' r rs rrs rrs' hupdate hadd =>
    intro rr hrr
    obtain ⟨rr', hrr', hsub⟩ := exists_keys_batchUpdateFromAddition hupdate hrr
    exact (hs' rr' hrr').sublist hsub
  | @remove A A' rs rr before after rrs' hcan hupdate hremove =>
    have hkeys := map_keys_batchUpdateFromRemove hupdate
    obtain ⟨r, hr, -⟩ := map_eq_some_iff.mp hremove
    have hown := nodup_of_removeHelper hr
    intro rr₀ hrr₀
    by_cases heq : rr₀ = rr
    · exact heq ▸ hown
    · have hmem : rr₀ ∈ before ++ after := by simpa [heq] using hrr₀
      have : rr₀.targetChunks.allChunkIndices ∈
          rrs'.map (·.targetChunks.allChunkIndices) := hkeys ▸ mem_map_of_mem hmem
      obtain ⟨rr', hrr', hk⟩ := mem_map.mp this
      exact hk ▸ hs' rr' hrr'

theorem Completes.nodup_keys {B : MutatorSetAccumulator D} (hs : s.Completes B) :
    ∀ rr ∈ s.removals, rr.targetChunks.allChunkIndices.Nodup := by
  induction hs using Relation.ReflTransGen.head_induction_on with
  | refl => simp
  | head hstep _ ih => exact hstep.nodup_keys ih

/-! ## Where an interleaving leads -/

/-- The invariant of an interleaving: the accumulator is that of a ledger, and every pending
record is in step with it. -/
structure InStep (s : PendingUpdates D) (L : Ledger D) : Prop where
  accumulator_eq : s.accumulator = L.accumulator
  synced : ∀ rr ∈ s.removals, L.Synced rr

/-- The commitments once everything is done. -/
def finalCommitments (s : PendingUpdates D) (L : Ledger D) : List D :=
  L.commitments ++ s.additions.map (·.canonicalCommitment)

/-- The bits once everything is done. -/
def finalBits (s : PendingUpdates D) (L : Ledger D) : Multiset ℕ :=
  (s.removals.flatMap fun rr => rr.absoluteIndices.bloomIndices : List ℕ) + L.bits

variable {L : Ledger D}

/-- **Every step keeps the invariant and moves towards the same final state.** -/
theorem InStep.step (hs : s.InStep L)
    (hnd : ∀ rr ∈ s.removals, rr.targetChunks.allChunkIndices.Nodup) (hstep : Step s s') :
    ∃ L', s'.InStep L' ∧ s'.finalCommitments L' = s.finalCommitments L ∧
      s'.finalBits L' = s.finalBits L := by
  cases hstep with
  | @add A A' r rs rrs rrs' hupdate hadd =>
    obtain rfl : A = L.accumulator := hs.accumulator_eq
    have hlt := lt_of_add_accumulator hadd
    rw [add_accumulator hlt, some_inj] at hadd
    rw [batchUpdateFromAddition_synced r.canonicalCommitment hlt hs.synced, some_inj] at hupdate
    subst hadd hupdate
    refine ⟨L.add r.canonicalCommitment hlt, ⟨rfl, fun rr hrr => ?_⟩, ?_, ?_⟩
    · obtain ⟨rr₀, hrr₀, rfl⟩ := mem_map.mp hrr
      exact (hs.synced rr₀ hrr₀).refreshFromAdd r.canonicalCommitment hlt
    · simp [finalCommitments]
    · simp only [finalBits, bits_add, flatMap_map]
      rfl
  | @remove A A' rs rr before after rrs' hcan hupdate hremove =>
    obtain rfl : A = L.accumulator := hs.accumulator_eq
    have hrr : L.Synced rr := hs.synced rr (by simp)
    have hothers : ∀ r ∈ before ++ after, L.Synced r ∧ r.targetChunks.allChunkIndices.Nodup := by
      intro r hr
      have hmem := ((sublist_cons_self rr after).append_left before).subset hr
      exact ⟨hs.synced r hmem, hnd r hmem⟩
    rw [batchUpdateFromRemove_synced hrr (fun r hr => (hothers r hr).1)
      (fun r hr => (hothers r hr).2)] at hupdate
    cases hupdate
    refine ⟨L.remove rr hrr, ⟨remove_accumulator hrr hremove, fun r hr => ?_⟩, rfl, ?_⟩
    · obtain ⟨r₀, hr₀, rfl⟩ := mem_map.mp hr
      exact hrr.refreshFromRemove (hothers r₀ hr₀).1
    · have hsame : ((before ++ after).map (refreshFromRemove hrr)).flatMap
          (fun r => r.absoluteIndices.bloomIndices) =
          (before ++ after).flatMap fun r => r.absoluteIndices.bloomIndices := by
        rw [flatMap_map]
        rfl
      simp only [finalBits, hsame, bits_remove, flatMap_append, flatMap_cons, ← Multiset.coe_add]
      simp only [Multiset.add_assoc]
      congr 1
      rw [← Multiset.add_assoc, ← Multiset.add_assoc]
      congr 1
      exact Multiset.add_comm _ _

/-- An interleaving ends in the accumulator of the ledger with everything done. -/
theorem InStep.completes (hs : s.InStep L) {B : MutatorSetAccumulator D} (hB : s.Completes B) :
    ∃ L' : Ledger D, L'.accumulator = B ∧ L'.commitments = s.finalCommitments L ∧
      L'.bits = s.finalBits L := by
  induction hB using Relation.ReflTransGen.head_induction_on generalizing L with
  | refl => exact ⟨L, hs.accumulator_eq.symm, by simp [finalCommitments], by simp [finalBits]⟩
  | head hstep hrest ih =>
    obtain ⟨L₁, hs₁, hc, hb⟩ := hs.step (Completes.nodup_keys (.head hstep hrest)) hstep
    obtain ⟨L', hL', hc', hb'⟩ := ih hs₁
    exact ⟨L', hL', hc'.trans hc, hb'.trans hb⟩

/-! ## Every interleaving can go on -/

/-- A record without repeated keys and without narrowed indices. -/
def Ordinary (rr : RemovalRecord D) : Prop :=
  rr.targetChunks.allChunkIndices.Nodup ∧ ∀ i ∈ rr.absoluteIndices.toArray, i < 2 ^ 76

variable {rr : RemovalRecord D}

section
omit [MmrOps D] [DecidableEq D] [LawfulMmr D]

theorem Ordinary.removable (hrr : Ordinary rr) (hs : L.Synced rr) : L.Removable rr := by
  refine ⟨hrr.1, fun i hi hle => ?_⟩
  have hbit := hs.bits_lt (bloomIndex i) (AbsoluteIndexSet.mem_bloomIndices.mpr ⟨i, hi, rfl⟩)
  rw [bloomIndex_of_lt (hrr.2 i hi)] at hbit
  refine ⟨?_, hbit⟩
  rw [← not_lt, ← div_lt_batchIndex_iff, ← chunkIndexOf_of_lt (hrr.2 i hi), not_lt]
  exact hle

theorem Ordinary.refreshFromAdd (hrr : Ordinary rr) (hs : L.Supplies rr) (d : D)
    (hlt : L.commitments.length + 1 < u64Bound) : Ordinary (L.refreshFromAdd d hlt rr) := by
  refine ⟨?_, hrr.2⟩
  rw [Ledger.refreshFromAdd, allChunkIndices_refresh]
  exact nodup_keysAfterAdd hs hrr.1

theorem Ordinary.refreshFromRemove {r : RemovalRecord D} (hr : Ordinary r) (hs : L.Synced rr) :
    Ordinary (Ledger.refreshFromRemove hs r) := by
  refine ⟨?_, hr.2⟩
  rw [Ledger.refreshFromRemove, allChunkIndices_refresh]
  exact hr.1

end

theorem Step.ordinary (hs : s.InStep L) (hord : ∀ rr ∈ s.removals, Ordinary rr)
    (hstep : Step s s') : ∀ rr ∈ s'.removals, Ordinary rr := by
  cases hstep with
  | @add A A' r rs rrs rrs' hupdate hadd =>
    obtain rfl : A = L.accumulator := hs.accumulator_eq
    have hlt := lt_of_add_accumulator hadd
    rw [batchUpdateFromAddition_synced r.canonicalCommitment hlt hs.synced, some_inj] at hupdate
    subst hupdate
    intro rr hrr
    obtain ⟨rr₀, hrr₀, rfl⟩ := mem_map.mp hrr
    exact (hord rr₀ hrr₀).refreshFromAdd (hs.synced rr₀ hrr₀).supplies r.canonicalCommitment hlt
  | @remove A A' rs rr before after rrs' hcan hupdate hremove =>
    have hothers : ∀ r ∈ before ++ after, r ∈ before ++ rr :: after :=
      ((sublist_cons_self rr after).append_left before).subset
    rw [batchUpdateFromRemove_synced (hs.synced rr (by simp))
      (fun r hr => hs.synced r (hothers r hr)) (fun r hr => (hord r (hothers r hr)).1),
      some_inj] at hupdate
    subst hupdate
    intro r hr
    obtain ⟨r₀, hr₀, rfl⟩ := mem_map.mp hr
    exact (hord r₀ (hothers r₀ hr₀)).refreshFromRemove (hs.synced rr (by simp))

theorem InStep.run (hs : s.InStep L) (hord : ∀ rr ∈ s.removals, Ordinary rr)
    (hrun : Relation.ReflTransGen Step s s') :
    (∃ L', s'.InStep L') ∧ ∀ rr ∈ s'.removals, Ordinary rr := by
  induction hrun with
  | refl => exact ⟨⟨L, hs⟩, hord⟩
  | tail _ hstep ih =>
    obtain ⟨⟨L₁, hs₁⟩, hord₁⟩ := ih
    obtain ⟨L', hs', -⟩ := hs₁.step (fun rr hrr => (hord₁ rr hrr).1) hstep
    exact ⟨⟨L', hs'⟩, hstep.ordinary hs₁ hord₁⟩

theorem InStep.exists_remove {A : MutatorSetAccumulator D} {rs : List (AdditionRecord D)}
    {before after : List (RemovalRecord D)} (hs : InStep ⟨A, rs, before ++ rr :: after⟩ L)
    (hord : ∀ r ∈ before ++ rr :: after, Ordinary r) : ∃ A' rrs', A.remove rr = some A' ∧
      RemovalRecord.batchUpdateFromRemove (before ++ after) rr = some rrs' := by
  obtain rfl : A = L.accumulator := hs.accumulator_eq
  have hrr : L.Synced rr := hs.synced rr (by simp)
  have hothers : ∀ r ∈ before ++ after, r ∈ before ++ rr :: after :=
    ((sublist_cons_self rr after).append_left before).subset
  refine ⟨(L.remove rr hrr).accumulator, _, ?_, batchUpdateFromRemove_synced hrr
    (fun r hr => hs.synced r (hothers r hr)) (fun r hr => (hord r (hothers r hr)).1)⟩
  rw [MutatorSetAccumulator.remove,
    removeHelper_accumulator hrr ((hord rr (by simp)).removable hrr), map_some]

end PendingUpdates

section
variable [Inhabited D] [DecidableEq D] [LawfulMmr D] [Tip5.CollisionFree D]

/-- **Order independence.**  All interleavings of a batch of updates that run to the end arrive at
the same accumulator, and none of the functions involved panics on the way. -/
theorem interleavings_agree {A : MutatorSetAccumulator D} (hA : A.WellFormed)
    (additions : List (AdditionRecord D)) (removals : List (RemovalRecord D))
    (hcan : ∀ rr ∈ removals, A.canRemove rr = some true) :
    (∀ B C : MutatorSetAccumulator D, PendingUpdates.Completes ⟨A, additions, removals⟩ B →
      PendingUpdates.Completes ⟨A, additions, removals⟩ C → B = C ∧ B.hash = C.hash) ∧
    ((∀ rr ∈ removals, PendingUpdates.Ordinary rr) →
      ∀ (A' : MutatorSetAccumulator D) (rs : List (AdditionRecord D))
        (rrs : List (RemovalRecord D)),
        Relation.ReflTransGen PendingUpdates.Step ⟨A, additions, removals⟩ ⟨A', rs, rrs⟩ →
        (∀ r B, A'.add r = some B →
          ∃ rrs', RemovalRecord.batchUpdateFromAddition rrs A' = some rrs') ∧
        (∀ rr before after, rrs = before ++ rr :: after → ∃ B rrs', A'.remove rr = some B ∧
            RemovalRecord.batchUpdateFromRemove (before ++ after) rr = some rrs')) := by
  obtain ⟨L, rfl⟩ := hA
  have hs : PendingUpdates.InStep ⟨L.accumulator, additions, removals⟩ L :=
    ⟨rfl, fun rr hrr => synced_of_canRemove (hcan rr hrr)⟩
  refine ⟨fun B C hB hC => ?_, fun hord A' rs rrs hrun => ?_⟩
  · obtain ⟨L₁, rfl, hc₁, hb₁⟩ := hs.completes hB
    obtain ⟨L₂, rfl, hc₂, hb₂⟩ := hs.completes hC
    obtain rfl : L₁ = L₂ := Ledger.ext (hc₁.trans hc₂.symm) (hb₁.trans hb₂.symm)
    exact ⟨rfl, rfl⟩
  · obtain ⟨⟨L', hs'⟩, hord'⟩ := hs.run hord hrun
    refine ⟨fun r B hadd => ?_, ?_⟩
    · obtain rfl : A' = L'.accumulator := hs'.accumulator_eq
      have hlt := lt_of_add_accumulator hadd
      exact ⟨_, batchUpdateFromAddition_synced r.canonicalCommitment hlt hs'.synced⟩
    · rintro rr before after rfl
      exact hs'.exists_remove hord'

end

/-- One addition and one removal. -/
theorem interleavings_agree_zero :
    ∃ (A : MutatorSetAccumulator SymbolicDigest) (rr : RemovalRecord SymbolicDigest)
      (B C : MutatorSetAccumulator SymbolicDigest), A.canRemove rr = some true ∧
      PendingUpdates.Completes ⟨A, [⟨.zero⟩], [rr]⟩ B ∧
      PendingUpdates.Completes ⟨A, [⟨.zero⟩], [rr]⟩ C ∧ B = C ∧ B.hash = C.hash := by
  let rr : RemovalRecord SymbolicDigest := ⟨.compute SymbolicDigest.zero .zero .zero 0, ⟨[]⟩⟩
  let r : AdditionRecord SymbolicDigest := ⟨.zero⟩
  have hrun : ∃ A, MutatorSetAccumulator.empty.add r = some A ∧ A.canRemove rr = some true ∧
      batchUpdateFromRemove [] rr = some [] ∧
      (∃ A', A.remove rr = some A' ∧ batchUpdateFromAddition [] A' = some [] ∧
        ∃ B, A'.add r = some B ∧ True) ∧
      batchUpdateFromAddition [rr] A = some [rr] ∧
      ∃ A', A.add r = some A' ∧ A'.canRemove rr = some true ∧
        ∃ C, A'.remove rr = some C ∧ True := by
    decide +kernel
  obtain ⟨A, hA, hcan, hnil, ⟨A₁, hremove, hnil', B, hadd, -⟩, hkept, A₂, hadd', hcan', C,
    hremove', -⟩ := hrun
  obtain ⟨L, hL, -⟩ := (Reachable.empty.add r hA).exists_ledger
  have removeOnly : ∀ {A A' : MutatorSetAccumulator SymbolicDigest} {rs},
      A.canRemove rr = some true → A.remove rr = some A' →
      PendingUpdates.Step ⟨A, rs, [] ++ rr :: []⟩ ⟨A', rs, []⟩ :=
    fun hcan hremove => .remove hcan hnil hremove
  have hB : PendingUpdates.Completes ⟨A, [r], [rr]⟩ B :=
    .tail (.single (removeOnly hcan hremove)) (.add hnil' hadd)
  have hC : PendingUpdates.Completes ⟨A, [r], [rr]⟩ C :=
    .tail (.single (.add hkept hadd')) (removeOnly hcan' hremove')
  exact ⟨A, rr, B, C, hcan, hB, hC,
    (interleavings_agree ⟨L, hL⟩ [r] [rr] (by simpa using hcan)).1 B C hB hC⟩

end NyksNode
