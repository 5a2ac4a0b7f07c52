import NyksNode.MutatorSet.Removal
import NyksNode.MutatorSet.ItemBatch
import NyksNode.Packing.RoundTrip

/-!
# Packing validated records

Records that validate against one accumulator are authentic: the peaks of its inactive
part determine every node on their paths.  So they survive packing and unpacking, as
long as their chunks are not too long to be packed.
-/

namespace NyksNode

open List MutatorSetAccumulator RemovalRecordList
open Merkle (sibling height peakHeights valueBelow)

variable {D : Type} [Tip5 D]

/-- The value of a node of the tree of height `t`, read off the peak of that tree. -/
noncomputable def nodesBelowPeaks (range : MmrAccumulator D) (t x : ℕ) : D :=
  valueBelow Tip5.hashPair
    (range.peaks[(peakHeights range.numLeafs).idxOf t]?.getD Tip5.zeroDigest) x

/-- The chunk that the first entry of a key has. -/
def chunkIn (entries : List (ChunkEntry D)) (c : ℕ) : Chunk :=
  ((entries.find? fun e => e.1 = c).map (·.2.2)).getD .emptyChunk

section
variable [Inhabited D] [DecidableEq D] [MmrOps D] [LawfulMmr D] [Tip5.CollisionFree D]
  {range : MmrAccumulator D}

/-- A proof that verifies leads through the nodes below the peaks. -/
theorem nodesBelowPeaks_of_verify {p : MmrMembershipProof D} {c : ℕ} {d : D}
    (hv : MmrOps.verify p c d range.peaks range.numLeafs = true) : c < range.numLeafs ∧
    d = nodesBelowPeaks range (leafNode range.numLeafs c).1 (leafNode range.numLeafs c).2 ∧
    p = siblingsFrom (nodesBelowPeaks range) (height c range.numLeafs) (height c range.numLeafs)
      (leafNode range.numLeafs c).2 ∧ ∀ i < height c range.numLeafs,
      nodesBelowPeaks range (height c range.numLeafs) ((leafNode range.numLeafs c).2 / 2 ^ i / 2) =
        Merkle.combine Tip5.hashPair ((leafNode range.numLeafs c).2 / 2 ^ i)
          (nodesBelowPeaks range (height c range.numLeafs) ((leafNode range.numLeafs c).2 / 2 ^ i))
          (nodesBelowPeaks range (height c range.numLeafs)
            (sibling ((leafNode range.numLeafs c).2 / 2 ^ i))) := by
  rw [LawfulMmr.verify_eq, Merkle.verify] at hv
  simp only [Bool.and_eq_true, decide_eq_true_eq] at hv
  obtain ⟨⟨hc, hlen⟩, hpeak⟩ := hv
  have hroot : (leafNode range.numLeafs c).2 / 2 ^ p.length = 1 := by
    rw [hlen]
    exact Merkle.div_pow_self (Nat.mod_lt _ (by positivity))
  have hclimb : Merkle.climb Tip5.hashPair d (leafNode range.numLeafs c).2 p =
      range.peaks[(peakHeights range.numLeafs).idxOf (height c range.numLeafs)]?.getD
        Tip5.zeroDigest := by
    have hmod : (leafNode range.numLeafs c).2 % 2 ^ p.length = c % 2 ^ p.length := by
      rw [hlen, leafNode, Nat.add_mod_left, Nat.mod_mod]
    rw [Merkle.climb_congr _ hmod, ← Merkle.peakIndex, hpeak, Option.getD_some]
  obtain ⟨hleaf, hpath, hparents⟩ :=
    Merkle.valueBelow_of_climb Tip5.CollisionFree.hashPair_injective hroot hclimb
  rw [hlen] at hpath hparents
  exact ⟨hc, hleaf, hpath, hparents⟩

variable {entries : List (ChunkEntry D)}

section
variable (hv : ∀ e ∈ entries, MmrOps.verify e.2.1 e.1 e.2.2.hash range.peaks range.numLeafs = true)
include hv

theorem chunkIn_eq {e : ChunkEntry D} (he : e ∈ entries) : chunkIn entries e.1 = e.2.2 := by
  cases hfind : entries.find? fun x => x.1 = e.1 with
  | none => simpa using find?_eq_none.mp hfind e he
  | some x =>
    have hkey : x.1 = e.1 := by simpa using find?_some hfind
    have hx := (nodesBelowPeaks_of_verify (hv x (mem_of_find?_eq_some hfind))).2.1
    have hy := (nodesBelowPeaks_of_verify (hv e he)).2.1
    rw [hkey, ← hy] at hx
    rw [chunkIn, hfind, Option.map_some, Option.getD_some]
    exact Chunk.ext (Tip5.CollisionFree.hashChunk_injective hx)

theorem eq_entryOf {e : ChunkEntry D} (he : e ∈ entries) :
    e = entryOf range.numLeafs (nodesBelowPeaks range) (chunkIn entries) e.1 := by
  rw [entryOf, chunkIn_eq hv he, ← (nodesBelowPeaks_of_verify (hv e he)).2.2.1]

theorem authentic_of_verify {cs : List ℕ} (hcs : ∀ c ∈ cs, c ∈ entries.map (·.1)) :
    Authentic range.numLeafs (nodesBelowPeaks range) (chunkIn entries) cs := by
  refine ⟨?_, ?_, ?_⟩ <;> intro c hc <;> obtain ⟨e, he, rfl⟩ := mem_map.mp (hcs c hc)
  · exact (nodesBelowPeaks_of_verify (hv e he)).1
  · rw [chunkIn_eq hv he]
    exact (nodesBelowPeaks_of_verify (hv e he)).2.1
  · exact (nodesBelowPeaks_of_verify (hv e he)).2.2.2

end

end

/-! ## Validated records -/

section
variable {A : MutatorSetAccumulator D}

omit [Tip5 D] in
/-- The chunks that a record must have are those below the active window. -/
theorem mem_allChunkIndices_iff {rr : RemovalRecord D}
    (hrr : rr.hasRequiredAuthenticatedChunks A = true)
    (hindices : ∀ i ∈ rr.absoluteIndices.toArray, i < 2 ^ 76) {c : ℕ} :
    c ∈ rr.targetChunks.allChunkIndices ↔
      c ∈ chunksBelow (A.getBatchIndex * chunkSize) rr.absoluteIndices.toArray := by
  rw [RemovalRecord.hasRequiredAuthenticatedChunks, AbsoluteIndexSet.splitByActivity,
    splitAtWindow] at hrr
  split at hrr
  · cases hrr
  · rename_i inactive active hsplit
    split at hsplit
    · cases hsplit
    · cases hsplit
      rw [decide_eq_true_eq] at hrr
      rw [← mem_toFinset, ← hrr, mem_toFinset, mem_map, mem_chunksBelow]
      constructor
      · rintro ⟨g, hg, rfl⟩
        obtain ⟨hg, hlt⟩ := mem_filter.mp hg
        obtain ⟨i, hi, hig⟩ := ((mem_groupByKey chunkIndexOf).mp hg).1
        rw [chunkIndexOf_of_lt (hindices i hi)] at hig
        refine ⟨i, hi, ?_, hig⟩
        rw [← Nat.div_lt_iff_lt_mul chunkSize_pos, hig]
        exact of_decide_eq_true hlt
      · rintro ⟨i, hi, hlt, rfl⟩
        rw [← chunkIndexOf_of_lt (hindices i hi)]
        refine ⟨(chunkIndexOf i, rr.absoluteIndices.toArray.filter
          fun a => chunkIndexOf a = chunkIndexOf i), ?_, rfl⟩
        refine mem_filter.mpr ⟨(mem_groupByKey chunkIndexOf).mpr ⟨⟨i, hi, rfl⟩, rfl⟩, ?_⟩
        rw [chunkIndexOf_of_lt (hindices i hi)]
        exact decide_eq_true ((Nat.div_lt_iff_lt_mul chunkSize_pos).mpr hlt)

variable [Inhabited D] [DecidableEq D] [MmrOps D] [LawfulMmr D] [Tip5.CollisionFree D]
  {rrs : List (RemovalRecord D)}

def entriesOf (rrs : List (RemovalRecord D)) : List (ChunkEntry D) :=
  rrs.flatMap fun rr => rr.targetChunks.dictionary

omit [Tip5 D] [Inhabited D] [DecidableEq D] [MmrOps D] [LawfulMmr D] [Tip5.CollisionFree D] in
/-- The leaf count of the inactive part is far below that of the commitments. -/
theorem swbfInactive_fits (hsize : A.aocl.numLeafs < u64Bound)
    (hA : A.swbfInactive.numLeafs = A.getBatchIndex) :
    A.swbfInactive.numLeafs * batchSize + 1 < u64Bound := by
  rw [hA, getBatchIndex, aoclToSwbfiLeafCounts]
  have hle := Nat.div_mul_le_self (A.aocl.numLeafs - 1) batchSize
  have hone : 1 < u64Bound := by decide
  omega

variable [MmrIndexing] (hsize : A.aocl.numLeafs < u64Bound)
  (hA : A.swbfInactive.numLeafs = A.getBatchIndex) (hvalid : ∀ rr ∈ rrs, rr.validate A = true)
  (hsorted : ∀ rr ∈ rrs, rr.targetChunks.allChunkIndices.Pairwise (· < ·))
include hA hvalid hsorted

omit [MmrIndexing] in
/-- **Validated records are authentic.** -/
theorem authenticRecords_of_validate
    (hindices : ∀ rr ∈ rrs, ∀ i ∈ rr.absoluteIndices.toArray, i < 2 ^ 76) :
    AuthenticRecords A.swbfInactive.numLeafs (nodesBelowPeaks A.swbfInactive)
      (chunkIn (entriesOf rrs)) rrs := by
  have hverify : ∀ e ∈ entriesOf rrs, MmrOps.verify e.2.1 e.1 e.2.2.hash A.swbfInactive.peaks
      A.swbfInactive.numLeafs = true := by
    intro e he
    obtain ⟨rr, hrr, he⟩ := mem_flatMap.mp he
    have hnone := ((Ledger.validate_eq_true_iff rr A).mp (hvalid rr hrr)).2
    simpa using find?_eq_none.mp hnone e he
  have hkeys : ∀ rr ∈ rrs, rr.targetChunks.allChunkIndices =
      chunksBelow (A.swbfInactive.numLeafs * chunkSize) rr.absoluteIndices.toArray := by
    intro rr hrr
    rw [hA]
    have hrequired := ((Ledger.validate_eq_true_iff rr A).mp (hvalid rr hrr)).1
    exact eq_of_pairwise_lt (hsorted rr hrr) (pairwise_chunksBelow _ _)
      fun c => mem_allChunkIndices_iff hrequired (hindices rr hrr)
  constructor
  · apply authentic_of_verify hverify
    intro c hc
    obtain ⟨i, hi, hlt, rfl⟩ := mem_chunksBelow.mp hc
    obtain ⟨rr, hrr, hi⟩ := mem_flatMap.mp hi
    have hmem : i / chunkSize ∈ rr.targetChunks.allChunkIndices := by
      rw [hkeys rr hrr]
      exact mem_chunksBelow.mpr ⟨i, hi, hlt, rfl⟩
    obtain ⟨e, he, hkey⟩ := mem_map.mp hmem
    exact mem_map.mpr ⟨e, mem_flatMap.mpr ⟨rr, hrr, he⟩, hkey⟩
  · intro rr hrr
    rw [← hkeys rr hrr, ChunkDictionary.allChunkIndices, map_map]
    conv_lhs => rw [← map_id' rr.targetChunks.dictionary]
    exact map_congr_left fun e he =>
      eq_entryOf hverify (mem_flatMap.mpr ⟨rr, hrr, he⟩)

include hsize

/-- Validated records that are packed and unpacked again are the same records. -/
theorem eq_of_tryUnpack_of_validate
    (hindices : ∀ rr ∈ rrs, ∀ i ∈ rr.absoluteIndices.toArray, i < 2 ^ 76)
    {packed r : List (RemovalRecord D)} (hpack : pack rrs = some packed)
    (hunpack : tryUnpack packed = some (.ok r)) : r = rrs := by
  have hr := authenticRecords_of_validate hA hvalid hsorted hindices
  refine hr.eq_of_tryUnpack (swbfInactive_fits hsize hA) ?_ hpack hunpack
  intro rr hrr i hi
  rw [Nat.div_lt_iff_lt_mul chunkSize_pos]
  exact hindices rr hrr i hi

/-- **Validated records survive packing**: if their chunks can be packed, unpacking gives exactly
the same records back, with all their authentication paths. -/
theorem validated_records_survive_packing (hchunks : ∀ rr ∈ rrs, ∀ e ∈ rr.targetChunks.dictionary,
      (∀ i ∈ e.2.2.relativeIndices, i < chunkSize) ∧
        e.2.2.relativeIndices.length ≤ Chunk.maxUnpackedLength)
    (hindices : ∀ rr ∈ rrs, ∀ i ∈ rr.absoluteIndices.toArray, i < 2 ^ 76)
    (hunmarked : ∀ rr ∈ rrs, ∀ e ∈ rr.targetChunks.dictionary,
      isMarked (e.2.2.hash : D) = false ∧ ∀ d ∈ e.2.1, isMarked d = false) :
    ∃ packed, pack rrs = some packed ∧ tryUnpack packed = some (.ok rrs) := by
  have hr := authenticRecords_of_validate hA hvalid hsorted hindices
  -- every chunk that is touched comes with an entry of some record
  have hentry : ∀ c ∈ touched A.swbfInactive.numLeafs rrs, ∃ rr ∈ rrs,
      entryOf A.swbfInactive.numLeafs (nodesBelowPeaks A.swbfInactive) (chunkIn (entriesOf rrs)) c ∈
        rr.targetChunks.dictionary := by
    intro c hc
    obtain ⟨i, hi, hlt, rfl⟩ := mem_chunksBelow.mp hc
    obtain ⟨rr, hrr, hi⟩ := mem_flatMap.mp hi
    refine ⟨rr, hrr, ?_⟩
    rw [hr.dictionary rr hrr]
    exact mem_map.mpr ⟨_, mem_chunksBelow.mpr ⟨i, hi, hlt, rfl⟩, rfl⟩
  refine hr.pack_tryUnpack (swbfInactive_fits hsize hA) ?_ ?_ ?_ ?_
  · intro rr hrr i hi
    rw [Nat.div_lt_iff_lt_mul chunkSize_pos]
    exact hindices rr hrr i hi
  · intro c hc
    obtain ⟨rr, hrr, he⟩ := hentry c hc
    exact Chunk.exists_pack (hchunks rr hrr _ he).1 (hchunks rr hrr _ he).2
  · intro c hc
    obtain ⟨rr, hrr, he⟩ := hentry c hc
    exact (hunmarked rr hrr _ he).1
  · intro c hc
    obtain ⟨rr, hrr, he⟩ := hentry c hc
    exact (hunmarked rr hrr _ he).2

end

namespace Coins

/-- Three records that share a chunk; both chunks have a path. -/
def sharedRecords : List (RemovalRecord SymbolicDigest) :=
  [record seventeen [0] 0, record seventeen [1] 8, record seventeen [0] 3]

/-- Two of three records share a chunk. -/
theorem sharedRecords_survive_packing : ∃ packed,
      @pack _ MmrIndexing.reference _ _ sharedRecords = some packed ∧
      @tryUnpack _ _ MmrIndexing.reference packed = some (.ok sharedRecords) := by
  let _ := MmrIndexing.reference
  refine validated_records_survive_packing (A := seventeen.accumulator) ?_ ?_ ?_ ?_ ?_ ?_ ?_ <;>
    decide +kernel

end Coins

/-! ## A range with one chunk -/

def oneChunk (chunk : Chunk) : MutatorSetAccumulator SymbolicDigest :=
  ⟨⟨[], 9⟩, ⟨[chunk.hash], 1⟩, .new⟩

def oneChunkRecord (chunk : Chunk) : RemovalRecord SymbolicDigest :=
  ⟨zeroIndexSet, ⟨[(0, [], chunk)]⟩⟩

theorem validate_oneChunkRecord (chunk : Chunk) :
    (oneChunkRecord chunk).validate (oneChunk chunk) = true := by
  have hsplit : zeroIndexSet.splitByActivity (oneChunk chunk) =
      .ok ([(0, List.replicate numTrials 0)], []) := by
    have hinterval : (oneChunk chunk).activeWindowChunkInterval = (1, 256) := by
      simp [activeWindowChunkInterval, getBatchIndex,
        oneChunk, MmrAccumulator.numLeafs, aoclToSwbfiLeafCounts, batchSize, windowSize, chunkSize]
    rw [AbsoluteIndexSet.splitByActivity, hinterval]
    decide +kernel
  have hrequired : (oneChunkRecord chunk).hasRequiredAuthenticatedChunks (oneChunk chunk) =
      true := by
    rw [RemovalRecord.hasRequiredAuthenticatedChunks, oneChunkRecord, hsplit]
    rfl
  have hheight : height 0 1 = 0 := by decide +kernel
  have hindex : Merkle.peakIndex 0 1 = 0 := by decide +kernel
  refine (Ledger.validate_eq_true_iff _ _).mpr ⟨hrequired, ?_⟩
  simp [oneChunkRecord, oneChunk, MmrAccumulator.numLeafs, LawfulMmr.verify_eq, Merkle.verify,
    hheight, hindex]

def overlongChunk : Chunk := ⟨List.replicate 92161 0⟩

theorem pack_overlongChunk : overlongChunk.pack = none := by
  have hlen : overlongChunk.relativeIndices.length = 92161 := length_replicate
  have hne : overlongChunk.relativeIndices ≠ [] := by
    intro h
    rw [h] at hlen
    cases hlen
  have hlt : ∀ i ∈ overlongChunk.relativeIndices, i < chunkSize := by
    intro i hi
    rw [eq_of_mem_replicate hi]
    exact chunkSize_pos
  rw [Chunk.pack, if_neg hne, if_neg (not_not.mpr hlt), if_pos (by rw [hlen]; decide)]

/-- A chunk with too many indices cannot be packed, though a record of it validates. -/
theorem overlong_chunk_cannot_be_packed :
    (oneChunk overlongChunk).swbfInactive.numLeafs = (oneChunk overlongChunk).getBatchIndex ∧
    (oneChunkRecord overlongChunk).validate (oneChunk overlongChunk) = true ∧
    (oneChunkRecord overlongChunk).targetChunks.allChunkIndices.Pairwise (· < ·) ∧
    (∀ i ∈ overlongChunk.relativeIndices, i < chunkSize) ∧
    @pack _ MmrIndexing.reference _ _ [oneChunkRecord overlongChunk] = none := by
  let _ := MmrIndexing.reference
  have hvalid := validate_oneChunkRecord overlongChunk
  have hsorted : (oneChunkRecord overlongChunk).targetChunks.allChunkIndices.Pairwise (· < ·) :=
    pairwise_singleton _ _
  have hlt : ∀ i ∈ overlongChunk.relativeIndices, i < chunkSize := by
    intro i hi
    rw [eq_of_mem_replicate hi]
    exact chunkSize_pos
  have hindices : ∀ i ∈ zeroIndexSet.toArray, i < 2 ^ 76 := by decide +kernel
  set rrs := [oneChunkRecord overlongChunk] with hrrs
  have hA : (oneChunk overlongChunk).swbfInactive.numLeafs =
      (oneChunk overlongChunk).getBatchIndex := rfl
  have hr : AuthenticRecords 1 _ (chunkIn (entriesOf rrs)) rrs :=
    authenticRecords_of_validate hA (by simpa [hrrs] using hvalid) (by simpa [hrrs] using hsorted)
      (by simpa [hrrs, oneChunkRecord] using hindices)
  have htouched : touched 1 rrs = [0] := by
    change chunksBelow (1 * chunkSize) (zeroIndexSet.toArray ++ []) = [0]
    decide +kernel
  refine ⟨hA, hvalid, hsorted, hlt, ?_⟩
  rw [pack, hr.convertFromVec_eq (by decide) (by rw [htouched]; decide +kernel),
    some_bind, encodeAsVec_eq (consistent_listOf _)]
  change (((touched 1 rrs).map (chunkIn (entriesOf rrs))).mapM Chunk.pack).map _ = none
  rw [htouched]
  change ([overlongChunk].mapM Chunk.pack).map _ = none
  rw [mapM_cons, pack_overlongChunk]
  rfl

end NyksNode
