import NyksNode.Packing.Unpacking

/-!
# Reading encoded lists

`encode_as_vec` writes a list of removal records as one dictionary: trees and packed
chunks side by side, and what is left of the longer ones by itself.  The loop of
`decode_from_vec` reads such a dictionary back.
-/

namespace NyksNode.RemovalRecordList

open List Option

open Merkle (peakHeights)

variable {D : Type}

/-- The packed chunks are what the chunks are read from. -/
abbrev PackedChunks (packed chunks : List Chunk) : Prop :=
  List.Forall₂ (fun p chunk => p.tryUnpack = some (.ok chunk)) packed chunks

/-! ## One entry -/

variable {s : Decoding D}

theorem checkTreeHeights_eq (hs : s.treeHeights.Pairwise (· < ·)) : checkTreeHeights s = .ok s := by
  rw [checkTreeHeights, dedup_eq_self.mpr (hs.imp ne_of_lt), if_neg (not_not.mpr rfl)]

variable {p chunk : Chunk}

theorem decodeChunk_eq (hp : p.tryUnpack = some (.ok chunk)) (s : Decoding D) :
    decodeChunk s p = some (.ok { s with chunks := s.chunks ++ [chunk] }) := by
  rw [decodeChunk, hp, map_some]

variable {ds : List D}

section
variable {t : ℕ} (ht : t < encodingTreeHeightOffset) (hs : (s.treeHeights ++ [t]).Pairwise (· < ·))
include ht hs

theorem decodeEntry_both (hp : p.tryUnpack = some (.ok chunk)) :
    decodeEntry s (t, ds, p) = some (.ok ⟨s.treeHeights ++ [t],
      s.authenticationStructures ++ [ds], s.chunks ++ [chunk]⟩) := by
  have hlast : ¬ (s.treeHeights.getLast?.any (t < ·)) = true := by
    cases hu : s.treeHeights.getLast? with
    | none => simp
    | some u =>
      have hlt := (pairwise_append.mp hs).2.2 u (mem_of_getLast? hu) t (by simp)
      simp only [any_some, decide_eq_true_eq]
      omega
  rw [decodeEntry, if_pos ht, if_neg hlast, decodeChunk_eq hp, map_some]
  exact congrArg some (checkTreeHeights_eq hs)

theorem decodeEntry_tree :
    decodeEntry s (t + encodingTreeHeightOffset, ds, p) = some (.ok ⟨s.treeHeights ++ [t],
      s.authenticationStructures ++ [ds], s.chunks⟩) := by
  rw [decodeEntry, if_neg (by omega), if_pos (by omega), Nat.add_sub_cancel]
  exact congrArg some (checkTreeHeights_eq hs)

end

theorem decodeEntry_chunk (hs : s.treeHeights.Pairwise (· < ·))
    (hp : p.tryUnpack = some (.ok chunk)) :
    decodeEntry s (encodingDelimiterIgnoreTreeHeight, ds, p) =
      some (.ok { s with chunks := s.chunks ++ [chunk] }) := by
  have hlow : ¬ encodingDelimiterIgnoreTreeHeight < encodingTreeHeightOffset := by decide
  have hoffset : ¬ encodingDelimiterIgnoreTreeHeight < 2 * encodingTreeHeightOffset := by decide
  rw [decodeEntry, if_neg hlow, if_neg hoffset, if_pos rfl, decodeChunk_eq hp, map_some]
  exact congrArg some (checkTreeHeights_eq hs)

/-! ## All entries -/

theorem decodeEntries_cons {s' : Decoding D} {e : ChunkEntry D} (es : List (ChunkEntry D))
    (he : decodeEntry s e = some (.ok s')) : decodeEntries s (e :: es) = decodeEntries s' es := by
  rw [decodeEntries, he, some_bind]

theorem decodeEntries_chunks {packed chunks : List Chunk} (hs : s.treeHeights.Pairwise (· < ·))
    (hp : PackedChunks packed chunks) : decodeEntries s (zipTreesWithChunks [] packed) =
      some (.ok { s with chunks := s.chunks ++ chunks }) := by
  induction hp generalizing s with
  | nil => rw [append_nil]; rfl
  | @cons p chunk packed chunks hp _ ih =>
    rw [zipTreesWithChunks, map_cons, decodeEntries_cons _ (decodeEntry_chunk hs hp),
      ← zipTreesWithChunks, ih (s := { s with chunks := s.chunks ++ [chunk] }) hs]
    simp

/-- **Reading a dictionary that was written** gives the trees and the chunks back. -/
theorem decodeEntries_zipTreesWithChunks {trees : List (ℕ × List D)} {packed chunks : List Chunk}
    (hlt : ∀ tree ∈ trees, tree.1 < encodingTreeHeightOffset)
    (hs : (s.treeHeights ++ trees.map (·.1)).Pairwise (· < ·)) (hp : PackedChunks packed chunks) :
    decodeEntries s (zipTreesWithChunks trees packed) = some (.ok ⟨s.treeHeights ++ trees.map (·.1),
        s.authenticationStructures ++ trees.map (·.2), s.chunks ++ chunks⟩) := by
  induction trees generalizing s packed chunks with
  | nil =>
    rw [map_nil, append_nil] at hs
    rw [decodeEntries_chunks hs hp]
    simp
  | cons tree trees ih =>
    obtain ⟨t, ds⟩ := tree
    have ht := hlt _ mem_cons_self
    rw [map_cons, append_cons] at hs
    have hs₁ : (s.treeHeights ++ [t]).Pairwise (· < ·) := (pairwise_append.mp hs).1
    have hlt' : ∀ tree ∈ trees, tree.1 < encodingTreeHeightOffset :=
      fun tree htree => hlt tree (mem_cons_of_mem _ htree)
    cases hp with
    | nil =>
      rw [zipTreesWithChunks, decodeEntries_cons _ (decodeEntry_tree ht hs₁),
        ih (s := ⟨_, _, _⟩) hlt' hs .nil]
      simp
    | cons hp hps =>
      rw [zipTreesWithChunks, decodeEntries_cons _ (decodeEntry_both ht hs₁ hp),
        ih (s := ⟨_, _, _⟩) hlt' hs hps]
      simp

/-! ## The records that are written -/

/-- The index sets, the first of them with the dictionary. -/
def recordsOf (indexSets : List AbsoluteIndexSet) (dictionary : ChunkDictionary D) :
    List (RemovalRecord D) :=
  indexSets.zipWith RemovalRecord.mk (dictionary :: List.replicate indexSets.length .empty)

theorem map_absoluteIndices_recordsOf (indexSets : List AbsoluteIndexSet)
    (dictionary : ChunkDictionary D) :
    (recordsOf indexSets dictionary).map (·.absoluteIndices) = indexSets := by
  rw [recordsOf, map_zipWith]
  apply ext_getElem
  · simp
  · intro i h₁ h₂
    simp

theorem flatMap_dictionary_recordsOf {indexSets : List AbsoluteIndexSet}
    {dictionary : ChunkDictionary D} (h : indexSets = [] → dictionary.dictionary = []) :
    ((recordsOf indexSets dictionary).flatMap fun rr => rr.targetChunks.dictionary) =
      dictionary.dictionary := by
  have hempty : ∀ (sets : List AbsoluteIndexSet) (n : ℕ),
      ((sets.zipWith RemovalRecord.mk (List.replicate n (.empty : ChunkDictionary D))).flatMap
        fun rr => rr.targetChunks.dictionary) = [] := by
    intro sets n
    rw [flatMap_eq_nil_iff]
    intro rr hrr
    obtain ⟨i, hi, rfl⟩ := mem_iff_getElem.mp hrr
    simp [ChunkDictionary.empty]
  cases indexSets with
  | nil => rw [h rfl]; rfl
  | cons set sets =>
    rw [recordsOf, zipWith_cons_cons, flatMap_cons, hempty, append_nil]

/-- What is written for a consistent list, if its chunks can be packed. -/
theorem encodeAsVec_eq [MmrIndexing] {l : RemovalRecordList D} (hl : l.Consistent) :
    l.encodeAsVec = (l.chunks.mapM Chunk.pack).map fun packed =>
      recordsOf l.indexSets ⟨zipTreesWithChunks l.trees packed⟩ := by
  have hm : aoclToSwbfiLeafCounts l.numLeafsAocl = l.swbfiLeafs := rfl
  have hdictionary : l.compressedChunkDictionary = (l.chunks.mapM Chunk.pack).map fun packed =>
      ⟨zipTreesWithChunks l.trees packed⟩ := by
    rw [compressedChunkDictionary, observedChunkIndices_eq, some_bind,
      if_neg (not_not.mpr hl.length_chunks)]
    simp only [hm, MmrIndexing.getPeakHeights_eq]
    rw [if_neg (by simpa using hl.length_structures.symm)]
    cases l.chunks.mapM Chunk.pack <;> rfl
  rw [encodeAsVec, hdictionary]
  cases l.chunks.mapM Chunk.pack <;> rfl

end NyksNode.RemovalRecordList
