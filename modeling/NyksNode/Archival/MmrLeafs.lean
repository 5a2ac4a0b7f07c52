import NyksNode.Archival.Mmr
import NyksNode.Lib.Fold

/-!
# Archival mountain ranges as lists of leafs

An archival mountain range stands for a list of leafs: `ArchivalMmr.Holds` says that every node
over the leafs is stored at its number.  The operations act on the list, and what is read
from the vector is what the accumulator over the list has.
-/

namespace NyksNode

open List Merkle MmrNodeIndexing Tip5

namespace ArchivalMmr
variable {D : Type} [Tip5 D] [Inhabited D] [MmrNodeIndexing]

/-- The range holds the leafs `ls`: every node over them is stored at its number. -/
structure Holds (m : ArchivalMmr D) (ls : List D) : Prop where
  length_eq : m.digests.length = nodeCount ls.length + 1
  node_eq : ∀ t k, (k + 1) * 2 ^ t ≤ ls.length →
    m.digests[nodeIndex t k]? = some (node Tip5.hashPair (row ls) t k)

namespace Holds
variable {m : ArchivalMmr D} {ls : List D}

omit [MmrNodeIndexing] in
theorem new : (ArchivalMmr.new : ArchivalMmr D).Holds [] where
  length_eq := rfl
  node_eq t k hle := by
    have : 0 < (k + 1) * 2 ^ t := by positivity
    simp only [length_nil] at hle
    omega

/-! ## Reading -/

theorem numLeafs_eq (h : m.Holds ls) : m.numLeafs = some ls.length := by
  rw [numLeafs, h.length_eq, ← nodeIndex_zero, nodeIndexToLeafIndex_eq]

section
omit [MmrNodeIndexing]

theorem isEmpty_eq (h : m.Holds ls) : m.isEmpty = ls.isEmpty := by
  rw [isEmpty, h.length_eq]
  cases ls with
  | nil => rfl
  | cons d ls =>
    have hpos : nodeCount 0 < nodeCount (ls.length + 1) :=
      nodeCount_strictMono (Nat.succ_pos _)
    rw [nodeCount_zero] at hpos
    rw [length_cons, isEmpty_cons, beq_eq_false_iff_ne]
    omega

theorem getElem?_leaf (h : m.Holds ls) (i : ℕ) : m.digests[nodeIndex 0 i]? = ls[i]? := by
  by_cases hi : i < ls.length
  · rw [h.node_eq 0 i (by omega), node_zero, row_eq_getElem hi, getElem?_eq_getElem hi]
  · rw [getElem?_eq_none (not_lt.mp hi), getElem?_eq_none]
    rw [h.length_eq, nodeIndex_zero]
    have := nodeCount_strictMono.monotone (not_lt.mp hi)
    omega

end

section
variable (h : m.Holds ls)
include h

theorem getLeafAsync_eq (i : ℕ) : m.getLeafAsync i = ls[i]? := by
  rw [getLeafAsync, leafIndexToNodeIndex_eq, h.getElem?_leaf]

theorem tryGetLeaf_eq (i : ℕ) : m.tryGetLeaf i = some ls[i]? := by
  rw [tryGetLeaf, h.numLeafs_eq, some_bind, h.getLeafAsync_eq]
  by_cases hi : i < ls.length
  · rw [if_neg (not_le.mpr hi), getElem?_eq_getElem hi, Option.map_some]
  · rw [if_pos (not_lt.mp hi), getElem?_eq_none (not_lt.mp hi)]

theorem peaks_eq : m.peaks = some (MmrAccumulator.ofLeafs ls).peaks := by
  rw [peaks, h.numLeafs_eq, some_bind, getPeakHeightsAndPeakNodeIndices_eq, getMany, mapM_map]
  apply mapM_eq_some
  intro t ht
  apply h.node_eq
  rw [mem_peakHeights] at ht
  have hpos : 1 ≤ ls.length / 2 ^ t := Nat.pos_of_ne_zero fun h0 => by simp [h0] at ht
  rw [Nat.sub_add_cancel hpos]
  exact Nat.div_mul_le_self _ _

theorem toAccumulatorAsync_eq : m.toAccumulatorAsync = some (.ofLeafs ls) := by
  rw [toAccumulatorAsync, h.peaks_eq, h.numLeafs_eq]
  rfl

theorem proveMembershipAsync_eq {i : ℕ} (hi : i < ls.length) :
    m.proveMembershipAsync i = some (membershipProof ls i) := by
  have hpeak : ((peakHeights ls.length).map fun t => nodeIndex t (ls.length / 2 ^ t - 1))[
      peakIndex i ls.length]? =
        some (nodeIndex (height i ls.length) (i / 2 ^ height i ls.length)) := by
    rw [getElem?_map, getElem?_peakHeights_peakIndex hi, Option.map_some,
      (height_spec hi).1, Nat.add_sub_cancel]
  rw [proveMembershipAsync, h.numLeafs_eq]
  simp only [some_bind, if_neg (not_le.mpr hi), MmrIndexing.leafIndexToMtIndexAndPeakIndex_eq hi,
    getPeakHeightsAndPeakNodeIndices_eq, hpeak, h.length_eq,
    leafIndexToNodeIndex_eq, getAuthenticationPathNodeIndices_eq hi]
  rw [getMany, mapM_map]
  rw [membershipProof, authPath_eq_map_range]
  apply mapM_eq_some
  intro t ht
  exact h.node_eq t _ (sibling_within hi (mem_range.mp ht))

end

/-! ## Appending -/

omit [MmrNodeIndexing] in
theorem node_append (ls ms : List D) {t k : ℕ} (hle : (k + 1) * 2 ^ t ≤ ls.length) :
    node hashPair (row (ls ++ ms)) t k = node hashPair (row ls) t k := by
  apply node_congr
  intro i _ hi
  exact row_append_of_lt ms (hi.trans_le hle)

/-- The loop of `append` adds the nodes that the leaf completes. -/
theorem foldlM_appendParent (h : m.Holds ls) (d : D) {j : ℕ} (hj : j ≤ rightLineage ls.length) :
    (List.range j).foldlM appendParent (m.digests ++ [d], nodeIndex 0 ls.length, d, []) =
      some (m.digests ++ (List.range (j + 1)).map fun t =>
          node hashPair (row (ls ++ [d])) t (ls.length / 2 ^ t),
        nodeIndex j (ls.length / 2 ^ j), node hashPair (row (ls ++ [d])) j (ls.length / 2 ^ j),
        Merkle.pathFrom hashPair (row (ls ++ [d])) 0 j ls.length) := by
  induction j with
  | zero => simp [row_concat_length]
  | succ j ih =>
    set q := ls.length / 2 ^ (j + 1) with hq
    have hodd : ls.length / 2 ^ j = 2 * q + 1 := div_two_pow_of_lt_rightLineage (by omega)
    have hwithin : (2 * q + 1) * 2 ^ j ≤ ls.length := by
      rw [← hodd]
      exact Nat.div_mul_le_self _ _
    have hlt : nodeIndex j (2 * q) < m.digests.length := by
      have := nodeIndex_le_iff.mpr hwithin
      rw [h.length_eq]
      omega
    have hparent := node_succ hashPair (row (ls ++ [d])) j q
    have hpath : pathFrom hashPair (row (ls ++ [d])) 0 (j + 1) ls.length =
        pathFrom hashPair (row (ls ++ [d])) 0 j ls.length ++
          [node hashPair (row (ls ++ [d])) j (2 * q)] := by
      rw [pathFrom_add, Nat.zero_add, hodd, pathFrom_succ, pathFrom_zero,
        sibling_of_odd (by omega), Nat.add_sub_cancel]
    rw [range_succ, foldlM_append, ih (by omega), hodd, hpath,
      range_succ (n := j + 1), map_append, map_singleton, ← hq, hparent, nodeIndex_parent]
    simp only [foldlM_cons, foldlM_nil, appendParent, leftSibling_eq,
      getElem?_append_left hlt, h.node_eq j (2 * q) hwithin, some_bind,
      ← node_append ls [d] hwithin, append_assoc]
    rfl

theorem append_eq_some (h : m.Holds ls) (d : D) :
    ∃ m', m.append d = some (m', membershipProof (ls ++ [d]) ls.length) ∧ m'.Holds (ls ++ [d]) := by
  set new := (range (rightLineage ls.length + 1)).map fun t =>
    node hashPair (row (ls ++ [d])) t (ls.length / 2 ^ t) with hnew
  have hlength : (ls ++ [d]).length = ls.length + 1 := by simp
  refine ⟨⟨m.digests ++ new⟩, ?_, ?_, ?_⟩
  · rw [append, h.length_eq, ← nodeIndex_zero, nodeIndexToLeafIndex_eq]
    simp only [some_bind, rightLineageLengthFromLeafIndex_eq, h.foldlM_appendParent d le_rfl]
    rw [membershipProof, authPath, hlength, height_last]
  · rw [length_append, h.length_eq, hnew, length_map, length_range, hlength, nodeCount_succ]
    omega
  · intro t k hle
    rw [hlength] at hle
    by_cases hold : (k + 1) * 2 ^ t ≤ ls.length
    · have hlt : nodeIndex t k < m.digests.length := by
        have := nodeIndex_le_iff.mpr hold
        rw [h.length_eq]
        omega
      rw [getElem?_append_left hlt, h.node_eq t k hold, node_append ls [d] hold]
    · -- the node ends with the new leaf
      have hend : (k + 1) * 2 ^ t = ls.length + 1 := by omega
      have ht : t ≤ rightLineage ls.length :=
        le_rightLineage_iff.mpr ⟨k + 1, by rw [← hend, mul_comm]⟩
      have hk : ls.length / 2 ^ t = k := by
        rw [Nat.div_eq_iff (by positivity)]
        have hexp : (k + 1) * 2 ^ t = k * 2 ^ t + 2 ^ t := by ring
        have hpos : 0 < 2 ^ t := by positivity
        omega
      have hindex : nodeIndex t k = m.digests.length + t := by
        rw [nodeIndex_eq_last, hend, Nat.add_sub_cancel, h.length_eq]
      rw [hindex, getElem?_append_right (Nat.le_add_right _ _), Nat.add_sub_cancel_left, hnew,
        getElem?_map, getElem?_range (by omega), Option.map_some, hk]

/-! ## Replacing a leaf -/

omit [MmrNodeIndexing] in
/-- The vector while a leaf is being replaced: up to height `t` nodes are those over the new
leafs, above it those over the old ones. -/
structure Mutated (digests : List D) (ls : List D) (i : ℕ) (d : D) (t : ℕ) : Prop where
  length_eq : digests.length = nodeCount ls.length + 1
  new_eq : ∀ s ≤ t, ∀ k, (k + 1) * 2 ^ s ≤ ls.length →
    digests[nodeIndex s k]? = some (node Tip5.hashPair (row (ls.set i d)) s k)
  old_eq : ∀ s, t < s → ∀ k, (k + 1) * 2 ^ s ≤ ls.length →
    digests[nodeIndex s k]? = some (node Tip5.hashPair (row ls) s k)

section
omit [MmrNodeIndexing]

theorem node_set_of_ne {i t k : ℕ} (hi : i < ls.length) (d : D) (hne : i / 2 ^ t ≠ k) :
    node hashPair (row (ls.set i d)) t k = node hashPair (row ls) t k := by
  rw [row_set hi]
  exact node_update_of_ne d hne

theorem Mutated.set {digests : List D} {i t : ℕ} {d : D} (hm : Mutated digests ls i d t)
    (hi : i < ls.length) (hcomplete : (i / 2 ^ (t + 1) + 1) * 2 ^ (t + 1) ≤ ls.length) :
    Mutated (digests.set (nodeIndex (t + 1) (i / 2 ^ (t + 1)))
      (node hashPair (row (ls.set i d)) (t + 1) (i / 2 ^ (t + 1)))) ls i d (t + 1) := by
  refine ⟨by rw [length_set, hm.length_eq], ?_, ?_⟩
  · intro s hs k hk
    by_cases hself : s = t + 1 ∧ k = i / 2 ^ (t + 1)
    · obtain ⟨rfl, rfl⟩ := hself
      have hlt := nodeIndex_le_iff.mpr hcomplete
      rw [getElem?_set_self (by rw [hm.length_eq]; omega)]
    · have hne : nodeIndex (t + 1) (i / 2 ^ (t + 1)) ≠ nodeIndex s k := by
        intro heq
        have hinj := nodeIndex_injective heq
        exact hself ⟨hinj.1.symm, hinj.2.symm⟩
      rw [getElem?_set_ne hne]
      by_cases hst : s ≤ t
      · exact hm.new_eq s hst k hk
      · have heq : s = t + 1 := by omega
        subst heq
        rw [hm.old_eq _ (by omega) k hk, node_set_of_ne hi d fun hk => hself ⟨rfl, hk.symm⟩]
  · intro s hs k hk
    have hne : nodeIndex (t + 1) (i / 2 ^ (t + 1)) ≠ nodeIndex s k := by
      intro heq
      have hinj := nodeIndex_injective heq
      omega
    rw [getElem?_set_ne hne]
    exact hm.old_eq s (by omega) k hk

end

theorem Mutated.hashWithSibling_eq {digests : List D} {i t : ℕ} {d : D}
    (hm : Mutated digests ls i d t) (hcomplete : (i / 2 ^ (t + 1) + 1) * 2 ^ (t + 1) ≤ ls.length) :
    hashWithSibling digests (nodeIndex t (i / 2 ^ t))
        (node hashPair (row (ls.set i d)) t (i / 2 ^ t)) =
      some (node hashPair (row (ls.set i d)) (t + 1) (i / 2 ^ (t + 1))) := by
  set q := i / 2 ^ (t + 1) with hq
  have hexp : (q + 1) * 2 ^ (t + 1) = (2 * q + 1 + 1) * 2 ^ t := by ring
  rw [hexp] at hcomplete
  have hleft : (2 * q + 1) * 2 ^ t ≤ ls.length :=
    le_trans (Nat.mul_le_mul_right _ (by omega)) hcomplete
  have hparent := node_succ hashPair (row (ls.set i d)) t q
  rw [hashWithSibling, rightLineageLengthAndOwnHeight_eq]
  rcases Nat.mod_two_eq_zero_or_one (i / 2 ^ t) with heven | hodd
  · have hpos : i / 2 ^ t = 2 * q := by
      rw [hq, div_pow_succ]
      omega
    simp [hpos, rightLineage_two_mul, rightSibling_eq, hm.new_eq t le_rfl _ hcomplete, hparent]
  · have hpos : i / 2 ^ t = 2 * q + 1 := by
      rw [hq, div_pow_succ]
      omega
    simp only [hpos, rightLineage_two_mul_add_one, leftSibling_eq, ne_eq,
      Nat.succ_ne_zero, not_false_eq_true, if_true, hm.new_eq t le_rfl _ hleft, Option.map_some,
      hparent]

/-- The loop of `mutate_leaf` climbs to the root of the tree. -/
theorem mutateLoop_eq_some {i : ℕ} (hi : i < ls.length) (d : D) (fuel : ℕ) :
    ∀ (t : ℕ) (digests : List D), t ≤ height i ls.length → height i ls.length < t + fuel →
      Mutated digests ls i d t → ∃ digests', mutateLoop fuel digests (nodeIndex t (i / 2 ^ t))
          (MmrNodeIndexing.parent (nodeIndex t (i / 2 ^ t)))
          (node hashPair (row (ls.set i d)) t (i / 2 ^ t)) = some digests' ∧
        Mutated digests' ls i d (height i ls.length) := by
  induction fuel with
  | zero =>
    intro t digests hle hlt _
    omega
  | succ fuel ih =>
    intro t digests hle hlt hm
    rw [mutateLoop, parent_eq, ← div_pow_succ]
    have hguard : nodeIndex (t + 1) (i / 2 ^ (t + 1)) < digests.length ↔
        t + 1 ≤ height i ls.length := by
      rw [hm.length_eq, Nat.lt_succ_iff, nodeIndex_le_iff, complete_iff hi]
    by_cases ht : t + 1 ≤ height i ls.length
    · have hcomplete := (complete_iff hi).mpr ht
      rw [if_pos (hguard.mpr ht), hm.hashWithSibling_eq hcomplete]
      simp only [some_bind, storageSet_of_lt _ (hguard.mpr ht)]
      exact ih (t + 1) _ ht (by omega) (hm.set hi hcomplete)
    · have heq : t = height i ls.length := by omega
      rw [if_neg (hguard.not.mpr ht)]
      exact ⟨digests, rfl, heq ▸ hm⟩

theorem mutateLeaf_eq_some (h : m.Holds ls) {i : ℕ} (hi : i < ls.length) (d : D) :
    ∃ m', m.mutateLeaf i d = some m' ∧ m'.Holds (ls.set i d) := by
  have hlt : nodeIndex 0 i < m.digests.length := by
    have := nodeIndex_le_iff.mpr (show (i + 1) * 2 ^ 0 ≤ ls.length by omega)
    rw [h.length_eq]
    omega
  have hleaf : row (ls.set i d) i = d := by
    rw [row_set hi, Function.update_self]
  have hstart : Mutated (m.digests.set (nodeIndex 0 i) d) ls i d 0 := by
    refine ⟨by rw [length_set, h.length_eq], ?_, ?_⟩
    · intro s hs k hk
      obtain rfl : s = 0 := by omega
      by_cases hki : k = i
      · rw [hki, getElem?_set_self hlt, node_zero, hleaf]
      · have hne : nodeIndex 0 i ≠ nodeIndex 0 k := fun heq =>
          hki (nodeIndex_injective heq).2.symm
        rw [getElem?_set_ne hne, h.node_eq 0 k hk, node_set_of_ne hi d]
        simpa using Ne.symm hki
    · intro s hs k hk
      have hne : nodeIndex 0 i ≠ nodeIndex s k := fun heq => by
        have := (nodeIndex_injective heq).1
        omega
      rw [getElem?_set_ne hne, h.node_eq s k hk]
  have hfuel : height i ls.length < 0 + ((m.digests.set (nodeIndex 0 i) d).length + 1) := by
    have hle := nodeIndex_le_iff.mpr ((complete_iff hi).mpr le_rfl)
    have hidx := (le_nodeIndex (height i ls.length) (i / 2 ^ height i ls.length)).1
    rw [length_set, h.length_eq]
    omega
  obtain ⟨digests, hloop, hm⟩ := mutateLoop_eq_some hi d _ 0 _ (Nat.zero_le _) hfuel hstart
  rw [pow_zero, Nat.div_one, node_zero, hleaf] at hloop
  refine ⟨⟨digests⟩, ?_, by rw [length_set]; exact hm.length_eq, ?_⟩
  · rw [mutateLeaf, leafIndexToNodeIndex_eq]
    simp only [storageSet_of_lt d hlt, some_bind, hloop]
  · intro t k hk
    rw [length_set] at hk
    by_cases ht : t ≤ height i ls.length
    · exact hm.new_eq t ht k hk
    · -- above its tree the leaf has no complete ancestor
      have hne : i / 2 ^ t ≠ k := by
        intro hik
        rw [← hik] at hk
        exact ht ((complete_iff hi).mp hk)
      rw [hm.old_eq t (not_le.mp ht) k hk, node_set_of_ne hi d hne]

theorem foldlM_mutateLeaf (h : m.Holds ls) {mutationData : List (ℕ × D)}
    (hlt : ∀ md ∈ mutationData, md.1 < ls.length) :
    ∃ m', mutationData.foldlM (fun m md => m.mutateLeaf md.1 md.2) m = some m' ∧
      m'.Holds (Merkle.applyMutations ls (mutationData.map fun md => ⟨md.1, md.2, []⟩)) := by
  induction mutationData generalizing m ls with
  | nil => exact ⟨m, rfl, h⟩
  | cons md mutationData ih =>
    obtain ⟨m₁, hstep, h₁⟩ := h.mutateLeaf_eq_some (hlt md mem_cons_self) md.2
    obtain ⟨m', hrun, h'⟩ := ih h₁ fun md' hmem => by
      rw [length_set]
      exact hlt md' (mem_cons_of_mem _ hmem)
    exact ⟨m', by rw [foldlM_cons, hstep]; exact hrun, h'⟩

theorem batchMutateLeafAndUpdateMps_nil [DecidableEq D] (h : m.Holds ls)
    {mutationData : List (ℕ × D)} (hnd : (mutationData.map (·.1)).Nodup)
    (hlt : ∀ md ∈ mutationData, md.1 < ls.length) :
    ∃ m', m.batchMutateLeafAndUpdateMps [] mutationData = some (m', [], []) ∧
      m'.Holds (Merkle.applyMutations ls (mutationData.map fun md => ⟨md.1, md.2, []⟩)) := by
  obtain ⟨m', hrun, h'⟩ := h.foldlM_mutateLeaf hlt
  refine ⟨m', ?_, h'⟩
  rw [batchMutateLeafAndUpdateMps, if_pos hnd, hrun]
  rfl

/-! ## Removing leafs -/

omit [MmrNodeIndexing] in
theorem take (h : m.Holds ls) {n : ℕ} (hn : n ≤ ls.length) :
    ArchivalMmr.Holds ⟨m.digests.take (nodeCount n + 1)⟩ (ls.take n) := by
  have hlength : (ls.take n).length = n := by simp [hn]
  have hle := nodeCount_strictMono.monotone hn
  refine ⟨?_, ?_⟩
  · rw [length_take, h.length_eq, hlength]
    omega
  · intro t k hk
    have hindex := nodeIndex_le_iff.mpr hk
    rw [hlength] at hindex
    have happend := node_append (ls.take n) (ls.drop n) hk
    rw [take_append_drop] at happend
    rw [hlength] at hk
    rw [getElem?_take_of_lt (by omega), h.node_eq t k (hk.trans hn), happend]

section
omit [Tip5 D] [Inhabited D] [MmrNodeIndexing]

theorem storagePop_eq_some {xs : List D} (hxs : 0 < xs.length) :
    storagePop xs = some (xs[xs.length - 1], xs.take (xs.length - 1)) := by
  rw [storagePop, getLast?_eq_getElem?, getElem?_eq_getElem (by omega), dropLast_eq_take]
  rfl

theorem foldlM_storagePop {xs : List D} {j : ℕ} (hj : j < xs.length) :
    (List.range j).foldlM (fun x _ => storagePop x.2) (xs[xs.length - 1], xs.take (xs.length - 1)) =
      some (xs[xs.length - 1 - j], xs.take (xs.length - 1 - j)) := by
  induction j with
  | zero => rfl
  | succ j ih =>
    rw [range_succ, foldlM_append, ih (by omega), some_bind,
      foldlM_cons, storagePop_eq_some (by rw [length_take]; omega)]
    simp only [length_take, getElem_take, take_take, foldlM_nil,
      some_bind, Option.pure_def, Option.some_inj, Prod.mk.injEq]
    have hmin : min (xs.length - 1 - j) xs.length - 1 = xs.length - 1 - (j + 1) := by omega
    refine ⟨by simp only [hmin], ?_⟩
    rw [hmin]
    congr 1
    omega

end

/-- The height of the last node is the number of parents of the last leaf. -/
theorem height_last_node {d : D} (h : m.Holds (ls ++ [d])) :
    m.digests.length - 1 = nodeCount ls.length + 1 + rightLineage ls.length ∧
      (MmrNodeIndexing.rightLineageLengthAndOwnHeight (m.digests.length - 1)).2 =
        rightLineage ls.length := by
  have hlength : m.digests.length - 1 = nodeCount (ls.length + 1) := by
    rw [h.length_eq, length_append, length_singleton, Nat.add_sub_cancel]
  refine ⟨by rw [hlength, nodeCount_succ], ?_⟩
  rw [hlength, ← nodeIndex_rightLineage, rightLineageLengthAndOwnHeight_eq]

theorem getLatestLeaf_eq (h : m.Holds ls) : m.getLatestLeaf = some ls.getLast? := by
  rw [getLatestLeaf, h.isEmpty_eq]
  rcases eq_nil_or_concat ls with rfl | ⟨init, d, rfl⟩
  · rfl
  · rw [concat_eq_append] at *
    obtain ⟨hlast, hheight⟩ := h.height_last_node
    have hindex : m.digests.length - 1 - rightLineage init.length = nodeIndex 0 init.length := by
      rw [hlast, nodeIndex_zero, Nat.add_sub_cancel]
    have hempty : (init ++ [d]).isEmpty = false := by simp
    simp only [hempty, Bool.false_eq_true, if_false, hheight, hindex, h.getElem?_leaf,
      getElem?_concat_length, Option.map_some, getLast?_concat]

theorem removeLastLeafAsync_eq_some (h : m.Holds ls) :
    ∃ m', m.removeLastLeafAsync = some (ls.getLast?, m') ∧ m'.Holds ls.dropLast := by
  rw [removeLastLeafAsync, h.isEmpty_eq]
  rcases eq_nil_or_concat ls with rfl | ⟨init, d, rfl⟩
  · exact ⟨m, rfl, h⟩
  · rw [concat_eq_append] at *
    obtain ⟨hlast, hheight⟩ := h.height_last_node
    have hremaining : m.digests.length - 1 - rightLineage init.length =
        nodeCount init.length + 1 := by
      rw [hlast, Nat.add_sub_cancel]
    have hleaf := h.getElem?_leaf init.length
    rw [getElem?_concat_length, nodeIndex_zero] at hleaf
    obtain ⟨hlt, hleaf⟩ := List.getElem?_eq_some_iff.mp hleaf
    have hpop := foldlM_storagePop (show rightLineage init.length < m.digests.length by omega)
    simp only [hremaining, hleaf] at hpop
    have htake := h.take (n := init.length) (by simp)
    rw [take_left] at htake
    refine ⟨⟨m.digests.take (nodeCount init.length + 1)⟩, ?_, by rwa [dropLast_concat]⟩
    rw [storagePop_eq_some (by omega)]
    have hempty : (init ++ [d]).isEmpty = false := by simp
    simp only [hempty, Bool.false_eq_true, if_false, some_bind, hheight, hpop, getLast?_concat]

omit [Tip5 D] [Inhabited D] [MmrNodeIndexing] in
/-- The loop of `prune_to_num_leafs` needs one round for each element and one to stop. -/
theorem pruneLoop_eq_some (index fuel : ℕ) :
    ∀ xs : List D, xs.length < fuel → pruneLoop fuel xs index = some (xs.take index) := by
  induction fuel with
  | zero =>
    intro xs hlt
    omega
  | succ fuel ih =>
    intro xs hlt
    rw [pruneLoop]
    by_cases hindex : index < xs.length
    · rw [if_pos hindex, storagePop_eq_some (by omega)]
      simp only [some_bind]
      rw [ih _ (by rw [length_take]; omega), take_take, min_eq_left (by omega)]
    · rw [if_neg hindex, take_of_length_le (not_lt.mp hindex)]

omit [Tip5 D] [Inhabited D] in
theorem pruneToNumLeafs_eq (m : ArchivalMmr D) (n : ℕ) :
    m.pruneToNumLeafs n = some ⟨m.digests.take (nodeCount n + 1)⟩ := by
  rw [pruneToNumLeafs, leafIndexToNodeIndex_eq, nodeIndex_zero,
    pruneLoop_eq_some _ _ _ (Nat.lt_succ_self _)]
  rfl

theorem pruneToNumLeafs_eq_some (h : m.Holds ls) (n : ℕ) :
    ∃ m', m.pruneToNumLeafs n = some m' ∧ m'.Holds (ls.take n) := by
  refine ⟨_, pruneToNumLeafs_eq m n, ?_⟩
  by_cases hn : n ≤ ls.length
  · exact h.take hn
  · have hle := nodeCount_strictMono.monotone (not_le.mp hn).le
    rw [take_of_length_le (not_le.mp hn).le, take_of_length_le (by rw [h.length_eq]; omega)]
    exact h

/-! ## The vector as a whole -/

section
omit [MmrNodeIndexing]

theorem ext {m' : ArchivalMmr D} (h : m.Holds ls) (h' : m'.Holds ls)
    (hdummy : m.digests[0]? = m'.digests[0]?) : m = m' := by
  refine ArchivalMmr.ext (ext_getElem? fun x => ?_)
  by_cases hx : x = 0
  · rw [hx, hdummy]
  · by_cases hle : x ≤ nodeCount ls.length
    · obtain ⟨t, k, rfl, hcomplete⟩ := exists_nodeIndex (Nat.pos_of_ne_zero hx) hle
      rw [h.node_eq t k hcomplete, h'.node_eq t k hcomplete]
    · rw [getElem?_eq_none (by rw [h.length_eq]; omega),
        getElem?_eq_none (by rw [h'.length_eq]; omega)]

theorem length_pos (h : m.Holds ls) : 0 < m.digests.length := by
  rw [h.length_eq]
  omega

end

end Holds

section
variable {m m' : ArchivalMmr D}

omit [Inhabited D] in
/-- `append` puts new digests behind the old ones. -/
theorem prefix_of_append {d : D} {path : MmrMembershipProof D}
    (happend : m.append d = some (m', path)) : m.digests <+: m'.digests := by
  simp only [append, bind_eq_some, Option.some_inj, Prod.mk.injEq] at happend
  obtain ⟨leafIndex, -, x, hfold, rfl, -⟩ := happend
  refine foldlM_invariant (P := fun x => m.digests <+: x.1) (fun x t _ y hx hy => ?_)
    (prefix_append _ _) hfold
  simp only [appendParent, bind_eq_some] at hy
  obtain ⟨left, -, hy⟩ := hy
  cases hy
  exact hx.trans (prefix_append _ _)

omit [Tip5 D] [Inhabited D] [MmrNodeIndexing] in
theorem getElem?_zero_of_prefix {xs ys : List D} (hpos : 0 < xs.length) (h : xs <+: ys) :
    xs[0]? = ys[0]? := by
  obtain ⟨zs, rfl⟩ := h
  rw [getElem?_append_left hpos]

theorem dummy_of_append {ls : List D} (h : m.Holds ls) {d : D} {path : MmrMembershipProof D}
    (happend : m.append d = some (m', path)) : m'.digests[0]? = m.digests[0]? := by
  symm
  exact getElem?_zero_of_prefix h.length_pos (prefix_of_append happend)

omit [Tip5 D] [Inhabited D] [MmrNodeIndexing] in
theorem getElem?_zero_of_storageSet {xs ys : List D} {index : ℕ} {d : D} (hpos : 0 < index)
    (hset : storageSet xs index d = some ys) : ys[0]? = xs[0]? := by
  rw [storageSet, Option.ite_none_right_eq_some, Option.some_inj] at hset
  rw [← hset.2, getElem?_set_ne hpos.ne']

omit [Inhabited D] in
/-- The loop of `mutate_leaf` climbs, and never gets to the dummy. -/
theorem dummy_of_mutateLoop (fuel : ℕ) : ∀ (t k : ℕ) (digests digests' : List D) (acc : D),
    mutateLoop fuel digests (nodeIndex t k) (MmrNodeIndexing.parent (nodeIndex t k)) acc =
      some digests' → digests'[0]? = digests[0]? := by
  induction fuel with
  | zero =>
    intro t k digests digests' acc hloop
    simp [mutateLoop] at hloop
  | succ fuel ih =>
    intro t k digests digests' acc hloop
    rw [mutateLoop, parent_eq] at hloop
    split at hloop
    · simp only [bind_eq_some] at hloop
      obtain ⟨acc', -, digests₁, hset, hloop⟩ := hloop
      have hpos : 0 < nodeIndex (t + 1) (k / 2) :=
        (Nat.zero_le _).trans_lt (lt_nodeIndex _ _)
      rw [ih _ _ _ _ _ hloop, getElem?_zero_of_storageSet hpos hset]
    · rw [Option.some_inj.mp hloop]

omit [Inhabited D] in
theorem dummy_of_mutateLeaf {i : ℕ} {d : D} (hmutate : m.mutateLeaf i d = some m') :
    m'.digests[0]? = m.digests[0]? := by
  simp only [mutateLeaf, leafIndexToNodeIndex_eq, bind_eq_some] at hmutate
  obtain ⟨digests₁, hset, digests₂, hloop, hm'⟩ := hmutate
  cases hm'
  have hpos : 0 < nodeIndex 0 i := (Nat.zero_le _).trans_lt (lt_nodeIndex _ _)
  rw [dummy_of_mutateLoop _ _ _ _ _ _ hloop, getElem?_zero_of_storageSet hpos hset]

theorem dummy_of_removeLastLeafAsync {ls : List D} {d : Option D} (h : m.Holds ls)
    (hremove : m.removeLastLeafAsync = some (d, m')) : m'.digests[0]? = m.digests[0]? := by
  obtain ⟨m₁, hm₁, hholds⟩ := h.removeLastLeafAsync_eq_some
  obtain ⟨-, rfl⟩ := Prod.mk.inj (Option.some_inj.mp (hremove.symm.trans hm₁))
  refine getElem?_zero_of_prefix hholds.length_pos ?_
  rw [removeLastLeafAsync] at hremove
  split at hremove
  · obtain ⟨-, rfl⟩ := Prod.mk.inj (Option.some_inj.mp hremove)
    exact prefix_rfl
  · simp only [storagePop, bind_eq_some, Option.some_inj, Prod.mk.injEq] at hremove
    obtain ⟨x, hx, y, hfold, -, rfl⟩ := hremove
    obtain ⟨_, -, rfl⟩ := Option.map_eq_some_iff.mp hx
    have hpop : ∀ ds : List D, ds.dropLast <+: ds := List.dropLast_prefix
    refine foldlM_invariant (P := fun y => y.2 <+: m.digests) (fun y _ _ z hy hz => ?_)
      (hpop _) hfold
    obtain ⟨_, -, rfl⟩ := Option.map_eq_some_iff.mp hz
    exact (hpop _).trans hy

end

end ArchivalMmr

end NyksNode
