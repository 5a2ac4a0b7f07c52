import NyksNode.Archival.MmrLeafs
import Mathlib.Data.Nat.Log

/-!
# Membership proofs relative to a shorter mountain range

An archival mountain range can prove membership in the range over its first leafs.  The
numbers of the siblings are computed from the leaf upwards with wrapping arithmetic on words:
the right sibling of a node comes later by a power of two less one, the left sibling
earlier.
-/

namespace NyksNode

open List Merkle

/-- The loop of `auth_path_node_indices`.  The first argument bounds the number of rounds; a shift
by the width of a word is a panic. -/
def authPathLoop : ℕ → ℕ → ℕ → ℕ → List ℕ → Option (List ℕ)
  | 0, _, _, _, _ => none
  | fuel + 1, merkleTreeIndex, nodeIndex, height, ret =>
    if merkleTreeIndex ≤ 1 then some ret
    else if 64 ≤ height + 1 then none
    else
      let isLeftSibling := merkleTreeIndex % 2 = 0
      let heightPow := 2 ^ (height + 1)
      let as1OrMinus1 := if isLeftSibling then 1 else u64Bound - 1
      let signedHeightPow := heightPow * as1OrMinus1 % u64Bound
      let sibling := (nodeIndex + signedHeightPow + (u64Bound - as1OrMinus1)) % u64Bound
      let nodeIndex := nodeIndex + if isLeftSibling then heightPow else 1
      if u64Bound ≤ nodeIndex then none
      else authPathLoop fuel (merkleTreeIndex / 2) nodeIndex (height + 1) (ret ++ [sibling])

variable [MmrNodeIndexing]

/-- `auth_path_node_indices`, a local function of `prove_membership_relative_to_smaller_mmr`. -/
def authPathNodeIndices (numLeafs leafIndex : ℕ) : Option (List ℕ) := do
  if numLeafs ≤ leafIndex then none
  else
    let (merkleTreeIndex, _) ← MmrIndexing.leafIndexToMtIndexAndPeakIndex leafIndex numLeafs
    let nodeIndex := MmrNodeIndexing.leafIndexToNodeIndex leafIndex
    let treeHeight := merkleTreeIndex.log2
    let ret ← authPathLoop 64 merkleTreeIndex nodeIndex 0 []
    -- `debug_assert_eq`
    if treeHeight ≠ ret.length then none else some ret

def ArchivalMmr.proveMembershipRelativeToSmallerMmr {D : Type} (m : ArchivalMmr D)
    (leafIndex numLeafs : ℕ) : Option (MmrMembershipProof D) := do
  let ownNumLeafs ← m.numLeafs
  if ownNumLeafs < numLeafs then none
  else do
    let nodeIndices ← authPathNodeIndices numLeafs leafIndex
    m.getMany nodeIndices

section
omit [MmrNodeIndexing]

theorem wrapping_right {x p : ℕ} (hp : 0 < p) (hlt : x + p < u64Bound) :
    (x + p * 1 % u64Bound + (u64Bound - 1)) % u64Bound = x + (p - 1) := by
  have hmod : p * 1 % u64Bound = p := by rw [Nat.mul_one, Nat.mod_eq_of_lt (by omega)]
  have hsum : x + p + (u64Bound - 1) = x + (p - 1) + u64Bound := by omega
  rw [hmod, hsum, Nat.add_mod_right, Nat.mod_eq_of_lt (by omega)]

theorem wrapping_left {x p : ℕ} (hp : 0 < p) (hlt : x + (p - 1) < u64Bound) :
    (x + (p - 1) + p * (u64Bound - 1) % u64Bound + (u64Bound - (u64Bound - 1))) % u64Bound = x := by
  have hpos : 0 < u64Bound := Nat.two_pow_pos 64
  have hmod : p * (u64Bound - 1) % u64Bound = u64Bound - p := by
    have hmul : p * (u64Bound - 1) = u64Bound - p + u64Bound * (p - 1) := by
      obtain ⟨q, rfl⟩ := Nat.exists_eq_succ_of_ne_zero hp.ne'
      have hle : q + 1 ≤ u64Bound := by omega
      zify [hle, Nat.succ_le_of_lt hpos]
      push_cast
      ring
    rw [hmul, Nat.add_mul_mod_self_left, Nat.mod_eq_of_lt (by omega)]
  have hsum : x + (p - 1) + (u64Bound - p) + (u64Bound - (u64Bound - 1)) = x + u64Bound := by
    omega
  rw [hmod, hsum, Nat.add_mod_right, Nat.mod_eq_of_lt (by omega)]

theorem authPathLoop_succ {fuel n t k : ℕ} (hn : 1 < n) (hparity : n % 2 = k % 2) (ht : t + 1 < 64)
    (hlt : nodeIndex (t + 1) (k / 2) < u64Bound) (ret : List ℕ) :
    authPathLoop (fuel + 1) n (nodeIndex t k) t ret =
      authPathLoop fuel (n / 2) (nodeIndex (t + 1) (k / 2)) (t + 1)
        (ret ++ [nodeIndex t (sibling k)]) := by
  have hparent := nodeIndex_parent t (k / 2)
  have hright := nodeIndex_right t (k / 2)
  have hpos : 0 < 2 ^ (t + 1) := by positivity
  rw [authPathLoop.eq_def]
  simp only [not_le.mpr hn, if_false, not_le.mpr ht, hparity]
  by_cases hk : k % 2 = 0
  · have hk' : 2 * (k / 2) = k := by omega
    rw [hk'] at hright hparent
    have hsum : nodeIndex t k + 2 ^ (t + 1) = nodeIndex (t + 1) (k / 2) := by omega
    rw [sibling_of_even hk, hright]
    simp only [hk, if_true, hsum, not_le.mpr hlt, if_false]
    rw [wrapping_right hpos (by omega)]
  · have hk' : 2 * (k / 2) + 1 = k := by omega
    have hk'' : 2 * (k / 2) = k - 1 := by omega
    rw [hk'] at hright hparent
    rw [hk''] at hright
    rw [sibling_of_odd (by omega)]
    simp only [hk, if_false, ← hparent, not_le.mpr hlt]
    rw [hright, wrapping_left hpos (by omega)]

theorem authPathLoop_eq (fuel : ℕ) {t k r : ℕ} (hfuel : r < fuel) (ht : t + r < 64)
    (hlt : ∀ j < r, nodeIndex (t + j + 1) (k / 2 ^ (j + 1)) < u64Bound) (ret : List ℕ) :
    authPathLoop fuel (2 ^ r + k % 2 ^ r) (nodeIndex t k) t ret =
      some (ret ++ (List.range r).map fun j => nodeIndex (t + j) (sibling (k / 2 ^ j))) := by
  induction r generalizing fuel t k ret with
  | zero =>
    obtain ⟨fuel, rfl⟩ := Nat.exists_eq_succ_of_ne_zero (Nat.pos_iff_ne_zero.mp hfuel)
    rw [authPathLoop.eq_def]
    simp [Nat.mod_one]
  | succ r ih =>
    obtain ⟨fuel, rfl⟩ := Nat.exists_eq_succ_of_ne_zero (Nat.ne_of_gt (by omega : 0 < fuel))
    have hmod : k % 2 ^ (r + 1) = k % 2 + 2 * (k / 2 % 2 ^ r) := by
      rw [pow_succ', Nat.mod_mul]
    have hpow : 2 ^ (r + 1) = 2 * 2 ^ r := pow_succ' 2 r
    have hpos : 0 < 2 ^ r := by positivity
    have hhalf : (2 ^ (r + 1) + k % 2 ^ (r + 1)) / 2 = 2 ^ r + k / 2 % 2 ^ r := by omega
    have h0 := hlt 0 (by omega)
    rw [authPathLoop_succ (by omega) (by omega) (by omega) (by simpa using h0), hhalf,
      ih fuel (by omega) (by omega), range_succ_eq_map, map_cons, map_map,
      append_assoc, singleton_append]
    · simp only [Nat.add_zero, pow_zero, Nat.div_one]
      congr 3
      refine map_congr_left fun j _ => ?_
      simp only [Function.comp_apply]
      rw [div_two_div_pow, show t + 1 + j = t + (j + 1) by omega]
    · intro j hj
      have := hlt (j + 1) (by omega)
      rwa [div_two_div_pow, show t + 1 + j + 1 = t + (j + 1) + 1 by omega]

end

omit [MmrNodeIndexing] in
/-- Exactly the ranges of fewer than `2 ^ 63` leafs have a vector whose length is a word. -/
theorem nodeCount_add_one_lt_iff {n : ℕ} : nodeCount n + 1 < u64Bound ↔ n < 2 ^ 63 := by
  have hcount := nodeCount_mul_two_pow 1 63
  have hpop : Merkle.popCount 1 = 1 := popCount_two_mul_add_one 0
  rw [Nat.one_mul, Nat.one_mul, hpop] at hcount
  have hbound : u64Bound = nodeCount (2 ^ 63) + 1 := hcount.symm
  rw [hbound, Nat.add_lt_add_iff_right, nodeCount_strictMono.lt_iff_lt]

/-- **The numbers of the siblings.** -/
theorem authPathNodeIndices_eq {n i : ℕ} (hi : i < n) (hn : nodeCount n + 1 < u64Bound) :
    authPathNodeIndices n i =
      some ((List.range (height i n)).map fun t => nodeIndex t (sibling (i / 2 ^ t))) := by
  have hbound : n < 2 ^ 63 := nodeCount_add_one_lt_iff.mp hn
  have hmem := two_pow_le_of_mem_peakHeights (height_mem_peakHeights hi)
  have hheight : height i n < 63 := (Nat.pow_lt_pow_iff_right Nat.one_lt_two).mp
    (hmem.trans_lt hbound)
  have hlt : ∀ j < height i n, nodeIndex (0 + j + 1) (i / 2 ^ (j + 1)) < u64Bound := by
    intro j hj
    have hle := nodeIndex_le_iff.mpr ((complete_iff hi).mpr (Nat.succ_le_of_lt hj))
    rw [Nat.zero_add]
    exact (hle.trans_lt (Nat.lt_succ_self _)).trans hn
  have hloop := authPathLoop_eq 64 (t := 0) (k := i) (r := height i n) (by omega)
    (by omega) hlt []
  rw [nil_append] at hloop
  have hlog : (2 ^ height i n + i % 2 ^ height i n).log2 = height i n := by
    have hmod := Nat.mod_lt i (Nat.two_pow_pos (height i n))
    rw [Nat.log2_eq_iff (by omega), pow_succ]
    omega
  simp only [authPathNodeIndices, if_neg (not_le.mpr hi), some_bind,
    MmrIndexing.leafIndexToMtIndexAndPeakIndex_eq hi, MmrNodeIndexing.leafIndexToNodeIndex_eq,
    hloop, hlog, length_map, length_range, ne_eq, not_true_eq_false, if_false]
  simp

namespace ArchivalMmr
variable {D : Type} [Tip5 D] [Inhabited D] {m : ArchivalMmr D} {ls : List D}

/-- **Membership among the first leafs.**  The proof is that of the range over them. -/
theorem Holds.proveMembershipRelativeToSmallerMmr_eq (h : m.Holds ls)
    (hlen : m.digests.length < u64Bound) {n i : ℕ} (hi : i < n) (hn : n ≤ ls.length) :
    m.proveMembershipRelativeToSmallerMmr i n = some (membershipProof (ls.take n) i) := by
  have hcount : nodeCount n + 1 < u64Bound := by
    rw [h.length_eq] at hlen
    have := nodeCount_strictMono.monotone hn
    omega
  simp only [proveMembershipRelativeToSmallerMmr, h.numLeafs_eq, some_bind, if_neg (not_lt.mpr hn),
    authPathNodeIndices_eq hi hcount, getMany, mapM_map]
  have hlength : (ls.take n).length = n := by rw [length_take, Nat.min_eq_left hn]
  rw [membershipProof, hlength, authPath_eq_map_range]
  refine mapM_eq_some fun t ht => ?_
  have hwithin := sibling_within hi (mem_range.mp ht)
  -- the sibling is a node over the first leafs
  have hnode := node_append (ls.take n) (ls.drop n) (hwithin.trans hlength.ge)
  rw [take_append_drop] at hnode
  rw [← hnode]
  exact h.node_eq t _ (hwithin.trans hn)

/-- There is no proof relative to a longer range, or beyond its end. -/
theorem Holds.proveMembershipRelativeToSmallerMmr_eq_none (h : m.Holds ls) {n i : ℕ}
    (hn : ls.length < n ∨ n ≤ i) : m.proveMembershipRelativeToSmallerMmr i n = none := by
  rw [proveMembershipRelativeToSmallerMmr, h.numLeafs_eq, some_bind]
  by_cases hlt : ls.length < n
  · rw [if_pos hlt]
  · rw [if_neg hlt, authPathNodeIndices, if_pos (hn.resolve_left hlt)]
    rfl

end ArchivalMmr

end NyksNode
