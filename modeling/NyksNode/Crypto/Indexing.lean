import NyksNode.Crypto.Mmr
import NyksNode.Lib.AuthenticationStructure

/-!
# The index functions of `twenty_first`

Besides whole operations on mountain ranges, the node calls the functions that say
where the nodes of a range are.  They compute with indices only, so the laws are
equations with the library's own functions and part of the interface.
-/

namespace NyksNode

/-- The index functions that the node calls. -/
class MmrIndexing where
  /-- `get_peak_heights(leaf_count)`, highest first. -/
  getPeakHeights : ℕ → List ℕ
  /-- `leaf_index_to_mt_index_and_peak_index(leaf_index, leaf_count)`, which asserts that there is
  such a leaf. -/
  leafIndexToMtIndexAndPeakIndex : ℕ → ℕ → Option (ℕ × ℕ)
  /-- `MerkleTree::authentication_structure_node_indices(num_leafs, leaf_indices)`; `none` is its
  error. -/
  authenticationStructureNodeIndices : ℕ → List ℕ → Option (List ℕ)
  getPeakHeights_eq (n : ℕ) : getPeakHeights n = Merkle.peakHeights n
  leafIndexToMtIndexAndPeakIndex_eq {i n : ℕ} (hi : i < n) : leafIndexToMtIndexAndPeakIndex i n =
      some (2 ^ Merkle.height i n + i % 2 ^ Merkle.height i n, Merkle.peakIndex i n)
  authenticationStructureNodeIndices_eq {t : ℕ} {js : List ℕ} (hjs : ∀ j ∈ js, j < 2 ^ t) :
    authenticationStructureNodeIndices (2 ^ t) js = some (Merkle.authStructure t js)

/-- The library's own functions. -/
@[reducible] def MmrIndexing.reference : MmrIndexing where
  getPeakHeights := Merkle.peakHeights
  leafIndexToMtIndexAndPeakIndex i n :=
    if i < n then
      some (2 ^ Merkle.height i n + i % 2 ^ Merkle.height i n, Merkle.peakIndex i n)
    else none
  authenticationStructureNodeIndices numLeafs js :=
    if ∀ j ∈ js, j < numLeafs then some (Merkle.authStructure numLeafs.log2 js) else none
  getPeakHeights_eq := fun _ => rfl
  leafIndexToMtIndexAndPeakIndex_eq := fun hi => if_pos hi
  authenticationStructureNodeIndices_eq := by
    intro t js hjs
    rw [if_pos hjs, Nat.log2_two_pow]

end NyksNode
