import NyksNode.Crypto.Indexing
import NyksNode.Lib.NodeNumbering
import Mathlib.Data.List.ProdSigma

/-!
# The node numbers of `twenty_first`

An archival mountain range keeps all nodes in one vector, at the numbers that `twenty_first`
gives them.  These are the functions of the crate that compute with such numbers; their laws
say what they give at the numbers of nodes that exist.
-/

namespace NyksNode

open List

open Merkle (nodeIndex nodeCount rightLineage peakHeights height sibling)

class MmrNodeIndexing extends MmrIndexing where
  leafIndexToNodeIndex : ℕ → ℕ
  /-- `node_index_to_leaf_index`; a parent has no leaf index. -/
  nodeIndexToLeafIndex : ℕ → Option ℕ
  rightLineageLengthFromLeafIndex : ℕ → ℕ
  rightLineageLengthAndOwnHeight : ℕ → ℕ × ℕ
  leftSibling : ℕ → ℕ → ℕ
  rightSibling : ℕ → ℕ → ℕ
  parent : ℕ → ℕ
  getPeakHeightsAndPeakNodeIndices : ℕ → List ℕ × List ℕ
  /-- `get_authentication_path_node_indices(start, end, node_count)`. -/
  getAuthenticationPathNodeIndices : ℕ → ℕ → ℕ → Option (List ℕ)
  leafIndexToNodeIndex_eq (i : ℕ) : leafIndexToNodeIndex i = nodeIndex 0 i
  nodeIndexToLeafIndex_eq (i : ℕ) : nodeIndexToLeafIndex (nodeIndex 0 i) = some i
  rightLineageLengthFromLeafIndex_eq (i : ℕ) : rightLineageLengthFromLeafIndex i = rightLineage i
  rightLineageLengthAndOwnHeight_eq (t k : ℕ) :
    rightLineageLengthAndOwnHeight (nodeIndex t k) = (rightLineage k, t)
  leftSibling_eq (t k : ℕ) : leftSibling (nodeIndex t (2 * k + 1)) t = nodeIndex t (2 * k)
  rightSibling_eq (t k : ℕ) : rightSibling (nodeIndex t (2 * k)) t = nodeIndex t (2 * k + 1)
  parent_eq (t k : ℕ) : parent (nodeIndex t k) = nodeIndex (t + 1) (k / 2)
  getPeakHeightsAndPeakNodeIndices_eq (n : ℕ) : getPeakHeightsAndPeakNodeIndices n =
      (peakHeights n, (peakHeights n).map fun t => nodeIndex t (n / 2 ^ t - 1))
  getAuthenticationPathNodeIndices_eq {i n : ℕ} (hi : i < n) :
    getAuthenticationPathNodeIndices (nodeIndex 0 i)
        (nodeIndex (height i n) (i / 2 ^ height i n)) (nodeCount n + 1) =
      some ((List.range (height i n)).map fun t => nodeIndex t (sibling (i / 2 ^ t)))

namespace MmrNodeIndexing

def decodeNode (index : ℕ) : Option (ℕ × ℕ) :=
  ((List.range (index + 1)).product (List.range (index + 1))).find? fun x =>
    decide (nodeIndex x.1 x.2 = index)

theorem decodeNode_nodeIndex (t k : ℕ) : decodeNode (nodeIndex t k) = some (t, k) := by
  cases hfind : decodeNode (nodeIndex t k) with
  | none =>
    rw [decodeNode, find?_eq_none] at hfind
    have hle := Merkle.le_nodeIndex t k
    have hmem : (t, k) ∈ (List.range (nodeIndex t k + 1)).product
        (List.range (nodeIndex t k + 1)) :=
      mem_product.mpr ⟨mem_range.mpr (by omega), mem_range.mpr (by omega)⟩
    simpa using hfind (t, k) hmem
  | some x =>
    have hx := find?_some hfind
    have hinj := Merkle.nodeIndex_injective (of_decide_eq_true hx)
    rw [Option.some_inj]
    exact Prod.ext hinj.1 hinj.2

@[reducible] def reference : MmrNodeIndexing where
  toMmrIndexing := .reference
  leafIndexToNodeIndex := nodeIndex 0
  nodeIndexToLeafIndex index :=
    (decodeNode index).bind fun x => if x.1 = 0 then some x.2 else none
  rightLineageLengthFromLeafIndex := rightLineage
  rightLineageLengthAndOwnHeight index :=
    ((decodeNode index).map fun x => (rightLineage x.2, x.1)).getD (0, 0)
  leftSibling index t := index - (2 ^ (t + 1) - 1)
  rightSibling index t := index + (2 ^ (t + 1) - 1)
  parent index := ((decodeNode index).map fun x => nodeIndex (x.1 + 1) (x.2 / 2)).getD 0
  getPeakHeightsAndPeakNodeIndices n :=
    (peakHeights n, (peakHeights n).map fun t => nodeIndex t (n / 2 ^ t - 1))
  getAuthenticationPathNodeIndices first last _ := do
    let x ← decodeNode first
    let y ← decodeNode last
    some ((List.range y.1).map fun t => nodeIndex t (sibling (x.2 / 2 ^ t)))
  leafIndexToNodeIndex_eq _ := rfl
  nodeIndexToLeafIndex_eq i := by simp [decodeNode_nodeIndex]
  rightLineageLengthFromLeafIndex_eq _ := rfl
  rightLineageLengthAndOwnHeight_eq t k := by simp [decodeNode_nodeIndex]
  leftSibling_eq t k := by rw [Merkle.nodeIndex_right, Nat.add_sub_cancel]
  rightSibling_eq t k := (Merkle.nodeIndex_right t k).symm
  parent_eq t k := by simp [decodeNode_nodeIndex]
  getPeakHeightsAndPeakNodeIndices_eq _ := rfl
  getAuthenticationPathNodeIndices_eq _ := by simp [decodeNode_nodeIndex]

end MmrNodeIndexing

end NyksNode
