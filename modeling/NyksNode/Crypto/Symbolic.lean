import NyksNode.Crypto.Indexing

/-!
# Symbolic digests

Digests as the terms that were hashed: the ideal hash function.  With the reference
implementation of mountain ranges they are a model of everything the development
assumes about code outside the repository.
-/

namespace NyksNode

/-- A digest is the record of what was hashed. -/
inductive SymbolicDigest where
  | zero
  | atom (n : ℕ)
  | pair (left right : SymbolicDigest)
  | chunk (relativeIndices : List ℕ)
  | activeWindow (sbf : List ℕ)
  | leafCount (n : ℕ)
  deriving DecidableEq, Repr

namespace SymbolicDigest

instance : Inhabited SymbolicDigest := ⟨zero⟩

/-- The hexadecimal digits of an atom; other digests have none. -/
def toHex : SymbolicDigest → String
  | atom n => String.ofList (Nat.toDigits 16 n)
  | _ => ""

/-- Sampling runs through the window from the leaf index on. -/
instance : Tip5 SymbolicDigest where
  zeroDigest := zero
  toHex := toHex
  hashPair := pair
  hashChunk := chunk
  hashActiveWindow := activeWindow
  sampleIndices _ _ _ leafIndex upperBound numIndices :=
    (List.range numIndices).map fun j => (leafIndex + j) % upperBound
  length_sampleIndices := by simp
  sampleIndices_lt := by
    intro _ _ _ leafIndex upperBound numIndices hpos i hi
    obtain ⟨j, -, rfl⟩ := List.mem_map.mp hi
    exact Nat.mod_lt _ hpos

instance : Tip5.CollisionFree SymbolicDigest where
  hashPair_injective := fun _ _ _ _ h => ⟨pair.inj h |>.1, pair.inj h |>.2⟩
  hashChunk_injective := fun _ _ h => chunk.inj h
  hashActiveWindow_injective := fun _ _ h => activeWindow.inj h

instance : MmrOps SymbolicDigest := MmrOps.reference SymbolicDigest leafCount

instance : LawfulMmr SymbolicDigest := lawfulMmr_reference leafCount

instance : MmrOps.ReportsPositions SymbolicDigest := reportsPositions_reference leafCount

instance : MmrOps.RefreshesFromEither SymbolicDigest := refreshesFromEither_reference leafCount

/-- Bagging is a list of peaks that ends in the leaf count. -/
instance : MmrOps.CollisionFree SymbolicDigest where
  bagPeaks_injective := by
    rintro ⟨ps, m⟩ ⟨qs, n⟩ hbag
    change ps.foldr pair (leafCount m) = qs.foldr pair (leafCount n) at hbag
    induction ps generalizing qs with
    | nil =>
      cases qs with
      | nil => rw [leafCount.inj hbag]
      | cons q qs => cases hbag
    | cons p ps ih =>
      cases qs with
      | nil => cases hbag
      | cons q qs =>
        obtain ⟨rfl, htail⟩ := pair.inj hbag
        have heq := ih qs htail
        rw [MmrAccumulator.mk.injEq] at heq
        rw [heq.1, heq.2]

end SymbolicDigest

end NyksNode
