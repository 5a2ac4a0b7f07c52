import NyksNode.Archival.SmallerMmr
import NyksNode.Crypto.Symbolic

/-!
# An archival mountain range and an accumulator

The archival range keeps all nodes, the accumulator only its peaks and the number of leafs.  Fed the
same calls, both represent the same list of leafs, so the peaks and the number of leafs agree.

A list of leafs determines the vector of the archival range that started empty.  So whatever leads
back to a list of leafs, popping the last one or pruning, gives the vector that appending its leafs
one by one gives.
-/

namespace NyksNode

open List Option MmrAccumulator

/-- `Mmr::mutate_leaf` of an accumulator, which panics on a leaf that is not there. -/
class MmrOps.LeafMutations (D : Type) where
  mutateLeaf : MmrAccumulator D → LeafMutation D → Option (MmrAccumulator D)

/-- Mutating a leaf, with its membership proof. -/
class MmrOps.LawfulLeafMutations (D : Type) [Tip5 D] [Inhabited D] [MmrOps.LeafMutations D] :
    Prop where
  mutateLeaf_ofLeafs (ls : List D) (i : ℕ) (d : D) (hi : i < ls.length) :
    MmrOps.LeafMutations.mutateLeaf (.ofLeafs ls) ⟨i, d, membershipProof ls i⟩ =
      some (.ofLeafs (ls.set i d))

section
variable {D : Type} [Tip5 D]

@[reducible] def MmrOps.LeafMutations.reference : MmrOps.LeafMutations D where
  mutateLeaf m mutation :=
    if mutation.leafIndex < m.leafCount then
      some ⟨Merkle.mutateAll Tip5.hashPair m.leafCount [mutation] m.peaks, m.leafCount⟩
    else none

theorem lawfulLeafMutations_reference [Inhabited D] :
    @MmrOps.LawfulLeafMutations D _ _ .reference := by
  refine @MmrOps.LawfulLeafMutations.mk D _ _ .reference ?_
  intro ls i d hi
  have ha : Merkle.Authentic Tip5.hashPair ls [⟨i, d, membershipProof ls i⟩] := by
    intro mutation hmutation
    rw [mem_singleton] at hmutation
    subst hmutation
    exact ⟨hi, rfl⟩
  change (if i < ls.length then _ else _) = _
  rw [if_pos hi, leafCount_ofLeafs, peaks_ofLeafs, Merkle.mutateAll_peaks ha, some_inj]
  simp [MmrAccumulator.ofLeafs, Merkle.applyMutations]

end

inductive MmrCall (D : Type) where
  | append (newLeaf : D)
  | mutateLeaf (leafIndex : ℕ) (newLeaf : D)
  deriving DecidableEq, Repr

namespace MmrCall
variable {D : Type}

/-- What a call does to the leafs.  Only a leaf that is there can be mutated. -/
def onLeafs (ls : List D) : MmrCall D → Option (List D)
  | append newLeaf => some (ls ++ [newLeaf])
  | mutateLeaf leafIndex newLeaf =>
    if leafIndex < ls.length then some (ls.set leafIndex newLeaf) else none

theorem length_le_of_foldlM {calls : List (MmrCall D)} {ls ls' : List D}
    (hcalls : calls.foldlM onLeafs ls = some ls') : ls.length ≤ ls'.length := by
  refine foldlM_invariant (P := fun ls' => ls.length ≤ ls'.length) ?_ le_rfl hcalls
  intro ls₁ call _ ls₂ hle hcall
  cases call with
  | append newLeaf =>
    cases hcall
    rw [length_append]
    omega
  | mutateLeaf leafIndex newLeaf =>
    rw [onLeafs, ite_none_right_eq_some, some_inj] at hcall
    rw [← hcall.2, length_set]
    exact hle

variable [Tip5 D] [MmrNodeIndexing] [MmrOps D] [MmrOps.LeafMutations D]

/-- A call on an archival range and on an accumulator, which gets the membership proof of the leaf
from the archival range. -/
def feed (x : ArchivalMmr D × MmrAccumulator D) :
    MmrCall D → Option (ArchivalMmr D × MmrAccumulator D)
  | append newLeaf => do
    let (m, _) ← x.1.append newLeaf
    let (acc, _) ← MmrOps.append x.2 newLeaf
    some (m, acc)
  | mutateLeaf leafIndex newLeaf => do
    let membershipProof ← x.1.proveMembershipAsync leafIndex
    let m ← x.1.mutateLeaf leafIndex newLeaf
    let acc ← MmrOps.LeafMutations.mutateLeaf x.2 ⟨leafIndex, newLeaf, membershipProof⟩
    some (m, acc)

end MmrCall

namespace ArchivalMmr
variable {D : Type} [Tip5 D] [Inhabited D] [MmrNodeIndexing] {m m' : ArchivalMmr D} {ls : List D}

omit [MmrNodeIndexing] in
/-- A range with the given leafs that started empty. -/
structure Grown (m : ArchivalMmr D) (ls : List D) : Prop where
  holds : m.Holds ls
  dummy : m.digests[0]? = some Tip5.zeroDigest

namespace Grown

section
omit [MmrNodeIndexing]

theorem new : (ArchivalMmr.new : ArchivalMmr D).Grown [] := ⟨.new, rfl⟩

theorem ext (h : m.Grown ls) (h' : m'.Grown ls) : m = m' :=
  h.holds.ext h'.holds (h.dummy.trans h'.dummy.symm)

end

section
variable (h : m.Grown ls)
include h

theorem append (d : D) :
    ∃ m', m.append d = some (m', membershipProof (ls ++ [d]) ls.length) ∧ m'.Grown (ls ++ [d]) := by
  obtain ⟨m', happend, hholds⟩ := h.holds.append_eq_some d
  exact ⟨m', happend, hholds, (dummy_of_append h.holds happend).trans h.dummy⟩

theorem mutateLeaf {i : ℕ} (hi : i < ls.length) (d : D) :
    ∃ m', m.mutateLeaf i d = some m' ∧ m'.Grown (ls.set i d) := by
  obtain ⟨m', hmutate, hholds⟩ := h.holds.mutateLeaf_eq_some hi d
  exact ⟨m', hmutate, hholds, (dummy_of_mutateLeaf hmutate).trans h.dummy⟩

theorem foldlM_append (ds : List D) :
    ∃ m', ds.foldlM (fun m d => (m.append d).map (·.1)) m = some m' ∧ m'.Grown (ls ++ ds) := by
  induction ds generalizing m ls with
  | nil => exact ⟨m, rfl, by rwa [append_nil]⟩
  | cons d ds ih =>
    obtain ⟨m₁, happend, h₁⟩ := h.append d
    obtain ⟨m', hrun, h'⟩ := ih h₁
    refine ⟨m', ?_, by rwa [append_assoc] at h'⟩
    rw [foldlM_cons, happend]
    exact hrun

theorem removeLastLeafAsync_append {d : D} {p : MmrMembershipProof D}
    (happend : m.append d = some (m', p)) : m'.removeLastLeafAsync = some (some d, m) := by
  obtain ⟨m₁, happend₁, h₁⟩ := h.append d
  obtain ⟨rfl, -⟩ := Prod.mk.inj (some_inj.mp (happend.symm.trans happend₁))
  obtain ⟨m₂, hremove, h₂⟩ := h₁.holds.removeLastLeafAsync_eq_some
  rw [dropLast_concat] at h₂
  have hdummy := (dummy_of_removeLastLeafAsync h₁.holds hremove).trans h₁.dummy
  rw [hremove, getLast?_concat, h.ext ⟨h₂, hdummy⟩]

theorem pruneToNumLeafs (n : ℕ) : ∃ m', m.pruneToNumLeafs n = some m' ∧ m'.Grown (ls.take n) := by
  obtain ⟨m', hprune, hholds⟩ := h.holds.pruneToNumLeafs_eq_some n
  refine ⟨m', hprune, hholds, ?_⟩
  obtain rfl := some_inj.mp ((Holds.pruneToNumLeafs_eq m n).symm.trans hprune)
  rw [← h.dummy, getElem?_take_of_lt (Nat.succ_pos _)]

end

variable [DecidableEq D] [MmrOps D] [LawfulMmr D] [MmrOps.LeafMutations D]
  [MmrOps.LawfulLeafMutations D]

/-- **One call.** -/
theorem feed (h : m.Grown ls) {call : MmrCall D} {ls' : List D}
    (hcall : MmrCall.onLeafs ls call = some ls') (hlt : ls'.length < u64Bound) :
    ∃ m', MmrCall.feed (m, .ofLeafs ls) call = some (m', .ofLeafs ls') ∧ m'.Grown ls' := by
  cases call with
  | append d =>
    cases hcall
    obtain ⟨m', happend, h'⟩ := h.append d
    rw [length_append, length_singleton] at hlt
    refine ⟨m', ?_, h'⟩
    simp [MmrCall.feed, happend, LawfulMmr.append_ofLeafs ls d hlt]
  | mutateLeaf i d =>
    rw [MmrCall.onLeafs, ite_none_right_eq_some, some_inj] at hcall
    obtain ⟨hi, rfl⟩ := hcall
    obtain ⟨m', hmutate, h'⟩ := h.mutateLeaf hi d
    refine ⟨m', ?_, h'⟩
    simp [MmrCall.feed, h.holds.proveMembershipAsync_eq hi, hmutate,
      MmrOps.LawfulLeafMutations.mutateLeaf_ofLeafs ls i d hi]

/-- **A run of calls.** -/
theorem foldlM_feed (h : m.Grown ls) {calls : List (MmrCall D)} {ls' : List D}
    (hcalls : calls.foldlM MmrCall.onLeafs ls = some ls') (hlt : ls'.length < u64Bound) :
    ∃ m', calls.foldlM MmrCall.feed (m, .ofLeafs ls) = some (m', .ofLeafs ls') ∧ m'.Grown ls' := by
  induction calls generalizing m ls with
  | nil =>
    cases hcalls
    exact ⟨m, rfl, h⟩
  | cons call calls ih =>
    rw [foldlM_cons_eq_some] at hcalls
    obtain ⟨ls₁, hcall, hcalls⟩ := hcalls
    obtain ⟨m₁, hfeed, h₁⟩ := h.feed hcall ((MmrCall.length_le_of_foldlM hcalls).trans_lt hlt)
    obtain ⟨m', hrun, h'⟩ := ih h₁ hcalls
    refine ⟨m', ?_, h'⟩
    rw [foldlM_cons, hfeed]
    exact hrun

end Grown

variable [DecidableEq D] [MmrOps D] [LawfulMmr D] [MmrOps.LeafMutations D]
  [MmrOps.LawfulLeafMutations D]

/-- **The archival range refines the accumulator**, after any calls that mutate leafs that are
there. The vector has an index type of 64 bits. -/
theorem simulates_accumulator {calls : List (MmrCall D)} {ls : List D}
    (hcalls : calls.foldlM MmrCall.onLeafs [] = some ls) (hlt : ls.length < 2 ^ 63) :
    ∃ m acc, calls.foldlM MmrCall.feed (new, .empty) = some (m, acc) ∧
      m.peaks = some acc.peaks ∧ m.numLeafs = some acc.numLeafs ∧ acc.numLeafs = ls.length ∧
      (∀ d, ∃ m' p, m.append d = some (m', p) ∧ m'.removeLastLeafAsync = some (some d, m)) ∧
      (∀ n, ∃ mₙ, m.pruneToNumLeafs n = some mₙ ∧
        (ls.take n).foldlM (fun m d => (m.append d).map (·.1)) new = some mₙ) ∧
      ∀ i n, i < n → n ≤ ls.length → ∃ mₙ,
        (ls.take n).foldlM (fun m d => (m.append d).map (·.1)) new = some mₙ ∧
        m.proveMembershipRelativeToSmallerMmr i n = mₙ.proveMembershipAsync i ∧
        m.proveMembershipRelativeToSmallerMmr i n = some (membershipProof (ls.take n) i) := by
  obtain ⟨m, hrun, h⟩ := Grown.new.foldlM_feed hcalls (hlt.trans (by decide))
  refine ⟨m, .ofLeafs ls, ?_, h.holds.peaks_eq, h.holds.numLeafs_eq, rfl, ?_, ?_, ?_⟩
  · rw [← ofLeafs_nil]
    exact hrun
  · intro d
    obtain ⟨m', happend, -⟩ := h.append d
    exact ⟨m', _, happend, h.removeLastLeafAsync_append happend⟩
  · intro n
    obtain ⟨mₙ, hprune, hₙ⟩ := h.pruneToNumLeafs n
    obtain ⟨m', happends, h'⟩ := Grown.new.foldlM_append (ls.take n)
    exact ⟨mₙ, hprune, hₙ.ext h' ▸ happends⟩
  · intro i n hi hn
    obtain ⟨mₙ, happends, hₙ⟩ := Grown.new.foldlM_append (ls.take n)
    have hlength : m.digests.length < u64Bound := by
      rw [h.holds.length_eq]
      exact nodeCount_add_one_lt_iff.mpr hlt
    have hrelative := h.holds.proveMembershipRelativeToSmallerMmr_eq hlength hi hn
    have hproof := hₙ.holds.proveMembershipAsync_eq (i := i) (by
      rw [nil_append, length_take]
      omega)
    exact ⟨mₙ, happends, hrelative.trans hproof.symm, hrelative⟩

end ArchivalMmr

theorem simulates_accumulator_three :
    ∃ (_ : MmrNodeIndexing) (_ : MmrOps.LeafMutations SymbolicDigest)
      (m m' : ArchivalMmr SymbolicDigest) (acc : MmrAccumulator SymbolicDigest),
      [MmrCall.append (.atom 1), .append (.atom 2), .mutateLeaf 0 (.atom 3),
        .append (.atom 4)].foldlM MmrCall.feed (.new, .empty) = some (m, acc) ∧
      m.peaks = some acc.peaks ∧ m.numLeafs = some 3 ∧ m.pruneToNumLeafs 2 = some m' ∧
      m.proveMembershipRelativeToSmallerMmr 0 2 = m'.proveMembershipAsync 0 := by
  let _ := MmrNodeIndexing.reference
  let _ : MmrOps.LeafMutations SymbolicDigest := .reference
  have _ : MmrOps.LawfulLeafMutations SymbolicDigest := lawfulLeafMutations_reference
  have hcalls : [MmrCall.append (.atom 1), .append (.atom 2), .mutateLeaf 0 (.atom 3),
      .append (.atom 4)].foldlM MmrCall.onLeafs [] =
        some ([.atom 3, .atom 2, .atom 4] : List SymbolicDigest) := rfl
  obtain ⟨m, acc, hrun, hpeaks, hnum, hlen, -, hprune, hrelative⟩ :=
    ArchivalMmr.simulates_accumulator hcalls (by decide)
  obtain ⟨m', hm', happends⟩ := hprune 2
  obtain ⟨m₂, happends₂, hproof, -⟩ := hrelative 0 2 (by decide) (by decide)
  obtain rfl := some_inj.mp (happends.symm.trans happends₂)
  exact ⟨.reference, .reference, m, m', acc, hrun, hpeaks, hnum.trans (congrArg some hlen), hm',
    hproof⟩

end NyksNode
