import NyksNode.Archival.Reorganization
import NyksNode.Block.ChainInvariant
import NyksNode.Block.EmptyChain

/-!
# Branches of empty blocks

States whose stored blocks are a few branches over the genesis block.  The keys of the blocks,
which are their heights and timestamps, tell them apart.
-/

namespace NyksNode

open List Option Block Fallible

def Block.key {D : Type} (B : Block D) : BlockHeight × Timestamp :=
  (B.header.height, B.header.timestamp)

namespace ArchivalState

/-- The state that stores the blocks of some branches. -/
def ofBranches (G : Block SymbolicDigest) (branches : List (List (Block SymbolicDigest)))
    (ams : RustyArchivalMutatorSet SymbolicDigest) (mmr : ArchivalMmr SymbolicDigest) :
    ArchivalState SymbolicDigest :=
  ⟨fun d => branches.flatten.find? (·.hash = d), G, ams, mmr⟩

variable [MmrNodeIndexing]

/-- Valid branches over the genesis block of a network. -/
structure Branches (network : Network) (G : Block SymbolicDigest)
    (branches : List (List (Block SymbolicDigest))) : Prop where
  genesis : Block.genesis network = some G
  valid : ∀ Bs ∈ branches, G.ValidOn network Bs
  heights : ∀ Bs ∈ branches,
    (G :: Bs).map (fun B => B.header.height.value.val) = List.range (Bs.length + 1)
  nodup : ((G :: branches.flatten).map Block.key).Nodup

namespace Branches
variable {network : Network} {G : Block SymbolicDigest}
  {branches : List (List (Block SymbolicDigest))}
variable (ams : RustyArchivalMutatorSet SymbolicDigest) (mmr : ArchivalMmr SymbolicDigest)

variable {B : Block SymbolicDigest}

theorem nodup_hash (h : Branches network G branches) :
    ((G :: branches.flatten).map Block.hash).Nodup :=
  (Nodup.of_map _ h.nodup).map_on fun _ hB _ hB' hhash => inj_on_of_nodup_map h.nodup hB hB'
    (Prod.ext (SymbolicDigest.key_of_hash_eq hhash).1 (SymbolicDigest.key_of_hash_eq hhash).2)

theorem getBlock_eq (h : Branches network G branches) (hB : B ∈ G :: branches.flatten) :
    (ofBranches G branches ams mmr).getBlock B.hash = some B :=
  getBlock_of_mem rfl h.nodup_hash hB

variable {Bs : List (Block SymbolicDigest)} {i : ℕ}

theorem height_eq (h : Branches network G branches) (hBs : Bs ∈ branches)
    (hB : (G :: Bs)[i]? = some B) : B.header.height.value.val = i := by
  have hget := congrArg (·[i]?) (h.heights Bs hBs)
  obtain ⟨hi, -⟩ := List.getElem?_eq_some_iff.mp hB
  simp only [getElem?_map, hB, map_some] at hget
  rw [getElem?_range (by simpa using hi), some_inj] at hget
  exact hget

omit [MmrNodeIndexing] in
theorem mem_of_getElem? (Bs : List (Block SymbolicDigest)) (hBs : Bs ∈ branches)
    (hB : (G :: Bs)[i]? = some B) : B ∈ G :: branches.flatten := by
  cases List.mem_cons.mp (List.mem_of_getElem? hB) with
  | inl hG => exact hG ▸ List.mem_cons_self
  | inr hmem => exact mem_cons_of_mem _ (mem_flatten.mpr ⟨Bs, hBs, hmem⟩)

section
variable (h : Branches network G branches)
include h

theorem exists_parent (hB : B ∈ branches.flatten) :
    ∃ P ∈ G :: branches.flatten, B.header.prevBlockDigest = P.hash ∧
      B.header.height.value.val = P.header.height.value.val + 1 ∧
      ∃ now, (B.validate P now network).Returns () := by
  obtain ⟨Bs, hBs, hmem⟩ := mem_flatten.mp hB
  obtain ⟨i, hi, rfl⟩ := mem_iff_getElem.mp hmem
  have hget : (G :: Bs)[i + 1]? = some Bs[i] := by
    rw [getElem?_cons_succ, getElem?_eq_getElem hi]
  have hP : (G :: Bs)[i]? = some ((G :: Bs).get ⟨i, by simp; omega⟩) :=
    getElem?_eq_getElem _
  obtain ⟨now, hvalid⟩ :=
    isChain_iff_getElem.mp (h.valid Bs hBs) i (Nat.succ_lt_succ hi)
  refine ⟨_, mem_of_getElem? _ hBs hP, (headerFits_of_validate hvalid).prevBlockDigest_eq.symm, ?_,
    now, hvalid⟩
  rw [h.height_eq hBs hget, h.height_eq hBs hP]

theorem validTree (hBs : Bs ∈ branches) : (ofBranches G branches ams mmr).ValidTree network :=
  validTree_of_stored rfl h.nodup_hash h.genesis (h.height_eq hBs (i := 0) rfl) fun _ hB =>
    h.exists_parent hB

end

end Branches

end ArchivalState

/-! ## A fast branch and a slow branch -/

namespace TwoSpeeds

def fast : List HeaderData :=
  ((HeaderData.ofHeader (D := SymbolicDigest) (.genesis .main)).run .main
    (List.replicate 10 Network.main.minimumBlockTime)).get (by decide +kernel)

def slow : List HeaderData :=
  ((HeaderData.ofHeader (D := SymbolicDigest) (.genesis .main)).run .main
    (List.replicate 11 (.millis (5 * 384000)))).get (by decide +kernel)

theorem exists_branches : let _ := MmrNodeIndexing.reference
    ∃ G left right A B, ArchivalState.Branches .main G [left, right] ∧
      (G :: left)[10]? = some A ∧ (G :: right)[11]? = some B ∧
      B.header.cumulativeProofOfWork.toBigUint < A.header.cumulativeProofOfWork.toBigUint := by
  let _ := MmrNodeIndexing.reference
  have hrun : ∃ G, Block.genesis .main = some G ∧
      let branches := [G.emptyChain [] fast, G.emptyChain [] slow]
      (∀ Bs ∈ branches, (G :: Bs).IsChain fun P B =>
        (B.validate P B.header.timestamp .main).unwrap = some ()) ∧
      (∀ Bs ∈ branches,
        (G :: Bs).map (fun B => B.header.height.value.val) = range (Bs.length + 1)) ∧
      ((G :: branches.flatten).map key).Nodup ∧ ∃ A, (G :: G.emptyChain [] fast)[10]? = some A ∧
      ∃ B, (G :: G.emptyChain [] slow)[11]? = some B ∧
      B.header.cumulativeProofOfWork.toBigUint < A.header.cumulativeProofOfWork.toBigUint := by
    decide +kernel
  obtain ⟨G, hG, hvalid, hheights, hnodup, A, hA, B, hB, hwork⟩ := hrun
  exact ⟨G, _, _, A, B, ⟨hG, fun Bs hBs => (hvalid Bs hBs).imp fun _ _ h =>
    ⟨_, unwrap_eq_some_iff.mp h⟩, hheights, hnodup⟩, hA, hB, hwork⟩

theorem exists_state : let _ := MmrNodeIndexing.reference
    ∃ (s : ArchivalState SymbolicDigest) (A B : Block SymbolicDigest) (l m : List SymbolicDigest),
      s.ValidTree .main ∧ s.archivalBlockMmr.Holds l ∧ s.Chain A.hash l ∧ s.Chain B.hash m ∧
      s.getBlock A.hash = some A ∧ s.getBlock B.hash = some B ∧ l.length = 11 ∧ m.length = 12 ∧
      B.header.cumulativeProofOfWork.toBigUint < A.header.cumulativeProofOfWork.toBigUint := by
  let _ := MmrNodeIndexing.reference
  obtain ⟨G, left, right, A, B, h, hA, hB, hwork⟩ := exists_branches
  have hA' := ArchivalState.Branches.mem_of_getElem? left (mem_cons_self : left ∈ [left, right]) hA
  have hB' := ArchivalState.Branches.mem_of_getElem? right (by simp : right ∈ [left, right]) hB
  have hs := h.validTree ⟨.newEmpty, G.hash⟩ .new (mem_cons_self : left ∈ _)
  -- the chains do not depend on the block range, which is chosen after them
  obtain ⟨l, hl, hlength⟩ := hs.tree.exists_chain (h.getBlock_eq _ _ hA')
  obtain ⟨m, hm, hlength'⟩ := hs.tree.exists_chain (h.getBlock_eq _ _ hB')
  obtain ⟨mmr, -, hmmr⟩ := (ArchivalMmr.Holds.new (D := SymbolicDigest)).foldlM_append l
  rw [h.height_eq mem_cons_self hA] at hlength
  rw [h.height_eq (by simp) hB] at hlength'
  exact ⟨.ofBranches G [left, right] ⟨.newEmpty, G.hash⟩ mmr, A, B, l, m,
    h.validTree _ _ (mem_cons_self : left ∈ _), hmmr, hl, hm, h.getBlock_eq _ _ hA',
    h.getBlock_eq _ _ hB', hlength, hlength', hwork⟩

end TwoSpeeds

end NyksNode
