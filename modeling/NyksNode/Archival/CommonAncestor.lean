import NyksNode.Archival.BlockMmr

/-!
# The path between two blocks

`find_path` goes down from two stored blocks until both walks meet.  Both chains start at the
genesis block and a block has its height as its place, so the walks meet at the highest block that
both chains have, whatever the shape of the tree.
-/

namespace NyksNode

open List Option

namespace ArchivalState
variable {D : Type} [Tip5 D] [DecidableEq D] [ConsensusOps D]
variable {s : ArchivalState D} {start stop luca : D} {l m : List D}

/-- A stored block other than the genesis block names its parent. -/
def IsParent (s : ArchivalState D) (parent d : D) : Prop :=
  d ≠ s.genesisBlock.hash ∧
    ∃ header, s.getBlockHeader d = some header ∧ header.prevBlockDigest = parent

/-- A block is its own ancestor, and so are its parent and the parent's ancestors. -/
def IsAncestor (s : ArchivalState D) : D → D → Prop := Relation.ReflTransGen s.IsParent

def heightOf (s : ArchivalState D) (d : D) : Option ℕ :=
  (s.getBlockHeader d).map (·.height.value.val)

/-- A path goes from `start` down to the common ancestor, and from there up to `stop`.  Every
common ancestor is an ancestor of that one, and not higher. -/
structure IsPath (s : ArchivalState D) (start stop : D) (leaving : List D) (luca : D)
    (arriving : List D) : Prop where
  head_leaving : (leaving ++ [luca]).head? = some start
  isChain_leaving : (leaving ++ [luca]).IsChain fun d parent => s.IsParent parent d
  getLast_arriving : (luca :: arriving).getLast? = some stop
  isChain_arriving : (luca :: arriving).IsChain s.IsParent
  isAncestor_start : s.IsAncestor luca start
  isAncestor_stop : s.IsAncestor luca stop
  highest : ∀ d, s.IsAncestor d start → s.IsAncestor d stop →
    s.IsAncestor d luca ∧ ∃ h h', s.heightOf d = some h ∧ s.heightOf luca = some h' ∧ h ≤ h'

theorem isParent_eq (s : ArchivalState D) : s.IsParent = ParentOf s.link s.genesisBlock.hash := by
  funext parent d
  rw [IsParent, ParentOf, getBlockHeader_eq_map, link]
  cases s.getBlock d <;> simp

section
variable (hl : s.Chain stop l)
include hl

theorem Chain.isChain : l.IsChain s.IsParent := by
  rw [isParent_eq]
  exact hl.isChain_parentOf

theorem Chain.mem_iff {d : D} : d ∈ l ↔ s.IsAncestor d stop := by
  rw [IsAncestor, isParent_eq]
  exact hl.mem_iff_ancestor

theorem Chain.heightOf_getElem {i : ℕ} {d : D} (hd : l[i]? = some d) : s.heightOf d = some i := by
  obtain ⟨header, hheader, hheight, -⟩ := hl.header_getElem hd
  rw [heightOf, hheader, map_some, hheight]

theorem Chain.suffix_from {k : ℕ} (hk : l[k]? = some luca) :
    (luca :: l.drop (k + 1)).getLast? = some stop ∧
      (luca :: l.drop (k + 1)).IsChain s.IsParent := by
  obtain ⟨hlt, rfl⟩ := List.getElem?_eq_some_iff.mp hk
  rw [← List.drop_eq_getElem_cons hlt, List.getLast?_drop, if_neg (not_le.mpr hlt)]
  exact ⟨hl.getLast?_eq, hl.isChain.drop k⟩

end

theorem Chain.getElem?_of_mem (hl : s.Chain start l) (hm : s.Chain stop m) {d : D} (hdl : d ∈ l)
    (hdm : d ∈ m) : ∃ i : ℕ, l[i]? = some d ∧ m[i]? = some d := by
  obtain ⟨i, hi⟩ := mem_iff_getElem?.mp hdl
  obtain ⟨j, hj⟩ := mem_iff_getElem?.mp hdm
  have hheight := (hl.heightOf_getElem hi).symm.trans (hm.heightOf_getElem hj)
  rw [some_inj] at hheight
  exact ⟨i, hi, hheight ▸ hj⟩

/-- **Path finding.**  In every tree of stored blocks, `find_path` returns the path between any two
of them. -/
theorem BlockTree.findPath_isPath (hs : s.BlockTree) {startHeader stopHeader : BlockHeader D}
    (hstart : s.getBlockHeader start = some startHeader)
    (hstop : s.getBlockHeader stop = some stopHeader) :
    ∃ leaving luca arriving, s.findPath start stop = some (leaving, luca, arriving) ∧
      s.IsPath start stop leaving luca arriving := by
  rw [getBlockHeader_eq_map, map_eq_some_iff] at hstart hstop
  obtain ⟨startBlock, hstart, -⟩ := hstart
  obtain ⟨stopBlock, hstop, -⟩ := hstop
  obtain ⟨l, hl, -⟩ := hs.exists_chain hstart
  obtain ⟨m, hm, -⟩ := hs.exists_chain hstop
  obtain ⟨k, luca, hkl, hkm, htake, habove, hpath⟩ := hl.findPath_eq_some hm
  have hdown := hl.suffix_from hkl
  have hup := hm.suffix_from hkm
  have hreverse : (l.drop (k + 1)).reverse ++ [luca] = (luca :: l.drop (k + 1)).reverse :=
    reverse_cons.symm
  refine ⟨_, luca, _, hpath, ?_⟩
  exact {
    head_leaving := by rw [hreverse, head?_reverse, hdown.1]
    isChain_leaving := by
      rw [hreverse, isChain_reverse]
      exact hdown.2
    getLast_arriving := hup.1
    isChain_arriving := hup.2
    isAncestor_start := hl.mem_iff.mp (mem_of_getElem? hkl)
    isAncestor_stop := hm.mem_iff.mp (mem_of_getElem? hkm)
    highest := by
      intro d hdstart hdstop
      obtain ⟨i, hil, him⟩ := hl.getElem?_of_mem hm (hl.mem_iff.mpr hdstart) (hm.mem_iff.mpr hdstop)
      have hle := habove i d hil him
      refine ⟨?_, i, k, hl.heightOf_getElem hil, hl.heightOf_getElem hkl, hle⟩
      -- the chain to the common ancestor is the lower part of both
      refine Chain.mem_iff (hl.take hkl) |>.mp (mem_iff_getElem?.mpr ⟨i, ?_⟩)
      rw [getElem?_take_of_lt (by omega), hil] }

theorem findPath_isPath_forks :
    ∃ (s : ArchivalState SymbolicDigest) (leaving arriving : List SymbolicDigest)
      (luca : SymbolicDigest),
      s.findPath Forks.left.hash Forks.right.hash = some (leaving, luca, arriving) ∧
      s.IsPath Forks.left.hash Forks.right.hash leaving luca arriving := by
  let s := Forks.state ⟨.newEmpty, Forks.genesis.hash⟩ .new
  have hleft : s.getBlockHeader Forks.left.hash = some Forks.left.header := by
    rw [getBlockHeader_eq_map, Forks.getBlock_left, map_some]
  have hright : s.getBlockHeader Forks.right.hash = some Forks.right.header := by
    rw [getBlockHeader_eq_map, Forks.getBlock_right, map_some]
  obtain ⟨leaving, luca, arriving, hpath⟩ :=
    (Forks.blockTree _ _).findPath_isPath hleft hright
  exact ⟨s, leaving, arriving, luca, hpath⟩

end ArchivalState

end NyksNode
