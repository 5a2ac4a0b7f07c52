import NyksNode.Archival.MmrLeafs
import NyksNode.Archival.Path
import NyksNode.Block.Successor

/-!
# The block range follows the chain

The leafs of the archival block range are the digests of the chain to the tip.  A new tip can
be any stored block: the range is cut back to the common ancestor of both tips, and the digests
on the way to the new tip are appended.
-/

namespace NyksNode

open List

namespace ArchivalMmr
variable {D : Type} [Tip5 D] [Inhabited D] [MmrNodeIndexing] {mmr : ArchivalMmr D} {ls : List D}

theorem Holds.foldlM_removeLastLeafAsync (h : mmr.Holds ls) (xs : List D) :
    ∃ mmr', xs.foldlM (fun mmr _ => mmr.removeLastLeafAsync.map (·.2)) mmr = some mmr' ∧
      mmr'.Holds (ls.take (ls.length - xs.length)) := by
  induction xs generalizing mmr ls with
  | nil => exact ⟨mmr, rfl, by rwa [length_nil, Nat.sub_zero, take_length]⟩
  | cons x xs ih =>
    obtain ⟨mmr₁, hremove, h₁⟩ := h.removeLastLeafAsync_eq_some
    obtain ⟨mmr', hrun, h'⟩ := ih h₁
    refine ⟨mmr', by simp [hremove, hrun], ?_⟩
    have hcut : ls.dropLast.length - xs.length = ls.length - (x :: xs).length := by
      rw [length_dropLast, length_cons]
      omega
    rwa [hcut, dropLast_eq_take, take_take, min_eq_left (by simp; omega)] at h'

theorem Holds.foldlM_append (h : mmr.Holds ls) (xs : List D) :
    ∃ mmr', xs.foldlM (fun mmr digest => (mmr.append digest).map (·.1)) mmr = some mmr' ∧
      mmr'.Holds (ls ++ xs) := by
  induction xs generalizing mmr ls with
  | nil => exact ⟨mmr, rfl, by rwa [append_nil]⟩
  | cons x xs ih =>
    obtain ⟨mmr₁, happend, h₁⟩ := h.append_eq_some x
    obtain ⟨mmr', hrun, h'⟩ := ih h₁
    refine ⟨mmr', by simp [happend, hrun], ?_⟩
    rwa [append_assoc, singleton_append] at h'

end ArchivalMmr

namespace ArchivalState

section
variable {D : Type} [Tip5 D] [Inhabited D] [DecidableEq D] [ConsensusOps D] [MmrNodeIndexing]
variable {s : ArchivalState D} {a b tip : D} {l m : List D} {mmr : ArchivalMmr D}

theorem followPath_eq_some (hl : s.Chain a l) (hm : s.Chain b m) (hmmr : mmr.Holds l) :
    ∃ mmr', s.followPath mmr a b = some mmr' ∧ mmr'.Holds m := by
  by_cases heq : b = a
  · subst heq
    refine ⟨mmr, by simp [followPath], ?_⟩
    rwa [hm.unique hl]
  · obtain ⟨k, luca, hkl, hkm, htake, -, hpath⟩ := hl.findPath_eq_some hm
    have hk := (List.getElem?_eq_some_iff.mp hkl).1
    obtain ⟨mmr₁, hremove, h₁⟩ := hmmr.foldlM_removeLastLeafAsync (l.drop (k + 1)).reverse
    have hcut : l.length - (l.drop (k + 1)).reverse.length = k + 1 := by
      rw [length_reverse, length_drop]
      omega
    rw [hcut, htake] at h₁
    obtain ⟨mmr₂, happend, h₂⟩ := h₁.foldlM_append (m.drop (k + 1))
    rw [take_append_drop] at h₂
    refine ⟨mmr₂, ?_, h₂⟩
    rw [followPath, if_neg heq, hpath]
    simp [hremove, happend]

section
variable (hl : s.Chain tip l) (hmmr : s.archivalBlockMmr.Holds l) {block : Block D}
include hl hmmr

theorem resetBlockMmr_eq_some (hgenesis : block.hash = s.genesisBlock.hash) :
    ∃ mmr, s.resetBlockMmr block = some mmr ∧ mmr.Holds [block.hash] := by
  obtain ⟨mmr, hprune, hholds⟩ := hmmr.pruneToNumLeafs_eq_some 1
  have hleaf := hmmr.tryGetLeaf_eq 0
  rw [hl.getElem?_zero, ← hgenesis] at hleaf
  refine ⟨mmr, ?_, ?_⟩
  · simp [resetBlockMmr, hgenesis, hleaf, hprune]
  · have htake : l.take 1 = [block.hash] := by
      have hhead := hl.head?_eq
      cases l with
      | nil => simp at hhead
      | cons x xs => simpa [hgenesis] using hhead
    rwa [htake] at hholds

/-- Any other block as a tip: `m` is the chain to its parent. -/
theorem extendBlockMmr_eq_some (hm : s.Chain block.header.prevBlockDigest m)
    (hheight : block.header.height.value.val = m.length) :
    ∃ mmr, s.extendBlockMmr block = some mmr ∧ mmr.Holds (m ++ [block.hash]) := by
  have hposl := hl.length_pos
  have hposm := hm.length_pos
  obtain ⟨mmr₁, hprune, h₁⟩ := hmmr.pruneToNumLeafs_eq_some m.length
  -- the latest leaf after pruning, and its chain
  obtain ⟨i, hi⟩ : ∃ i, min m.length l.length = i + 1 :=
    ⟨min m.length l.length - 1, by omega⟩
  have hil : i < l.length := by omega
  have hlast : l[i]? = some l[i] := getElem?_eq_getElem hil
  have htake : l.take m.length = l.take (i + 1) := by
    rw [← hi, take_eq_take_iff]
    omega
  rw [htake] at h₁
  have hchain := hl.take hlast
  have hlatest := h₁.getLatestLeaf_eq
  rw [ChainTo.getLast?_eq hchain] at hlatest
  obtain ⟨mmr₂, hfollow, h₂⟩ := followPath_eq_some hchain hm h₁
  have hlatest₂ := h₂.getLatestLeaf_eq
  rw [ChainTo.getLast?_eq hm] at hlatest₂
  obtain ⟨mmr₃, happend, h₃⟩ := h₂.append_eq_some block.hash
  refine ⟨mmr₃, ?_, h₃⟩
  simp [extendBlockMmr, hheight, hprune, hlatest, hfollow, hlatest₂, happend]

end

/-- **One new tip.** -/
theorem appendToArchivalBlockMmr_eq_some (hs : s.BlockTree) (hl : s.Chain tip l)
    (hmmr : s.archivalBlockMmr.Holds l) {block : Block D}
    (hblock : s.getBlock block.hash = some block) (hm : s.Chain block.hash m) :
    ∃ mmr, s.appendToArchivalBlockMmr block = some { s with archivalBlockMmr := mmr } ∧
      mmr.Holds m := by
  obtain ⟨m', hm', hlength⟩ := hs.exists_chain hblock
  obtain rfl := hm.unique hm'
  rcases hm.root_or_next with ⟨hgenesis, rfl⟩ | ⟨p, m, hp, ha, rfl⟩
  · have hheight : block.header.height.isGenesis = true :=
      BlockHeight.isGenesis_iff_val.mpr (by simpa using hlength.symm)
    obtain ⟨mmr, hreset, hholds⟩ := resetBlockMmr_eq_some hl hmmr hgenesis
    refine ⟨mmr, ?_, hgenesis ▸ hholds⟩
    rw [appendToArchivalBlockMmr, if_pos hheight, hreset, Option.map_some]
  · rw [link, hblock, Option.map_some, Option.some_inj, Prod.mk.injEq] at ha
    obtain ⟨hheight, rfl⟩ := ha
    have hpos := ChainTo.length_pos hp
    have hgenesis : ¬ block.header.height.isGenesis = true := by
      rw [BlockHeight.isGenesis_iff_val]
      omega
    obtain ⟨mmr, hextend, hholds⟩ := extendBlockMmr_eq_some hl hmmr hp hheight
    refine ⟨mmr, ?_, hholds⟩
    rw [appendToArchivalBlockMmr, if_neg hgenesis, hextend, Option.map_some]

omit [Inhabited D] [MmrNodeIndexing] in
theorem BlockTree.setBlockMmr (hs : s.BlockTree) (mmr : ArchivalMmr D) :
    ({ s with archivalBlockMmr := mmr } : ArchivalState D).BlockTree :=
  ⟨hs.genesis_height, hs.genesis_stored, hs.hash_eq, hs.parent⟩

/-- **Any sequence of tips.**  The range holds the chain to some stored block. -/
theorem foldlM_appendToArchivalBlockMmr (hs : s.BlockTree) (hl : s.Chain tip l)
    (hmmr : s.archivalBlockMmr.Holds l) {tips : List (Block D)}
    (htips : ∀ block ∈ tips, s.getBlock block.hash = some block) :
    ∃ mmr d m, tips.foldlM appendToArchivalBlockMmr s = some { s with archivalBlockMmr := mmr } ∧
      s.Chain d m ∧ mmr.Holds m := by
  induction tips generalizing s tip l with
  | nil => exact ⟨s.archivalBlockMmr, tip, l, rfl, hl, hmmr⟩
  | cons block tips ih =>
    have hblock := htips block mem_cons_self
    obtain ⟨m, hm, -⟩ := hs.exists_chain hblock
    obtain ⟨mmr, hstep, hholds⟩ := appendToArchivalBlockMmr_eq_some hs hl hmmr hblock hm
    obtain ⟨mmr', d, m', hrun, hm', hholds'⟩ := ih (hs.setBlockMmr mmr) hm hholds
      fun block' hmem => htips block' (mem_cons_of_mem _ hmem)
    exact ⟨mmr', d, m', by rw [foldlM_cons, hstep]; exact hrun, hm', hholds'⟩

variable {archivalMutatorSet : RustyArchivalMutatorSet D} {blockIndexDb : D → Option (Block D)}
  {genesisBlock : Block D}
  (hnew : ArchivalState.new archivalMutatorSet .new blockIndexDb genesisBlock = some s)
include hnew

omit [DecidableEq D] in
theorem holds_of_new : s.archivalBlockMmr.Holds [s.genesisBlock.hash] := by
  simp only [new, bind_eq_some, Option.some_inj] at hnew
  obtain ⟨_, -, mmr, hmmr, rfl⟩ := hnew
  obtain ⟨mmr', happend, hholds⟩ :=
    (ArchivalMmr.Holds.new (D := D)).append_eq_some genesisBlock.hash
  have hempty : (ArchivalMmr.new : ArchivalMmr D).isEmpty = true := rfl
  rw [initializeBlockMmr, if_pos hempty, happend, Option.map_some, Option.some_inj] at hmmr
  rwa [← hmmr]

/-- **The block range follows the tip**: leaf `h` is the ancestor of the tip at height `h`. -/
theorem blockMmr_holds_chain (hs : s.BlockTree) {tips : List (Block D)}
    (htips : ∀ block ∈ tips, s.getBlock block.hash = some block) {block : Block D}
    (hblock : s.getBlock block.hash = some block) :
    ∃ s₁ s' chain, tips.foldlM appendToArchivalBlockMmr s = some s₁ ∧
      s₁.appendToArchivalBlockMmr block = some s' ∧
      s.Chain block.hash chain ∧ s'.archivalBlockMmr.numLeafs = some chain.length ∧
      (∀ h, s'.archivalBlockMmr.tryGetLeaf h = some chain[h]?) ∧ ∀ h d, chain[h]? = some d →
        ∃ ancestor, s.getBlock d = some ancestor ∧ ancestor.header.height.value.val = h := by
  obtain ⟨mmr, d, l, hrun, hl, hholds⟩ :=
    foldlM_appendToArchivalBlockMmr hs hs.chain_genesis (holds_of_new hnew) htips
  obtain ⟨chain, hchain, -⟩ := hs.exists_chain hblock
  obtain ⟨mmr', hstep, hholds'⟩ :=
    appendToArchivalBlockMmr_eq_some (hs.setBlockMmr mmr) hl hholds hblock hchain
  refine ⟨_, _, chain, hrun, hstep, hchain, hholds'.numLeafs_eq, hholds'.tryGetLeaf_eq, ?_⟩
  intro h d hd
  obtain ⟨p, hp⟩ := hchain.height_getElem hd
  obtain ⟨ancestor, hancestor, hlink⟩ := Option.map_eq_some_iff.mp hp
  exact ⟨ancestor, hancestor, (Prod.mk.inj hlink).1⟩

end

/-! ## Two forks over the genesis block -/

namespace Forks

def genesis : Block SymbolicDigest := (Block.genesis .main).get Block.isSome_genesis

def child (nonce : SymbolicDigest) : Block SymbolicDigest :=
  { genesis with kernel := { genesis.kernel with header := { genesis.header with
      height := genesis.header.height.next
      prevBlockDigest := genesis.hash
      pow := { genesis.header.pow with nonce := nonce } } } }

def left : Block SymbolicDigest := child (.atom 1)

def right : Block SymbolicDigest := child (.atom 2)

def blockIndexDb (d : SymbolicDigest) : Option (Block SymbolicDigest) :=
  if d = left.hash then some left else if d = right.hash then some right else none

def state (ams : RustyArchivalMutatorSet SymbolicDigest) (mmr : ArchivalMmr SymbolicDigest) :
    ArchivalState SymbolicDigest := ⟨blockIndexDb, genesis, ams, mmr⟩

variable (ams : RustyArchivalMutatorSet SymbolicDigest) (mmr : ArchivalMmr SymbolicDigest)

theorem blockIndexDb_left : blockIndexDb left.hash = some left := if_pos rfl

theorem blockIndexDb_right : blockIndexDb right.hash = some right := by
  rw [blockIndexDb, if_neg (by decide +kernel), if_pos rfl]

theorem getBlock_left : (state ams mmr).getBlock left.hash = some left := by
  simp [getBlock, state, blockIndexDb_left]

theorem getBlock_right : (state ams mmr).getBlock right.hash = some right := by
  simp [getBlock, state, blockIndexDb_right]

theorem blockTree : (state ams mmr).BlockTree := by
  refine blockTree_of_stored (funext fun d => ?_)
    (show ([genesis, left, right].map Block.hash).Nodup by decide +kernel)
    (show genesis.header.height.value.val = 0 by decide +kernel)
    (show ∀ block ∈ [left, right], ∃ p ∈ [genesis, left, right],
      block.header.prevBlockDigest = p.hash ∧
        block.header.height.value.val = p.header.height.value.val + 1 by decide +kernel)
  by_cases hleft : left.hash = d
  · simp [state, blockIndexDb, hleft]
  · by_cases hright : right.hash = d <;>
      simp [state, blockIndexDb, eq_comm (a := d), hleft, hright]

theorem exists_new (blockIndexDb : SymbolicDigest → Option (Block SymbolicDigest)) :
    let _ := MmrNodeIndexing.reference
    ∃ ams mmr, new ⟨.newEmpty, genesis.hash⟩ .new blockIndexDb genesis =
      some ⟨blockIndexDb, genesis, ams, mmr⟩ := by
  let _ := MmrNodeIndexing.reference
  have hrun : ∃ ams, initializeMutatorSet ⟨.newEmpty, genesis.hash⟩ genesis = some ams ∧
      ∃ mmr, initializeBlockMmr .new genesis = some mmr ∧ True := by
    decide +kernel
  obtain ⟨ams, hams, mmr, hmmr, -⟩ := hrun
  refine ⟨ams, mmr, ?_⟩
  rw [new, hams, hmmr]
  rfl

end Forks

open Forks

theorem blockMmr_holds_chain_forks : ∃ (_ : MmrNodeIndexing) (s : ArchivalState SymbolicDigest),
      s.BlockTree ∧ s.getBlock Forks.left.hash = some Forks.left ∧
      s.getBlock Forks.right.hash = some Forks.right ∧
      ∃ s₁ s' chain, [Forks.left].foldlM appendToArchivalBlockMmr s = some s₁ ∧
        s₁.appendToArchivalBlockMmr Forks.right = some s' ∧
        s.Chain Forks.right.hash chain ∧ s'.archivalBlockMmr.numLeafs = some chain.length ∧
        (∀ h, s'.archivalBlockMmr.tryGetLeaf h = some chain[h]?) ∧ ∀ h d, chain[h]? = some d →
          ∃ ancestor, s.getBlock d = some ancestor ∧ ancestor.header.height.value.val = h := by
  let _ := MmrNodeIndexing.reference
  obtain ⟨ams, mmr, hnew⟩ := exists_new Forks.blockIndexDb
  refine ⟨.reference, state ams mmr, blockTree ams mmr, getBlock_left ams mmr,
    getBlock_right ams mmr, ?_⟩
  exact blockMmr_holds_chain (s := state ams mmr) hnew (blockTree ams mmr)
    (by simpa using getBlock_left ams mmr) (getBlock_right ams mmr)

end ArchivalState

end NyksNode
