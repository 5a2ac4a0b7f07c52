import NyksNode.Archival.State
import NyksNode.Lib.ParentChain

/-!
# Paths between blocks

The stored blocks form a tree: every stored block but the genesis block has a stored parent,
and its height is one more.  The chain to a block lists the digests of its ancestors, from the
genesis block to the block itself.  `find_path` returns, for two stored blocks, the part of
each chain that lies above a common ancestor.
-/

namespace NyksNode

open List Option

namespace BlockHeight
variable {h h' : BlockHeight}

theorem eq_iff_val : h = h' ↔ h.value.val = h'.value.val := by
  cases h
  cases h'
  simp [Fin.ext_iff]

theorem lt_iff_val : h < h' ↔ h.value.val < h'.value.val := Iff.rfl

theorem isGenesis_iff_val : h.isGenesis = true ↔ h.value.val = 0 := by
  rw [isGenesis, decide_eq_true_iff, Fin.ext_iff]
  rfl

end BlockHeight

namespace ArchivalState
variable {D : Type} [Tip5 D] [DecidableEq D] [ConsensusOps D]
variable {s : ArchivalState D} {a b : D} {l m : List D}

/-! ## The tree of stored blocks -/

/-- The stored blocks form a tree over the genesis block.  A height is the number of ancestors. -/
structure BlockTree (s : ArchivalState D) : Prop where
  genesis_height : s.genesisBlock.header.height.value.val = 0
  genesis_stored : ∀ block, s.blockIndexDb s.genesisBlock.hash = some block → block = s.genesisBlock
  hash_eq : ∀ d block, s.blockIndexDb d = some block → block.hash = d
  parent : ∀ d block, s.blockIndexDb d = some block → d ≠ s.genesisBlock.hash →
    ∃ p, s.getBlock block.header.prevBlockDigest = some p ∧
      block.header.height.value.val = p.header.height.value.val + 1

theorem getBlockHeader_eq_map (d : D) : s.getBlockHeader d = (s.getBlock d).map (·.header) := by
  cases h : s.blockIndexDb d with
  | some block => simp [getBlockHeader, getBlock, h]
  | none =>
    by_cases hd : s.genesisBlock.hash = d
    · simp [getBlockHeader, getBlock, h, hd]
    · simp [getBlockHeader, getBlock, h, hd, Ne.symm hd]

theorem getBlock_genesis (hs : s.BlockTree) :
    s.getBlock s.genesisBlock.hash = some s.genesisBlock := by
  cases h : s.blockIndexDb s.genesisBlock.hash with
  | none => simp [getBlock, h]
  | some block =>
    simp [getBlock, h, hs.genesis_stored block h]

/-- The height and the parent of a stored block. -/
def link (s : ArchivalState D) (d : D) : Option (ℕ × D) :=
  (s.getBlock d).map fun block => (block.header.height.value.val, block.header.prevBlockDigest)

/-- The digests from the genesis block to a stored block. -/
def Chain (s : ArchivalState D) : D → List D → Prop := ChainTo s.link s.genesisBlock.hash

variable {d : D} {block : Block D}

theorem BlockTree.hash_of_getBlock (hs : s.BlockTree) (h : s.getBlock d = some block) :
    block.hash = d := by
  cases hd : s.blockIndexDb d with
  | some block' =>
    rw [getBlock, hd, some_inj] at h
    rw [← h]
    exact hs.hash_eq d block' hd
  | none =>
    simp only [getBlock, hd] at h
    split at h
    next hg =>
      rw [some_inj] at h
      rw [← h, hg]
    next => simp at h

/-- A stored block is the genesis block, or its parent is stored and one lower. -/
theorem BlockTree.genesis_or_parent (hs : s.BlockTree) (h : s.getBlock d = some block) :
    block = s.genesisBlock ∨ ∃ p, s.getBlock block.header.prevBlockDigest = some p ∧
        block.header.height.value.val = p.header.height.value.val + 1 := by
  by_cases hg : d = s.genesisBlock.hash
  · rw [hg, getBlock_genesis hs, some_inj] at h
    exact Or.inl h.symm
  · cases hd : s.blockIndexDb d with
    | some block' =>
      rw [getBlock, hd, some_inj] at h
      subst h
      exact Or.inr (hs.parent d block' hd hg)
    | none => simp [getBlock, hd, Ne.symm hg] at h

theorem BlockTree.exists_chain_of_height (hs : s.BlockTree) (n : ℕ) (h : s.getBlock d = some block)
    (hn : block.header.height.value.val = n) : ∃ l, s.Chain d l ∧ l.length = n + 1 := by
  induction n generalizing d block with
  | zero =>
    cases hs.genesis_or_parent h with
    | inl hg =>
      have hd := hs.hash_of_getBlock h
      subst hd
      subst hg
      refine ⟨[s.genesisBlock.hash], .root (p := s.genesisBlock.header.prevBlockDigest) ?_, rfl⟩
      rw [link, h, map_some, hn]
    | inr hp =>
      obtain ⟨p, -, hheight⟩ := hp
      omega
  | succ n ih =>
    cases hs.genesis_or_parent h with
    | inl hg =>
      subst hg
      have := hs.genesis_height
      omega
    | inr hp =>
      obtain ⟨p, hp, hheight⟩ := hp
      obtain ⟨l, hl, hlen⟩ := ih hp (by omega)
      refine ⟨l ++ [d], .next hl ?_, by simp [hlen]⟩
      rw [link, h, map_some, hn, hlen]

theorem BlockTree.exists_chain (hs : s.BlockTree) (h : s.getBlock d = some block) :
    ∃ l, s.Chain d l ∧ l.length = block.header.height.value.val + 1 :=
  hs.exists_chain_of_height _ h rfl

section
variable {blocks : List (Block D)} (hdb : s.blockIndexDb = fun d => blocks.find? (·.hash = d))
include hdb

theorem mem_of_blockIndexDb (h : s.blockIndexDb d = some block) :
    block ∈ blocks ∧ block.hash = d := by
  rw [hdb] at h
  exact ⟨mem_of_find?_eq_some h, by simpa using find?_some h⟩

variable (hnodup : ((s.genesisBlock :: blocks).map Block.hash).Nodup)
include hnodup

theorem getBlock_of_mem (h : block ∈ s.genesisBlock :: blocks) :
    s.getBlock block.hash = some block := by
  cases hfind : s.blockIndexDb block.hash with
  | some block' =>
    obtain ⟨hmem, hhash⟩ := mem_of_blockIndexDb hdb hfind
    rw [getBlock, hfind, inj_on_of_nodup_map hnodup (mem_cons_of_mem _ hmem) h hhash]
  | none =>
    have hg : block = s.genesisBlock := by
      refine (mem_cons.mp h).resolve_right fun hmem => ?_
      rw [hdb, find?_eq_none] at hfind
      exact hfind block hmem (by simp)
    rw [getBlock, hfind, hg]
    exact if_pos rfl

/-- Finitely many blocks form a tree if each of them has its parent among them. -/
theorem blockTree_of_stored (hheight : s.genesisBlock.header.height.value.val = 0)
    (hparents : ∀ block ∈ blocks, ∃ p ∈ s.genesisBlock :: blocks,
      block.header.prevBlockDigest = p.hash ∧
        block.header.height.value.val = p.header.height.value.val + 1) : s.BlockTree where
  genesis_height := hheight
  genesis_stored block h := by
    obtain ⟨hmem, hhash⟩ := mem_of_blockIndexDb hdb h
    exact inj_on_of_nodup_map hnodup (mem_cons_of_mem _ hmem) mem_cons_self hhash
  hash_eq d block h := (mem_of_blockIndexDb hdb h).2
  parent d block h _ := by
    obtain ⟨p, hp, hprev, hnext⟩ := hparents block (mem_of_blockIndexDb hdb h).1
    exact ⟨p, by rw [hprev, getBlock_of_mem hdb hnodup hp], hnext⟩

end

theorem BlockTree.chain_genesis (hs : s.BlockTree) :
    s.Chain s.genesisBlock.hash [s.genesisBlock.hash] := by
  refine .root (p := s.genesisBlock.header.prevBlockDigest) ?_
  rw [link, getBlock_genesis hs, map_some, hs.genesis_height]

theorem Chain.exists_block (hl : s.Chain a l) : ∃ block, s.getBlock a = some block := by
  obtain ⟨p, hlink⟩ := hl.height_eq
  obtain ⟨block, hblock, -⟩ := map_eq_some_iff.mp hlink
  exact ⟨block, hblock⟩

theorem Chain.next_of_height (hl : s.Chain a l) (hblock : s.getBlock a = some block)
    (hheight : block.header.height.isGenesis = false) :
    ∃ m, s.Chain block.header.prevBlockDigest m ∧ l = m ++ [a] := by
  cases hl.root_or_next with
  | inl hroot =>
    obtain ⟨p, hlink⟩ := hl.height_eq
    rw [hroot.2, link, hblock, map_some, some_inj, Prod.mk.injEq] at hlink
    rw [BlockHeight.isGenesis_iff_val.mpr hlink.1] at hheight
    cases hheight
  | inr hnext =>
    obtain ⟨p, m, hp, hlink, rfl⟩ := hnext
    rw [link, hblock, map_some, some_inj, Prod.mk.injEq] at hlink
    exact ⟨m, hlink.2 ▸ hp, rfl⟩

/-! ## The two loops -/

variable {i : ℕ} {x : D}

theorem Chain.header_getElem (h : s.Chain a l) (hx : l[i]? = some x) :
    ∃ header, s.getBlockHeader x = some header ∧ header.height.value.val = i ∧
      ∀ j y, i = j + 1 → l[j]? = some y → header.prevBlockDigest = y := by
  obtain ⟨p, hp⟩ := h.height_getElem hx
  obtain ⟨block, hblock, hlink⟩ := map_eq_some_iff.mp hp
  refine ⟨block.header, by rw [getBlockHeader_eq_map, hblock, map_some], (Prod.mk.inj hlink).1, ?_⟩
  intro j y hj hy
  subst hj
  have hparent := h.link_eq hy hx
  rw [link, hblock, map_some, some_inj] at hparent
  exact (Prod.mk.inj hparent).2

omit [Tip5 D] [DecidableEq D] [ConsensusOps D] in
theorem reverse_drop_succ (hx : l[i]? = some x) :
    (l.drop i).reverse = (l.drop (i + 1)).reverse ++ [x] := by
  obtain ⟨hi, rfl⟩ := List.getElem?_eq_some_iff.mp hx
  rw [drop_eq_getElem_cons hi, reverse_cons]

section
variable (hl : s.Chain a l) (hm : s.Chain b m)
include hl hm

theorem levelLoop_eq_some (fuel : ℕ) {j : ℕ} {y : D}
    {hx hy : BlockHeader D} (hxi : l[i]? = some x) (hyj : m[j]? = some y)
    (hhx : s.getBlockHeader x = some hx) (hhy : s.getBlockHeader y = some hy)
    (hfuel : i + j < fuel) : s.levelLoop fuel (l.drop i).reverse (m.drop j).reverse hx hy =
      some ((l.drop (min i j)).reverse, (m.drop (min i j)).reverse) := by
  induction fuel generalizing i j x y hx hy with
  | zero => omega
  | succ fuel ih =>
    obtain ⟨hx', hhx', hix, hprevx⟩ := hl.header_getElem hxi
    obtain ⟨hy', hhy', hjy, hprevy⟩ := hm.header_getElem hyj
    rw [hhx, some_inj] at hhx'
    rw [hhy, some_inj] at hhy'
    subst hhx'
    subst hhy'
    rw [levelLoop]
    by_cases heq : i = j
    · rw [if_pos (BlockHeight.eq_iff_val.mpr (by omega)), heq, min_self]
    · rw [if_neg (fun h => heq (by rw [← hix, ← hjy, BlockHeight.eq_iff_val.mp h]))]
      by_cases hlt : i < j
      · rw [if_pos (BlockHeight.lt_iff_val.mpr (by omega))]
        obtain ⟨j, rfl⟩ : ∃ j', j = j' + 1 := ⟨j - 1, by omega⟩
        have hj : j < m.length := by
          have := (List.getElem?_eq_some_iff.mp hyj).1
          omega
        have hz : m[j]? = some m[j] := getElem?_eq_getElem hj
        obtain ⟨hz', hhz, -⟩ := hm.header_getElem hz
        have hmin : min i (j + 1) = min i j := by omega
        rw [hprevy j _ rfl hz, hhz, hmin, ← ih hxi hz hhx hhz (by omega), reverse_drop_succ hz]
        rfl
      · rw [if_neg (fun h => hlt (by rw [← hix, ← hjy]; exact BlockHeight.lt_iff_val.mp h))]
        obtain ⟨i, rfl⟩ : ∃ i', i = i' + 1 := ⟨i - 1, by omega⟩
        have hi : i < l.length := by
          have := (List.getElem?_eq_some_iff.mp hxi).1
          omega
        have hz : l[i]? = some l[i] := getElem?_eq_getElem hi
        obtain ⟨hz', hhz, -⟩ := hl.header_getElem hz
        have hmin : min (i + 1) j = min i j := by omega
        rw [hprevx i _ rfl hz, hhz, hmin, ← ih hz hyj hhz hhy (by omega), reverse_drop_succ hz]
        rfl

/-- The second loop stops at the highest place where both chains have the same block. -/
theorem meetLoop_eq_some (fuel : ℕ) (hil : i < l.length)
    (him : i < m.length) (hfuel : i < fuel) : ∃ k x, k ≤ i ∧ l[k]? = some x ∧ m[k]? = some x ∧
      (∀ j, k < j → j ≤ i → l[j]? ≠ m[j]?) ∧ s.meetLoop fuel (l.drop i).reverse (m.drop i).reverse =
        some ((l.drop k).reverse, (m.drop k).reverse) := by
  induction fuel generalizing i with
  | zero => omega
  | succ fuel ih =>
    have hx : l[i]? = some l[i] := getElem?_eq_getElem hil
    have hy : m[i]? = some m[i] := getElem?_eq_getElem him
    have hlastx : (l.drop i).reverse.getLast? = some l[i] := by
      rw [reverse_drop_succ hx, getLast?_concat]
    have hlasty : (m.drop i).reverse.getLast? = some m[i] := by
      rw [reverse_drop_succ hy, getLast?_concat]
    by_cases heq : l[i] = m[i]
    · refine ⟨i, l[i], le_refl i, hx, heq ▸ hy, fun j hlt hle => absurd hle (not_le.mpr hlt), ?_⟩
      simp [meetLoop, hlastx, hlasty, heq]
    · cases i with
      | zero =>
        have hroot := hl.getElem?_zero.symm.trans hx
        have hroot' := hm.getElem?_zero.symm.trans hy
        rw [some_inj] at hroot hroot'
        exact absurd (hroot.symm.trans hroot') heq
      | succ i =>
        obtain ⟨headerx, hhx, -, hprevx⟩ := hl.header_getElem hx
        obtain ⟨headery, hhy, -, hprevy⟩ := hm.header_getElem hy
        have hx' : l[i]? = some l[i] := getElem?_eq_getElem (by omega)
        have hy' : m[i]? = some m[i] := getElem?_eq_getElem (by omega)
        obtain ⟨k, x, hk, hkl, hkm, habove, hrun⟩ := ih (i := i) (by omega) (by omega) (by omega)
        refine ⟨k, x, by omega, hkl, hkm, ?_, ?_⟩
        · intro j hlt hle
          by_cases hj : j = i + 1
          · rw [hj, hx, hy, ne_eq, some_inj]
            exact heq
          · exact habove j hlt (by omega)
        rw [← hrun, reverse_drop_succ hx', reverse_drop_succ hy', ← hprevx i _ rfl hx',
          ← hprevy i _ rfl hy']
        simp [meetLoop, hlastx, hlasty, heq, hhx, hhy]

/-- The two chains of a path share their lower part, and nothing above. -/
theorem Chain.findPath_eq_some :
    ∃ k luca, l[k]? = some luca ∧ m[k]? = some luca ∧ l.take (k + 1) = m.take (k + 1) ∧
      (∀ j x, l[j]? = some x → m[j]? = some x → j ≤ k) ∧
      s.findPath a b = some ((l.drop (k + 1)).reverse, luca, m.drop (k + 1)) := by
  have ha : l[l.length - 1]? = some a := by rw [← getLast?_eq_getElem?, hl.getLast?_eq]
  have hb : m[m.length - 1]? = some b := by rw [← getLast?_eq_getElem?, hm.getLast?_eq]
  have hposl := hl.length_pos
  have hposm := hm.length_pos
  obtain ⟨headera, hha, hheighta, -⟩ := hl.header_getElem ha
  obtain ⟨headerb, hhb, hheightb, -⟩ := hm.header_getElem hb
  have hstarta : (l.drop (l.length - 1)).reverse = [a] := by
    rw [reverse_drop_succ ha, drop_of_length_le (by omega)]
    rfl
  have hstartb : (m.drop (m.length - 1)).reverse = [b] := by
    rw [reverse_drop_succ hb, drop_of_length_le (by omega)]
    rfl
  have hlevel := levelLoop_eq_some hl hm (headera.height.value.val + headerb.height.value.val + 1)
    ha hb hha hhb (by omega)
  obtain ⟨k, luca, hk, hkl, hkm, habove, hmeet⟩ := meetLoop_eq_some hl hm
    (headera.height.value.val + headerb.height.value.val + 1)
    (i := min (l.length - 1) (m.length - 1)) (by omega) (by omega) (by omega)
  refine ⟨k, luca, hkl, hkm, hl.take_eq_of_meet hm hkl hkm, ?_, ?_⟩
  · intro j x hjl hjm
    by_contra hlt
    have hl := (List.getElem?_eq_some_iff.mp hjl).1
    have hm := (List.getElem?_eq_some_iff.mp hjm).1
    exact habove j (by omega) (by omega) (hjl.trans hjm.symm)
  rw [hstarta, hstartb] at hlevel
  simp [findPath, hha, hhb, hlevel, hmeet, reverse_drop_succ hkl, reverse_drop_succ hkm]

end

end ArchivalState

end NyksNode
