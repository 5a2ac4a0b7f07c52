import NyksNode.Archival.BlockMmr
import NyksNode.Archival.Reversal
import NyksNode.Block.Agreement

/-!
# Reorganizations of the archival mutator set

When the tip moves, the archival mutator set undoes the blocks down to the common ancestor and
applies the blocks up to the new tip.  Every chain of valid blocks has a ledger; undoing a
block leads to the ledger of the chain without it, applying one to the ledger of the chain
with it.  So where the set ends up depends on the tip only.
-/

namespace NyksNode

open List Option MutatorSetUpdate Network Ledger Fallible
open PendingUpdates (Ordinary)

variable {D : Type} [Tip5 D] [Inhabited D]

/-- An update that leads from one ledger to another. -/
structure Ledger.Extends (L L' : Ledger D) (u : MutatorSetUpdate D) : Prop where
  synced : ∀ rr ∈ u.removals, L.Synced rr
  ordinary : ∀ rr ∈ u.removals, Ordinary rr
  commitments : L'.commitments = L.commitments ++ u.additions.map (·.canonicalCommitment)
  bits : L'.bits = (u.removals.flatMap fun rr => rr.absoluteIndices.toArray : List ℕ) + L.bits

namespace ArchivalMutatorSet
variable [DecidableEq D] [MmrNodeIndexing] {a : ArchivalMutatorSet D} {L L' : Ledger D}

/-! ## Undoing a block -/

omit [DecidableEq D] in
theorem Reflects.foldlM_revertRemove (h : a.Reflects L) (L' : Ledger D)
    {rrs : List (RemovalRecord D)} (hcommitments : L'.commitments = L.commitments)
    (hbits : L.bits = (rrs.flatMap fun rr => rr.absoluteIndices.toArray : List ℕ) + L'.bits) :
    ∃ a', rrs.foldlM (fun ams rr => ams.revertRemove rr) a = some a' ∧ a'.Reflects L' := by
  induction rrs generalizing a L with
  | nil =>
    obtain rfl : L = L' := Ledger.ext hcommitments.symm (by simpa using hbits)
    exact ⟨a, rfl, h⟩
  | cons rr rrs ih =>
    rw [flatMap_cons, ← Multiset.coe_add, Multiset.add_assoc] at hbits
    -- the ledger in between
    have hlt : ∀ i ∈ ((rrs.flatMap fun rr => rr.absoluteIndices.toArray : List ℕ) : Multiset ℕ) +
        L'.bits, i < aoclToSwbfiLeafCounts L.commitments.length * chunkSize + windowSize :=
      fun i hi => L.bits_lt i (hbits ▸ Multiset.mem_add.mpr (Or.inr hi))
    obtain ⟨a₁, hstep, h₁⟩ := h.revertRemove ⟨L.commitments, _, L.length_lt, hlt⟩ rfl hbits
    obtain ⟨a', hrun, h'⟩ := ih h₁ hcommitments rfl
    refine ⟨a', ?_, h'⟩
    rw [foldlM_cons, hstep]
    exact hrun

omit [Tip5 D] [Inhabited D] [DecidableEq D] [MmrNodeIndexing] in
theorem bits_lt_append (L : Ledger D) (ds : List D) : ∀ i ∈ L.bits,
    i < aoclToSwbfiLeafCounts (L.commitments ++ ds).length * chunkSize + windowSize := by
  intro i hi
  refine (L.bits_lt i hi).trans_le (Nat.add_le_add_right (Nat.mul_le_mul_right _ ?_) _)
  rw [length_append]
  exact Nat.div_le_div_right (by omega)

variable {rs : List (AdditionRecord D)}

theorem Reflects.foldlM_rollBackAddition (h : a.Reflects L) (L' : Ledger D)
    (hcommitments : L.commitments = L'.commitments ++ rs.map (·.canonicalCommitment))
    (hbits : L.bits = L'.bits) :
    ∃ a', rs.reverse.foldlM ArchivalState.rollBackAddition a = some a' ∧ a'.Reflects L' := by
  induction rs using reverseRecOn generalizing a L with
  | nil =>
    obtain rfl : L = L' := Ledger.ext (by simpa using hcommitments) hbits
    exact ⟨a, rfl, h⟩
  | append_singleton rs r ih =>
    rw [map_append, map_singleton, ← append_assoc] at hcommitments
    have hlt : (L'.commitments ++ rs.map (·.canonicalCommitment)).length < u64Bound := by
      have := L.length_lt
      rw [hcommitments, length_append, length_singleton] at this
      omega
    obtain ⟨hreversible, a₁, hstep, h₁⟩ := h.revertAdd
      ⟨_, L'.bits, hlt, bits_lt_append L' _⟩ hcommitments hbits
    obtain ⟨a', hrun, h'⟩ := ih h₁ rfl rfl
    refine ⟨a', ?_, h'⟩
    have hrollback : ArchivalState.rollBackAddition a r = some a₁ := by
      simp [ArchivalState.rollBackAddition, hreversible, hstep]
    rw [reverse_concat, foldlM_cons, hrollback]
    exact hrun

/-! ## Applying a block -/

omit [DecidableEq D] in
theorem Reflects.foldlM_add (h : a.Reflects L) (hlt : L.commitments.length + rs.length < u64Bound) :
    ∃ a' L', rs.foldlM (fun ams r => ams.add r) a = some a' ∧ a'.Reflects L' ∧
      L'.commitments = L.commitments ++ rs.map (·.canonicalCommitment) ∧ L'.bits = L.bits := by
  induction rs generalizing a L with
  | nil => exact ⟨a, L, rfl, h, by simp, rfl⟩
  | cons r rs ih =>
    rw [length_cons] at hlt
    have hlt₁ : L.commitments.length + 1 < u64Bound := by omega
    obtain ⟨a₁, hadd, h₁⟩ := h.add r hlt₁
    obtain ⟨a', L', hrun, h', hc, hb⟩ := ih h₁ (by
      rw [commitments_add, length_append, length_singleton]
      omega)
    refine ⟨a', L', ?_, h', ?_, hb⟩
    · rw [foldlM_cons, hadd]
      exact hrun
    · rw [hc, commitments_add, append_assoc, singleton_append, map_cons]

variable [MmrOps D] [LawfulMmr D]

theorem Reflects.foldlM_applyBlockAddition (h : a.Reflects L) {rrs : List (RemovalRecord D)}
    (hs : ∀ rr ∈ rrs, L.Synced rr) (ho : ∀ rr ∈ rrs, Ordinary rr)
    (hlt : L.commitments.length + rs.length < u64Bound) :
    ∃ a' L' rrs', rs.foldlM ArchivalState.applyBlockAddition (a, rrs) = some (a', rrs') ∧
      a'.Reflects L' ∧ (∀ rr ∈ rrs', L'.Synced rr) ∧ (∀ rr ∈ rrs', Ordinary rr) ∧
      L'.commitments = L.commitments ++ rs.map (·.canonicalCommitment) ∧ L'.bits = L.bits ∧
      rrs'.map (·.absoluteIndices) = rrs.map (·.absoluteIndices) := by
  induction rs generalizing a L rrs with
  | nil => exact ⟨a, L, rrs, rfl, h, hs, ho, by simp, rfl, rfl⟩
  | cons r rs ih =>
    rw [length_cons] at hlt
    have hlt₁ : L.commitments.length + 1 < u64Bound := by omega
    obtain ⟨a₁, hadd, h₁⟩ := h.add r hlt₁
    have hstep : ArchivalState.applyBlockAddition (a, rrs) r =
        some (a₁, rrs.map (L.refreshFromAdd r.canonicalCommitment hlt₁)) := by
      simp [ArchivalState.applyBlockAddition, h.accumulator_eq, hadd,
        batchUpdateFromAddition_synced r.canonicalCommitment hlt₁ hs]
    have hs₁ : ∀ rr ∈ rrs.map (L.refreshFromAdd r.canonicalCommitment hlt₁),
        (L.add r.canonicalCommitment hlt₁).Synced rr := by
      intro rr hrr
      obtain ⟨rr₀, hrr₀, rfl⟩ := mem_map.mp hrr
      exact (hs rr₀ hrr₀).refreshFromAdd r.canonicalCommitment hlt₁
    have ho₁ : ∀ rr ∈ rrs.map (L.refreshFromAdd r.canonicalCommitment hlt₁), Ordinary rr := by
      intro rr hrr
      obtain ⟨rr₀, hrr₀, rfl⟩ := mem_map.mp hrr
      exact (ho rr₀ hrr₀).refreshFromAdd (hs rr₀ hrr₀).supplies r.canonicalCommitment hlt₁
    obtain ⟨a', L', rrs', hrun, h', hs', ho', hc, hb, hsets⟩ := ih h₁ hs₁ ho₁ (by
      rw [commitments_add, length_append, length_singleton]
      omega)
    refine ⟨a', L', rrs', ?_, h', hs', ho', ?_, hb, ?_⟩
    · rw [foldlM_cons, hstep]
      exact hrun
    · rw [hc, commitments_add, append_assoc, singleton_append, map_cons]
    · rw [hsets, List.map_map]
      rfl

theorem Reflects.applyUpdate (h : a.Reflects L) {u : MutatorSetUpdate D} (hu : L.Extends L' u) :
    ∃ a₁ rrs a', u.additions.foldlM ArchivalState.applyBlockAddition (a, u.removals.reverse) =
        some (a₁, rrs) ∧ a₁.batchRemove rrs = some a' ∧ a'.Reflects L' := by
  have hlt : L.commitments.length + u.additions.length < u64Bound := by
    have := L'.length_lt
    rwa [hu.commitments, length_append, length_map] at this
  have hs₀ : ∀ rr ∈ u.removals.reverse, L.Synced rr :=
    fun rr hrr => hu.synced rr (mem_reverse.mp hrr)
  have ho₀ : ∀ rr ∈ u.removals.reverse, Ordinary rr :=
    fun rr hrr => hu.ordinary rr (mem_reverse.mp hrr)
  obtain ⟨a₁, L₁, rrs, hadd, h₁, hs, ho, hc, hb, hsets⟩ :=
    h.foldlM_applyBlockAddition hs₀ ho₀ hlt
  have hr := batchRemovable_of_ordinary hs ho
  obtain ⟨a', hremove, h'⟩ := h₁.batchRemove hs hr
  have hindices : ((batchIndices rrs : List ℕ) : Multiset ℕ) =
      (u.removals.flatMap fun rr => rr.absoluteIndices.toArray : List ℕ) := by
    have hflat : batchIndices rrs =
        (rrs.map (·.absoluteIndices)).flatMap (·.toArray) := (flatMap_map ..).symm
    rw [hflat, hsets, flatMap_map]
    exact Multiset.coe_eq_coe.mpr ((reverse_perm _).flatMap_right _)
  obtain rfl : L₁.batchRemove rrs hr = L' := by
    refine Ledger.ext ?_ ?_
    · rw [Ledger.commitments_batchRemove, hc, hu.commitments]
    · rw [Ledger.bits_batchRemove_of_ordinary hr hs ho, hb, hindices, hu.bits]
  exact ⟨a₁, rrs, a', hadd, hremove, h'⟩

end ArchivalMutatorSet

namespace ArchivalState

section
variable [DecidableEq D] [ConsensusOps D] [MmrNodeIndexing]
variable {s : ArchivalState D} {L L' : Ledger D} {l m : List D} {d : D}

/-! ## The ledger of a chain -/

def storedUpdate (s : ArchivalState D) (d : D) : Option (MutatorSetUpdate D) := do
  let block ← s.getBlock d
  block.mutatorSetUpdate.unwrap

/-- The ledger that the updates of stored blocks lead to. -/
inductive ChainLedger (s : ArchivalState D) : List D → Ledger D → Prop
  | nil : ChainLedger s [] .empty
  | concat {l : List D} {d : D} {L L' : Ledger D} {u : MutatorSetUpdate D}
      (h : ChainLedger s l L) (hupdate : s.storedUpdate d = some u) (hu : L.Extends L' u) :
      ChainLedger s (l ++ [d]) L'

theorem ChainLedger.concat_iff : s.ChainLedger (l ++ [d]) L' ↔
    ∃ L u, s.ChainLedger l L ∧ s.storedUpdate d = some u ∧ L.Extends L' u := by
  constructor
  · generalize hl : l ++ [d] = m
    intro h
    cases h with
    | nil => simp at hl
    | concat h hupdate hu =>
      obtain ⟨rfl, hd⟩ := append_inj' hl rfl
      obtain rfl : d = _ := by simpa using hd
      exact ⟨_, _, h, hupdate, hu⟩
  · rintro ⟨L, u, h, hupdate, hu⟩
    exact h.concat hupdate hu

theorem ChainLedger.eq_empty (h : s.ChainLedger [] L) : L = .empty := by
  generalize hnil : ([] : List D) = m at h
  cases h with
  | nil => rfl
  | concat => simp at hnil

theorem ChainLedger.unique (h : s.ChainLedger l L) (h' : s.ChainLedger l L') : L = L' := by
  induction l using reverseRecOn generalizing L L' with
  | nil => rw [h.eq_empty, h'.eq_empty]
  | append_singleton l d ih =>
    obtain ⟨L₁, u, h₁, hupdate, hu⟩ := ChainLedger.concat_iff.mp h
    obtain ⟨L₁', u', h₁', hupdate', hu'⟩ := ChainLedger.concat_iff.mp h'
    obtain rfl := ih h₁ h₁'
    obtain rfl := some_inj.mp (hupdate.symm.trans hupdate')
    refine Ledger.ext ?_ ?_
    · rw [hu.commitments, hu'.commitments]
    · rw [hu.bits, hu'.bits]

theorem ChainLedger.append_left (h : s.ChainLedger (l ++ m) L) : ∃ L₁, s.ChainLedger l L₁ := by
  induction m using reverseRecOn generalizing L with
  | nil => exact ⟨L, by rwa [append_nil] at h⟩
  | append_singleton m d ih =>
    rw [← append_assoc] at h
    obtain ⟨L₁, u, h₁, -⟩ := ChainLedger.concat_iff.mp h
    exact ih h₁

theorem ChainLedger.setMutatorSet (h : s.ChainLedger l L) (a : RustyArchivalMutatorSet D) :
    ChainLedger { s with archivalMutatorSet := a } l L := by
  induction h with
  | nil => exact .nil
  | concat _ hupdate hu ih => exact ih.concat hupdate hu

/-! ## Along a chain -/

variable {a : ArchivalMutatorSet D}

/-- Undoing a block leads back to the ledger of the chain without it. -/
theorem rollBackBlock_eq_some {u : MutatorSetUpdate D} (h : a.Reflects L')
    (hupdate : s.storedUpdate d = some u) (hu : L.Extends L' u) :
    ∃ a', s.rollBackBlock a d = some a' ∧ a'.Reflects L := by
  simp only [storedUpdate, bind_eq_some] at hupdate
  obtain ⟨block, hblock, hunwrap⟩ := hupdate
  have hlt := L'.length_lt
  rw [hu.commitments] at hlt
  -- the ledger with the additions and without the removals
  obtain ⟨a₁, hremovals, h₁⟩ := h.foldlM_revertRemove
    ⟨_, L.bits, hlt, ArchivalMutatorSet.bits_lt_append L _⟩ hu.commitments.symm hu.bits
  obtain ⟨a', hadditions, h'⟩ := h₁.foldlM_rollBackAddition L rfl rfl
  refine ⟨a', ?_, h'⟩
  simp only [rollBackBlock, hblock, hunwrap, hremovals, hadditions, some_bind]

theorem foldlM_rollBackBlock (h : a.Reflects L) (hL : s.ChainLedger (l ++ m) L) :
    ∃ a' L', m.reverse.foldlM s.rollBackBlock a = some a' ∧ a'.Reflects L' ∧
      s.ChainLedger l L' := by
  induction m using reverseRecOn generalizing a L with
  | nil => exact ⟨a, L, rfl, h, by rwa [append_nil] at hL⟩
  | append_singleton m d ih =>
    rw [← append_assoc] at hL
    obtain ⟨L₁, u, hL₁, hupdate, hu⟩ := ChainLedger.concat_iff.mp hL
    obtain ⟨a₁, hstep, h₁⟩ := rollBackBlock_eq_some h hupdate hu
    obtain ⟨a', L', hrun, h', hL'⟩ := ih h₁ hL₁
    refine ⟨a', L', ?_, h', hL'⟩
    rw [reverse_concat, foldlM_cons, hstep]
    exact hrun

variable [MmrOps D] [LawfulMmr D] {newBlock : Block D}

theorem applyForwardBlock_eq_some {u : MutatorSetUpdate D}
    (hnew : s.getBlock newBlock.hash = some newBlock) (h : a.Reflects L)
    (hupdate : s.storedUpdate d = some u) (hu : L.Extends L' u) :
    ∃ a', s.applyForwardBlock newBlock a d = some a' ∧ a'.Reflects L' := by
  simp only [storedUpdate, bind_eq_some] at hupdate
  obtain ⟨block, hblock, hunwrap⟩ := hupdate
  obtain ⟨a₁, rrs, a', hadditions, hremovals, h'⟩ := h.applyUpdate hu
  refine ⟨a', ?_, h'⟩
  have hread : s.forwardBlock newBlock d = some block := by
    by_cases hd : d = newBlock.hash
    · rw [forwardBlock, if_pos hd, ← hblock, hd, hnew]
    · rw [forwardBlock, if_neg hd, hblock]
  simp [applyForwardBlock, hread, hunwrap, hadditions, hremovals]

theorem foldlM_applyForwardBlock (hnew : s.getBlock newBlock.hash = some newBlock)
    (h : a.Reflects L) (hL : s.ChainLedger l L) (hL' : s.ChainLedger (l ++ m) L') :
    ∃ a', m.foldlM (s.applyForwardBlock newBlock) a = some a' ∧ a'.Reflects L' := by
  induction m generalizing a l L with
  | nil =>
    rw [append_nil] at hL'
    obtain rfl := hL.unique hL'
    exact ⟨a, rfl, h⟩
  | cons d m ih =>
    rw [← singleton_append, ← append_assoc] at hL'
    obtain ⟨L₁, hL₁⟩ := hL'.append_left
    obtain ⟨L₀, u, hL₀, hupdate, hu⟩ := ChainLedger.concat_iff.mp hL₁
    obtain rfl := hL.unique hL₀
    obtain ⟨a₁, hstep, h₁⟩ := applyForwardBlock_eq_some hnew h hupdate hu
    obtain ⟨a', hrun, h'⟩ := ih h₁ hL₁ hL'
    refine ⟨a', ?_, h'⟩
    rw [foldlM_cons, hstep]
    exact hrun

/-! ## Moving to a block -/

/-- The archival mutator set is that of the chain to its sync label. -/
structure InSync (s : ArchivalState D) (l : List D) (L : Ledger D) : Prop where
  chain : s.Chain s.archivalMutatorSet.syncLabel l
  ledger : s.ChainLedger l L
  reflects : s.archivalMutatorSet.ams.Reflects L

omit [Inhabited D] [MmrNodeIndexing] [MmrOps D] [LawfulMmr D] in
/-- The path to a block leads down to a common ancestor, and up to the block. -/
theorem pathToBlock_eq_some (hnew : s.getBlock newBlock.hash = some newBlock)
    (hl : s.Chain s.archivalMutatorSet.syncLabel l) (hm : s.Chain newBlock.hash m)
    (hheight : newBlock.header.height.isGenesis = false) :
    ∃ l₁ l₂ l₃, l = l₁ ++ l₂ ∧ m = l₁ ++ l₃ ∧ s.pathToBlock newBlock = some (l₂.reverse, l₃) := by
  obtain ⟨m, hp, rfl⟩ := hm.next_of_height hnew hheight
  by_cases hsync : s.archivalMutatorSet.syncLabel = newBlock.header.prevBlockDigest
  · -- the block is on top of the set
    rw [hsync] at hl
    obtain rfl := hl.unique hp
    exact ⟨l, [], [newBlock.hash], by simp, rfl, by rw [pathToBlock, if_pos hsync]; rfl⟩
  · obtain ⟨k, luca, -, -, htake, -, hpath⟩ := hl.findPath_eq_some hp
    refine ⟨l.take (k + 1), l.drop (k + 1), m.drop (k + 1) ++ [newBlock.hash],
      (take_append_drop _ _).symm, ?_, ?_⟩
    · rw [htake, ← append_assoc, take_append_drop]
    · simp [pathToBlock, hsync, hpath]

theorem moveMutatorSet_eq_some (h : s.InSync l L) (hnew : s.getBlock newBlock.hash = some newBlock)
    (hm : s.Chain newBlock.hash m) (hL' : s.ChainLedger m L')
    (hafter : newBlock.mutatorSetAccumulatorAfter.Returns L'.accumulator)
    (hheight : newBlock.header.height.isGenesis = false) : ∃ ams, s.moveMutatorSet newBlock =
        some { s with archivalMutatorSet := ⟨ams, newBlock.hash⟩ } ∧ ams.Reflects L' := by
  obtain ⟨l₁, l₂, l₃, rfl, rfl, hpath⟩ := pathToBlock_eq_some hnew h.chain hm hheight
  obtain ⟨a₁, L₁, hback, h₁, hL₁⟩ := foldlM_rollBackBlock h.reflects h.ledger
  obtain ⟨a', hforth, h'⟩ := foldlM_applyForwardBlock hnew h₁ hL₁ hL'
  refine ⟨a', ?_, h'⟩
  have hhash : a'.hash = some L'.accumulator.hash := by
    rw [ArchivalMutatorSet.hash, h'.accumulator_eq, map_some]
  have hunwrap : newBlock.mutatorSetAccumulatorAfter.unwrap = some L'.accumulator :=
    unwrap_eq_some_iff.mpr hafter
  simp [moveMutatorSet, hpath, hback, hforth, hhash, hunwrap]

omit [MmrOps D] [LawfulMmr D] [DecidableEq D] in
theorem populate_eq_some {a : RustyArchivalMutatorSet D} (block : Block D)
    (h : a.ams.Reflects .empty)
    (hL : L.commitments = block.body.transactionKernel.outputs.map (·.canonicalCommitment))
    (hbits : L.bits = 0) :
    ∃ ams, populateArchivalMutatorSetWithGenesisBlock a block = some ⟨ams, block.hash⟩ ∧
      ams.Reflects L := by
  have hlt : (empty : Ledger D).commitments.length +
      block.body.transactionKernel.outputs.length < u64Bound := by
    have := L.length_lt
    rw [hL, length_map] at this
    exact (Nat.zero_add _).trans_lt this
  obtain ⟨ams, L', hrun, h', hcommitments, hbits'⟩ := h.foldlM_add hlt
  obtain rfl : L' = L := Ledger.ext (hcommitments.trans hL.symm) (hbits'.trans hbits.symm)
  exact ⟨ams, by simp [populateArchivalMutatorSetWithGenesisBlock, hrun], h'⟩

omit [MmrOps D] [LawfulMmr D] in
theorem resetMutatorSet_eq_some (h : s.InSync l L) (hL' : L'.commitments =
      s.genesisBlock.body.transactionKernel.outputs.map (·.canonicalCommitment))
    (hbits : L'.bits = 0) : ∃ ams, s.resetMutatorSet s.genesisBlock =
        some { s with archivalMutatorSet := ⟨ams, s.genesisBlock.hash⟩ } ∧ ams.Reflects L' := by
  obtain ⟨a₁, hclear, h₁⟩ := h.reflects.clear
  obtain ⟨ams, hpopulate, h'⟩ := populate_eq_some
    (a := { s.archivalMutatorSet with ams := a₁ }) s.genesisBlock h₁ hL' hbits
  exact ⟨ams, by simp [resetMutatorSet, hclear, hpopulate], h'⟩

/-! ## Valid trees -/

variable [DigestOps D]

/-- The stored blocks form a tree over the genesis block of a network, and every block is valid on
top of its parent. -/
structure ValidTree (s : ArchivalState D) (network : Network) : Prop where
  tree : s.BlockTree
  genesis : Block.genesis network = some s.genesisBlock
  valid : ∀ d block p, s.getBlock d = some block → d ≠ s.genesisBlock.hash →
    s.getBlock block.header.prevBlockDigest = some p →
    ∃ now, (block.validate p now network).Returns ()

variable {network : Network}

omit [Inhabited D] [LawfulMmr D] in
theorem validTree_of_stored {blocks : List (Block D)}
    (hdb : s.blockIndexDb = fun d => blocks.find? (·.hash = d))
    (hnodup : ((s.genesisBlock :: blocks).map Block.hash).Nodup)
    (hgenesis : Block.genesis network = some s.genesisBlock)
    (hheight : s.genesisBlock.header.height.value.val = 0)
    (hparents : ∀ block ∈ blocks, ∃ p ∈ s.genesisBlock :: blocks,
      block.header.prevBlockDigest = p.hash ∧
        block.header.height.value.val = p.header.height.value.val + 1 ∧
        ∃ now, (block.validate p now network).Returns ()) : s.ValidTree network where
  tree := blockTree_of_stored hdb hnodup hheight fun block hblock => by
    obtain ⟨p, hp, hprev, hnext, -⟩ := hparents block hblock
    exact ⟨p, hp, hprev, hnext⟩
  genesis := hgenesis
  valid d block p hblock hd hp := by
    cases hfind : s.blockIndexDb d with
    | none => simp [getBlock, hfind, Ne.symm hd] at hblock
    | some block' =>
      rw [getBlock, hfind] at hblock
      cases hblock
      obtain ⟨p', hp', hprev, -, hvalid⟩ := hparents block (mem_of_blockIndexDb hdb hfind).1
      rw [hprev, getBlock_of_mem hdb hnodup hp', some_inj] at hp
      exact hp ▸ hvalid

omit [Inhabited D] [LawfulMmr D] in
theorem ValidTree.setMutatorSet (hs : s.ValidTree network) (a : RustyArchivalMutatorSet D) :
    ValidTree { s with archivalMutatorSet := a } network :=
  ⟨⟨hs.tree.genesis_height, hs.tree.genesis_stored, hs.tree.hash_eq, hs.tree.parent⟩, hs.genesis,
    hs.valid⟩

theorem ValidTree.exists_genesis_ledger (hs : s.ValidTree network) :
    ∃ L, s.ChainLedger [s.genesisBlock.hash] L ∧
      s.genesisBlock.mutatorSetAccumulatorAfter.Returns L.accumulator ∧
      L.commitments = s.genesisBlock.body.transactionKernel.outputs.map (·.canonicalCommitment) ∧
      L.bits = 0 := by
  have hlt : (empty : Ledger D).commitments.length +
      (genesisAllocations : List (AdditionRecord D)).length < u64Bound :=
    show 0 + 2 < u64Bound by decide
  obtain ⟨L, hL, hcommitments, hbits⟩ := empty.exists_foldlM_add hlt
  have hgenesis := hs.genesis
  rw [accumulator_empty] at hL
  rw [Block.genesis, hL, some_bind, some_inj] at hgenesis
  have hguesser : s.genesisBlock.guesserFeeAdditionRecords = .ok [] := by
    rw [← hgenesis]
    rfl
  have hinputs : s.genesisBlock.kernel.unpackedInputs.Returns [] := by
    have hnil : s.genesisBlock.kernel.body.transactionKernel.inputs = [] := by
      rw [← hgenesis]
    simp [BlockKernel.unpackedInputs, hnil, RemovalRecordList.tryUnpack_nil]
  have houtputs : s.genesisBlock.body.transactionKernel.outputs = genesisAllocations := by
    rw [← hgenesis]
    rfl
  have hupdate := Block.returns_mutatorSetUpdate hguesser hinputs
  rw [append_nil] at hupdate
  refine ⟨L, ?_, ?_, by rw [hcommitments, houtputs]; rfl, hbits⟩
  · refine ChainLedger.concat (l := []) .nil
      (u := ⟨[], s.genesisBlock.body.transactionKernel.outputs⟩) ?_
      ⟨by simp, by simp, by rw [hcommitments, houtputs], ?_⟩
    · simp [storedUpdate, getBlock_genesis hs.tree, hupdate]
    · rw [hbits]
      rfl
  · rw [Block.returns_mutatorSetAccumulatorAfter_iff hguesser, ← hgenesis]
    rfl

variable [MmrOps.ReportsPositions D] [Tip5.CollisionFree D] [MmrOps.CollisionFree D]

variable {A : MutatorSetAccumulator D}

omit [DigestOps D] in
theorem exists_extends {block : Block D} {inputs : List (RemovalRecord D)}
    (hfee : block.body.transactionKernel.fee.isNegative = false)
    (hev : block.Evolves L.accumulator inputs) (hA : block.mutatorSetAccumulatorAfter.Returns A) :
    ∃ u L', block.mutatorSetUpdate.Returns u ∧ L.Extends L' u ∧ L'.accumulator = A := by
  obtain ⟨rs, hrs⟩ := Block.exists_guesserFeeAdditionRecords hfee
  have hs : ∀ rr ∈ inputs, L.Synced rr := fun _ => hev.synced
  have ho : ∀ rr ∈ inputs, Ordinary rr := fun _ => hev.ordinary
  -- the guesser fee can be added together with the outputs
  have happly : applyToAccumulator
      ⟨inputs, block.body.transactionKernel.outputs ++ rs⟩ L.accumulator = some (A, .ok ()) := by
    rwa [applyToAccumulator_append hs ho hev.body_eq,
      ← Block.returns_mutatorSetAccumulatorAfter_iff hrs]
  have hlt := lt_of_applyToAccumulator
    (u := ⟨inputs, block.body.transactionKernel.outputs ++ rs⟩) hs ho happly
  obtain ⟨L', hL', hcommitments, hbits⟩ := applyToAccumulator_eq
    (u := ⟨inputs, block.body.transactionKernel.outputs ++ rs⟩) hs ho hlt
  rw [happly, some_inj, Prod.mk.injEq] at hL'
  refine ⟨_, L', Block.returns_mutatorSetUpdate hrs hev.unpacked, ⟨hs, ho, hcommitments, ?_⟩,
    hL'.1.symm⟩
  rw [hbits]
  congr 2
  refine flatMap_congr fun rr hrr => ?_
  rw [AbsoluteIndexSet.bloomIndices_of_lt (ho rr hrr).2]

/-- **Every chain has a ledger**, whose accumulator is the one after the last block. -/
theorem ValidTree.exists_ledger (hs : s.ValidTree network) (hl : s.Chain d l) {block : Block D}
    (hblock : s.getBlock d = some block) (hA : block.mutatorSetAccumulatorAfter.Returns A) :
    ∃ L, s.ChainLedger l L ∧ L.accumulator = A := by
  induction hl generalizing block A with
  | root hroot =>
    rw [getBlock_genesis hs.tree] at hblock
    cases hblock
    obtain ⟨L, hL, hafter, -⟩ := hs.exists_genesis_ledger
    exact ⟨L, hL, hafter.unique hA⟩
  | @next d p l hp hd ih =>
    rw [link, hblock, map_some, some_inj, Prod.mk.injEq] at hd
    obtain ⟨hheight, rfl⟩ := hd
    have hne : d ≠ s.genesisBlock.hash := by
      intro hg
      rw [hg, getBlock_genesis hs.tree, some_inj] at hblock
      have hpos := hp.length_pos
      have hzero := hs.tree.genesis_height
      rw [hblock] at hzero
      omega
    obtain ⟨parent, hparent⟩ := Chain.exists_block hp
    obtain ⟨now, hvalid⟩ := hs.valid d block parent hblock hne hparent
    -- validation has computed the accumulator after the parent
    obtain ⟨hfee, A₀, inputs, hA₀, hev⟩ := Block.evolves_of_validate hvalid
    obtain ⟨L, hL, rfl⟩ := ih hparent hA₀
    obtain ⟨u, L', hu, hextends, rfl⟩ := exists_extends hfee hev hA
    refine ⟨L', hL.concat ?_ hextends, rfl⟩
    simp [storedUpdate, hblock, hu]

/-! ## Tips -/

/-- **One new tip.**  The set becomes that of the chain to the tip. -/
theorem updateMutatorSet_returns (hs : s.ValidTree network) (h : s.InSync l L)
    (hnew : s.getBlock newBlock.hash = some newBlock)
    (hA : newBlock.mutatorSetAccumulatorAfter.Returns A) :
    ∃ ams m L', (s.updateMutatorSet newBlock).Returns
        { s with archivalMutatorSet := ⟨ams, newBlock.hash⟩ } ∧
      InSync { s with archivalMutatorSet := ⟨ams, newBlock.hash⟩ } m L' ∧ L'.accumulator = A := by
  obtain ⟨m, hm, hlength⟩ := hs.tree.exists_chain hnew
  cases hheight : newBlock.header.height.isGenesis with
  | true =>
    obtain rfl : newBlock = s.genesisBlock := by
      refine (hs.tree.genesis_or_parent hnew).resolve_right ?_
      intro hparent
      obtain ⟨p, -, hp⟩ := hparent
      have := BlockHeight.isGenesis_iff_val.mp hheight
      omega
    obtain ⟨L', hL', hafter, hcommitments, hbits⟩ := hs.exists_genesis_ledger
    obtain ⟨ams, hreset, h'⟩ := resetMutatorSet_eq_some h hcommitments hbits
    refine ⟨ams, [s.genesisBlock.hash], L', ?_,
      ⟨hs.tree.chain_genesis, hL'.setMutatorSet _, h'⟩, hafter.unique hA⟩
    rw [updateMutatorSet, if_pos hheight, returns_orPanic]
    exact hreset
  | false =>
    obtain ⟨L', hL', rfl⟩ := hs.exists_ledger hm hnew hA
    obtain ⟨ams, hmove, h'⟩ := moveMutatorSet_eq_some h hnew hm hL' hA hheight
    refine ⟨ams, m, L', ?_, ⟨hm, hL'.setMutatorSet _, h'⟩, rfl⟩
    obtain ⟨m, -, rfl⟩ := hm.next_of_height hnew hheight
    obtain ⟨-, u, -, hupdate, -⟩ := ChainLedger.concat_iff.mp hL'
    have hu : newBlock.mutatorSetUpdate.Returns u := by
      simpa [storedUpdate, hnew] using hupdate
    have hrun : newBlock.mutatorSetUpdate.run = some (.ok u) := hu
    rw [updateMutatorSet, if_neg (by simp [hheight])]
    simp [hrun, hmove]

/-- **Any sequence of tips.**  The set stays that of the chain to its sync label. -/
theorem foldlM_updateMutatorSet (hs : s.ValidTree network) (h : s.InSync l L)
    {tips : List (Block D)} (htips : ∀ block ∈ tips, s.getBlock block.hash = some block ∧
      ∃ A, block.mutatorSetAccumulatorAfter.Returns A) :
    ∃ a m L', (tips.foldlM updateMutatorSet s).Returns { s with archivalMutatorSet := a } ∧
      InSync { s with archivalMutatorSet := a } m L' := by
  induction tips generalizing s l L with
  | nil => exact ⟨s.archivalMutatorSet, l, L, returns_pure.mpr rfl, h⟩
  | cons block tips ih =>
    obtain ⟨hblock, A, hA⟩ := htips block mem_cons_self
    obtain ⟨ams, m, L₁, hstep, h₁, -⟩ := updateMutatorSet_returns hs h hblock hA
    obtain ⟨a, m', L', hrun, h'⟩ := ih (hs.setMutatorSet _) h₁
      fun block hblock => htips block (mem_cons_of_mem _ hblock)
    refine ⟨a, m', L', ?_, h'⟩
    rw [foldlM_cons, returns_bind]
    exact ⟨_, hstep, hrun⟩

variable {label : D} {archivalBlockMmr : ArchivalMmr D} {blockIndexDb : D → Option (Block D)}
  {genesisBlock : Block D}
  (hnew : ArchivalState.new ⟨.newEmpty, label⟩ archivalBlockMmr blockIndexDb genesisBlock = some s)
include hnew

omit [MmrOps.ReportsPositions D] [Tip5.CollisionFree D] [MmrOps.CollisionFree D] in
theorem inSync_of_new (hs : s.ValidTree network) : ∃ L, s.InSync [s.genesisBlock.hash] L := by
  obtain ⟨L, hL, -, hcommitments, hbits⟩ := hs.exists_genesis_ledger
  have hchain := hs.tree.chain_genesis
  simp only [new, bind_eq_some, some_inj] at hnew
  obtain ⟨a, ha, _, -, rfl⟩ := hnew
  obtain ⟨ams, hpopulate, h⟩ := populate_eq_some (a := ⟨.newEmpty, label⟩) genesisBlock
    .newEmpty hcommitments hbits
  have hempty : (ArchivalMutatorSet.newEmpty : ArchivalMutatorSet D).aocl.isEmpty = true := rfl
  rw [initializeMutatorSet, if_pos hempty, hpopulate] at ha
  cases ha
  exact ⟨L, hchain, hL, h⟩

/-- **The mutator set follows the tip.**  From a new state, after any sequence of stored tips, the
update to a stored tip succeeds, and the accumulator is the one after the tip. -/
theorem mutatorSet_follows_tip (hs : s.ValidTree network) {tips : List (Block D)}
    (htips : ∀ block ∈ tips, s.getBlock block.hash = some block ∧
      ∃ A, block.mutatorSetAccumulatorAfter.Returns A)
    {tip : Block D} (htip : s.getBlock tip.hash = some tip) {A : MutatorSetAccumulator D}
    (hA : tip.mutatorSetAccumulatorAfter.Returns A) :
    ∃ s₁ s', (tips.foldlM updateMutatorSet s).Returns s₁ ∧
      (s₁.updateMutatorSet tip).Returns s' ∧ s'.archivalMutatorSet.ams.accumulator = some A := by
  obtain ⟨L, h⟩ := inSync_of_new hnew hs
  obtain ⟨a, m, L₁, hrun, h₁⟩ := foldlM_updateMutatorSet hs h htips
  obtain ⟨ams, m', L', hstep, h', rfl⟩ :=
    updateMutatorSet_returns (hs.setMutatorSet a) h₁ htip hA
  exact ⟨_, _, hrun, hstep, h'.reflects.accumulator_eq⟩

end

/-! ## Two valid forks over the genesis block -/

namespace Forks

def emptyChild (delay : Timestamp) : Block SymbolicDigest :=
  genesis.emptySuccessor genesis.body.mutatorSetAccumulator (.ofLeafs [genesis.hash])
    (Network.main.launchDate + Network.main.minimumBlockTime + delay)
    Network.main.genesisDifficulty

def emptyLeft : Block SymbolicDigest := emptyChild ⟨0⟩

def emptyRight : Block SymbolicDigest := emptyChild ⟨1⟩

def emptyBlockIndexDb (d : SymbolicDigest) : Option (Block SymbolicDigest) :=
  [emptyLeft, emptyRight].find? (·.hash = d)

def emptyState (ams : RustyArchivalMutatorSet SymbolicDigest) (mmr : ArchivalMmr SymbolicDigest) :
    ArchivalState SymbolicDigest := ⟨emptyBlockIndexDb, genesis, ams, mmr⟩

theorem returns_after_genesis :
    genesis.mutatorSetAccumulatorAfter.Returns genesis.body.mutatorSetAccumulator :=
  Fallible.unwrap_eq_some_iff.mp (by decide +kernel)

theorem exists_after : ∀ B ∈ [emptyLeft, emptyRight], ∃ A, B.mutatorSetAccumulatorAfter.Returns A ∧
      A.hash ≠ genesis.body.mutatorSetAccumulator.hash := by
  decide +kernel

variable (ams : RustyArchivalMutatorSet SymbolicDigest) (mmr : ArchivalMmr SymbolicDigest)

theorem nodup_hash : ([genesis, emptyLeft, emptyRight].map Block.hash).Nodup := by decide +kernel

theorem getBlock_emptyLeft : (emptyState ams mmr).getBlock emptyLeft.hash = some emptyLeft :=
  getBlock_of_mem rfl nodup_hash (by simp)

theorem getBlock_emptyRight : (emptyState ams mmr).getBlock emptyRight.hash = some emptyRight :=
  getBlock_of_mem rfl nodup_hash (by simp)

theorem validTree : let _ := MmrNodeIndexing.reference
    (emptyState ams mmr).ValidTree .main := by
  let _ := MmrNodeIndexing.reference
  have hparents : ∀ block ∈ [emptyLeft, emptyRight], block.header.prevBlockDigest = genesis.hash ∧
      block.header.height.value.val = genesis.header.height.value.val + 1 ∧
      (block.validate genesis block.header.timestamp .main).unwrap = some () := by
    decide +kernel
  refine validTree_of_stored rfl nodup_hash (by rw [emptyState, genesis, some_get])
    (show genesis.header.height.value.val = 0 by decide +kernel) fun block hblock => ?_
  obtain ⟨hprev, hnext, hvalid⟩ := hparents block hblock
  exact ⟨genesis, mem_cons_self, hprev, hnext, _, unwrap_eq_some_iff.mp hvalid⟩

end Forks

open Forks

/-- The tip moves from one branch to the other. -/
theorem mutatorSet_follows_tip_forks : ∃ (_ : MmrNodeIndexing) (s : ArchivalState SymbolicDigest)
      (A : MutatorSetAccumulator SymbolicDigest),
      s.ValidTree .main ∧ s.getBlock Forks.emptyLeft.hash = some Forks.emptyLeft ∧
      s.getBlock Forks.emptyRight.hash = some Forks.emptyRight ∧
      Forks.emptyRight.mutatorSetAccumulatorAfter.Returns A ∧
      ∃ s₁ s', ([Forks.emptyLeft].foldlM updateMutatorSet s).Returns s₁ ∧
        (s₁.updateMutatorSet Forks.emptyRight).Returns s' ∧
        s'.archivalMutatorSet.ams.accumulator = some A := by
  let _ := MmrNodeIndexing.reference
  obtain ⟨ams, mmr, hnew⟩ := exists_new emptyBlockIndexDb
  obtain ⟨A₁, hleft, -⟩ := exists_after emptyLeft (by simp)
  obtain ⟨A, hright, -⟩ := exists_after emptyRight (by simp)
  refine ⟨.reference, emptyState ams mmr, A, validTree ams mmr,
    getBlock_emptyLeft ams mmr, getBlock_emptyRight ams mmr, hright, ?_⟩
  exact mutatorSet_follows_tip hnew (validTree ams mmr)
    (forall_mem_singleton.mpr ⟨getBlock_emptyLeft ams mmr, A₁, hleft⟩) (getBlock_emptyRight ams mmr)
    hright

end ArchivalState

end NyksNode
