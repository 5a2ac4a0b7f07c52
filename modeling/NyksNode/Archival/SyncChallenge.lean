import NyksNode.Archival.Branches
import NyksNode.Archival.SmallerMmr
import NyksNode.Peer.Challenge

/-!
# Answering sync challenges

A challenge names a tip by its digest and ten heights below it.  The blocks at these heights, and
the paths that prove them to be ancestors of the tip, are read from the block range of the
canonical chain; whether the tip is on that chain is not checked.

So the answer is right if the trees of the block range that the asked blocks are in lie on both
chains, and wrong otherwise.  If the tip is higher than the canonical tip, the paths are asked
for relative to a range that is longer than the block range, which panics.
-/

namespace NyksNode

open List Option Merkle TransferBlock BlockHeight Chain Fallible

variable {D : Type}

namespace ArchivalState
variable [Tip5 D] [DecidableEq D] [ConsensusOps D] [MmrNodeIndexing]

/-- `fetch_block_pair`, a local function of `response_to_sync_challenge`: the parent and the block,
if the block is known and high enough. -/
def fetchBlockPair (s : ArchivalState D) (childDigest : D) : Option (Option (Block D × Block D)) :=
  match s.getBlock childDigest with
  | none => some none
  | some child =>
    if child.header.height < ⟨2⟩ then some none
    else (s.getBlock child.header.prevBlockDigest).map fun parent => some (parent, child)

def fetchBlockPairOr (s : ArchivalState D) (childDigest : D) (message : String) :
    Fallible String (Block D × Block D) := do
  match ← orPanic (s.fetchBlockPair childDigest) with
  | none => throw message
  | some pair => pure pair

def blockMmrLeafOr (s : ArchivalState D) (height : BlockHeight) (message : String) :
    Fallible String D := do
  match ← orPanic (s.archivalBlockMmr.tryGetLeaf height.value.val) with
  | none => throw message
  | some leaf => pure leaf

/-- `try_into` a block in transfer, and `expect`. -/
def transferable (block : Block D) : Option (TransferBlock D) :=
  match TransferBlock.ofBlock block with
  | .ok t => some t
  | .error _ => none

/-- One round of the loop over the challenges. -/
def answerChallenge (s : ArchivalState D) (tipHeight childHeight : BlockHeight) :
    Fallible String ((TransferBlock D × TransferBlock D) × MmrMembershipProof D) := do
  ensure (¬ childHeight < ⟨2⟩) "challenge asks for genesis block"
  ensure (childHeight < tipHeight) "challenge asks for height that's not ancestor to tip."
  let childDigest ← s.blockMmrLeafOr childHeight "could not get leaf from archival block mmr"
  let (p, c) ← s.fetchBlockPairOr childDigest "could not fetch indicated block pair"
  let mp ← orPanic (s.archivalBlockMmr.proveMembershipRelativeToSmallerMmr childHeight.value.val
    tipHeight.next.value.val)
  let p ← orPanic (transferable p)
  let c ← orPanic (transferable c)
  pure ((p, c), mp)

def blockHeaderWithHashWitness (s : ArchivalState D) (blockDigest : D) :
    Option (BlockHeaderWithBlockHashWitness D) :=
  (s.blockIndexDb blockDigest).map fun block => ⟨block.header, .ofBlock block⟩

/-- The loop over the headers below the tip. -/
def powWitnessLoop (s : ArchivalState D) : ℕ → D → Option (List (BlockHeaderWithBlockHashWitness D))
  | 0, _ => some []
  | n + 1, blockHash => do
    let powWitness ← s.blockHeaderWithHashWitness blockHash
    let powWitnesses ← s.powWitnessLoop n powWitness.header.prevBlockDigest
    some (powWitness :: powWitnesses)

def tooSmallForSyncMode (tipHeight : BlockHeight) : String :=
  s!"tip height {tipHeight.value.val} is too small for sync mode"

def responseToSyncChallenge (s : ArchivalState D) (syncChallenge : SyncChallenge D) :
    Fallible String (SyncChallengeResponse D) := do
  let (tipParent, tip) ← s.fetchBlockPairOr syncChallenge.tipDigest
    "could not fetch tip and tip predecessor"
  let tipHeight := tip.header.height
  ensure (¬ tipHeight < ⟨.new syncChallengePowWitnessLength⟩) (tooSmallForSyncMode tipHeight)
  let answers ← syncChallenge.challenges.toList.mapM (s.answerChallenge tipHeight)
  let powWitnesses ← orPanic (s.powWitnessLoop syncChallengePowWitnessLength tip.hash)
  let tip ← orPanic (transferable tip)
  let tipParent ← orPanic (transferable tipParent)
  let blocks ← orPanic (tryIntoArray _ (answers.map (·.1)))
  let membershipProofs ← orPanic (tryIntoArray _ (answers.map (·.2)))
  let powWitnesses ← orPanic (tryIntoArray _ powWitnesses)
  pure ⟨blocks, membershipProofs, tipParent, tip, powWitnesses⟩

/-! ## Reading along a chain -/

section
variable {s : ArchivalState D} {a : D} {l m : List D}

section
omit [MmrNodeIndexing]

theorem Chain.exists_pair (hl : s.Chain a l) {k : ℕ} {y : D} (hy : l[k + 1]? = some y) :
    ∃ x P C, l[k]? = some x ∧ s.getBlock x = some P ∧ s.getBlock y = some C ∧
      C.header.prevBlockDigest = x ∧ C.header.height.value.val = k + 1 := by
  have hlt := (List.getElem?_eq_some_iff.mp hy).1
  have hx : l[k]? = some l[k] := List.getElem?_eq_getElem (by omega)
  obtain ⟨P, hP⟩ := exists_block (hl.take hx)
  obtain ⟨C, hC⟩ := exists_block (hl.take hy)
  have hlink := hl.link_eq hx hy
  rw [link, hC, Option.map_some, Option.some_inj, Prod.mk.injEq] at hlink
  exact ⟨l[k], P, C, hx, hP, hC, hlink.2, hlink.1⟩

/-- A block of a chain that is not the genesis block has a record. -/
theorem Chain.exists_record (hs : s.BlockTree) (hl : s.Chain a l) (hlen : 1 < l.length) :
    ∃ B, s.blockIndexDb a = some B ∧ s.getBlock a = some B := by
  obtain ⟨B, hB⟩ := hl.exists_block
  cases hdb : s.blockIndexDb a with
  | some B' => exact ⟨B', rfl, by simp [getBlock, hdb]⟩
  | none =>
    have hgenesis : s.genesisBlock.hash = a := by
      by_contra hne
      simp [getBlock, hdb, hne] at hB
    have hsingle := hl.unique (hgenesis ▸ hs.chain_genesis)
    rw [hsingle] at hlen
    simp at hlen

theorem Chain.powWitnessLoop_eq_some (hs : s.BlockTree) (hl : s.Chain a l) {n : ℕ}
    (hn : n < l.length) : ∃ ws, s.powWitnessLoop n a = some ws ∧ ws.length = n := by
  induction n generalizing a l with
  | zero => exact ⟨[], rfl, rfl⟩
  | succ n ih =>
    obtain ⟨B, hdb, hB⟩ := hl.exists_record hs (by omega)
    cases hl.root_or_next with
    | inl hroot =>
      rw [hroot.2] at hn
      simp at hn
    | inr hnext =>
      obtain ⟨p, m, hp, hlink, rfl⟩ := hnext
      rw [link, hB, map_some, some_inj, Prod.mk.injEq] at hlink
      rw [length_append, length_singleton] at hn
      obtain ⟨ws, hws, hlength⟩ := ih hp (by omega)
      refine ⟨⟨B.header, .ofBlock B⟩ :: ws, ?_, by rw [length_cons, hlength]⟩
      simp [powWitnessLoop, blockHeaderWithHashWitness, hdb, hlink.2, hws]

theorem Chain.fetchBlockPair_eq (hl : s.Chain a l) {k : ℕ} (hk : l[k + 1]? = some a)
    (hpos : 0 < k) : ∃ x P C, l[k]? = some x ∧ s.getBlock x = some P ∧ s.getBlock a = some C ∧
      C.header.height.value.val = k + 1 ∧ s.fetchBlockPair a = some (some (P, C)) := by
  obtain ⟨x, P, C, hx, hP, hC, hprev, hheight⟩ := hl.exists_pair hk
  refine ⟨x, P, C, hx, hP, hC, hheight, ?_⟩
  have hnot : ¬ C.header.height < ⟨2⟩ := by
    rw [lt_iff_val, hheight]
    exact not_lt.mpr (show 2 ≤ k + 1 by omega)
  simp [fetchBlockPair, hC, hnot, hprev, hP]

end

end

section
variable [Inhabited D] [MmrOps D] [LawfulMmr D] [DigestOps D]
variable {s : ArchivalState D} {network : Network} {d : D} {l m : List D} {B : Block D}

omit [Inhabited D] [LawfulMmr D] in
/-- A stored block that is not the genesis block was validated on top of a stored block. -/
theorem ValidTree.exists_validate (hs : s.ValidTree network) (hl : s.Chain d (m ++ [d]))
    (hm : m ≠ []) (hB : s.getBlock d = some B) :
    ∃ p P now, s.Chain p m ∧ s.getBlock p = some P ∧ B.header.height.value.val = m.length ∧
      (B.validate P now network).Returns () := by
  cases hl.root_or_next with
  | inl hroot =>
    have hlength := congrArg length hroot.2
    rw [length_append, length_singleton, length_singleton] at hlength
    exact absurd (length_eq_zero_iff.mp (by omega)) hm
  | inr hnext =>
    obtain ⟨p, m', hp, hlink, hsplit⟩ := hnext
    obtain rfl : m = m' := append_cancel_right hsplit
    rw [link, hB, map_some, some_inj, Prod.mk.injEq] at hlink
    have hne : d ≠ s.genesisBlock.hash := by
      intro hg
      rw [hg, getBlock_genesis hs.tree, some_inj] at hB
      have hzero := hs.tree.genesis_height
      rw [hB, hlink.1] at hzero
      exact hp.length_pos.ne' hzero
    obtain ⟨P, hP⟩ := Chain.exists_block hp
    obtain ⟨now, hvalid⟩ := hs.valid d B P hB hne (by rw [hlink.2, hP])
    exact ⟨p, P, now, hp, hP, hlink.1, hvalid⟩

/-- **The block range of a stored block** has its ancestors. -/
theorem ValidTree.blockMmr_eq (hs : s.ValidTree network) (hl : s.Chain d l)
    (hB : s.getBlock d = some B) : B.body.blockMmrAccumulator = .ofLeafs l.dropLast := by
  induction hl generalizing B with
  | root =>
    rw [getBlock_genesis hs.tree, some_inj] at hB
    have hgenesis := hs.genesis
    simp only [Block.genesis, bind_eq_some, some_inj] at hgenesis
    obtain ⟨_, -, hgenesis⟩ := hgenesis
    rw [← hB, ← hgenesis, dropLast_singleton, MmrAccumulator.ofLeafs_nil]
    rfl
  | @next d p m hp hlink ih =>
    have hm : m ≠ [] := ne_nil_of_length_pos hp.length_pos
    obtain ⟨p', P, now, hp', hP, hheight, hvalid⟩ := hs.exists_validate (.next hp hlink) hm hB
    obtain rfl : p = p' := some_inj.mp (hp.getLast?_eq.symm.trans hp'.getLast?_eq)
    have hfits := Block.headerFits_of_validate hvalid
    obtain ⟨path, happend⟩ := hfits.blockMmr_eq
    obtain ⟨before, rfl⟩ := getLast?_eq_some_iff.mp hp.getLast?_eq
    have hlt : before.length + 1 < u64Bound := by
      rw [length_append, length_singleton] at hheight
      rw [← hheight]
      exact B.header.height.value.isLt.trans (by decide)
    rw [ih hP, hs.tree.hash_of_getBlock hP, dropLast_concat,
      LawfulMmr.append_ofLeafs before p hlt, some_inj, Prod.mk.injEq] at happend
    rw [← happend.1, dropLast_concat]

omit [Inhabited D] [LawfulMmr D] in
/-- Stored blocks other than the genesis block can be transferred. -/
theorem ValidTree.exists_transferable (hs : s.ValidTree network) (hl : s.Chain d l)
    (hlen : 1 < l.length) (hB : s.getBlock d = some B) :
    ∃ t, transferable B = some t ∧ ofBlock B = .ok t := by
  obtain ⟨m, rfl⟩ := getLast?_eq_some_iff.mp hl.getLast?_eq
  rw [length_append, length_singleton] at hlen
  obtain ⟨p, P, now, -, -, -, hvalid⟩ :=
    hs.exists_validate hl (ne_nil_of_length_pos (by omega)) hB
  simp only [Block.validate, returns_bind, returns_liftExcept] at hvalid
  obtain ⟨_, -, _, hproof, -⟩ := hvalid
  cases hkind : B.proof with
  | singleProof proof =>
    refine ⟨⟨B.kernel.header, B.kernel.body, B.kernel.appendix, proof⟩, ?_, ?_⟩
    · simp [transferable, ofBlock, hkind]
    · simp [ofBlock, hkind]
  | genesis =>
    rw [Block.validateBlockProof, hkind] at hproof
    split_ifs at hproof
  | invalid =>
    rw [Block.validateBlockProof, hkind] at hproof
    split_ifs at hproof

end

/-! ## One challenge -/

/-- The heights that can be asked for: above the first block, and below the tip of a chain. -/
def InRange (m : List D) (h : BlockHeight) : Prop := 2 ≤ h.value.val ∧ h.value.val + 1 < m.length

instance (m : List D) (h : BlockHeight) : Decidable (InRange m h) :=
  inferInstanceAs (Decidable (_ ∧ _))

/-- What the answer to a challenge consists of: the blocks of the canonical chain, and the path in
the range over its first blocks. -/
def AnsweredFrom [Inhabited D] (s : ArchivalState D) (canonical : List D) (numLeafs : ℕ)
    (h : BlockHeight) (x : (TransferBlock D × TransferBlock D) × MmrMembershipProof D) : Prop :=
  ∃ k y z P C, h.value.val = k + 1 ∧ canonical[k]? = some y ∧ canonical[k + 1]? = some z ∧
    s.getBlock y = some P ∧ s.getBlock z = some C ∧ C.header.height.value.val = k + 1 ∧
    TransferBlock.ofBlock P = .ok x.1.1 ∧ TransferBlock.ofBlock C = .ok x.1.2 ∧
    x.2 = membershipProof (canonical.take numLeafs) (k + 1)

section
variable [Inhabited D] [MmrOps D] [LawfulMmr D] [DigestOps D]
variable {s : ArchivalState D} {network : Network} {a : D} {l m : List D}
  {tipHeight h : BlockHeight}

omit [MmrOps D] [LawfulMmr D] [DigestOps D] in
theorem answerChallenge_reports (hmmr : s.archivalBlockMmr.Holds l)
    (htip : tipHeight.value.val + 1 = m.length) (hrange : ¬ InRange m h ∨ l.length ≤ h.value.val) :
    (s.answerChallenge tipHeight h).Reports := by
  by_cases hlow : h < ⟨2⟩
  · exact (reports_ensure (by simpa using hlow)).bind
  refine Returns.bind_reports (a := ()) (returns_ensure.mpr (by simpa using hlow)) ?_
  by_cases hhigh : h < tipHeight
  · refine Returns.bind_reports (a := ()) (returns_ensure.mpr (by simpa using hhigh)) ?_
    have hout : l.length ≤ h.value.val := by
      refine hrange.resolve_left (not_not.mpr ⟨?_, ?_⟩)
      · rw [lt_iff_val] at hlow
        exact not_lt.mp hlow
      · rw [lt_iff_val] at hhigh
        omega
    have hleaf := hmmr.tryGetLeaf_eq h.value.val
    rw [getElem?_eq_none hout] at hleaf
    refine Reports.bind ?_
    rw [blockMmrLeafOr, hleaf]
    exact Returns.bind_reports (a := none) (returns_orPanic.mpr rfl) (reports_throw _)
  · exact (reports_ensure (by simpa using hhigh)).bind

omit [LawfulMmr D] in
/-- A height in range is answered from the canonical chain, unless the tip is higher than it. -/
theorem answerChallenge_run (hs : s.ValidTree network) (hl : s.Chain a l)
    (hmmr : s.archivalBlockMmr.Holds l) (hlen : s.archivalBlockMmr.digests.length < u64Bound)
    (htip : tipHeight.value.val + 1 = m.length) (hrange : InRange m h)
    (hknown : h.value.val < l.length) :
    (l.length < m.length → (s.answerChallenge tipHeight h).Panics) ∧
      (m.length ≤ l.length → ∃ x, (s.answerChallenge tipHeight h).Returns x ∧
        s.AnsweredFrom l m.length h x) := by
  obtain ⟨k, hk⟩ : ∃ k, h.value.val = k + 1 := ⟨h.value.val - 1, by have := hrange.1; omega⟩
  have hz : l[k + 1]? = some l[k + 1] := getElem?_eq_getElem (hk ▸ hknown)
  obtain ⟨y, P, C, hy, hP, hC, hheight, hfetch⟩ := Chain.fetchBlockPair_eq (hl.take hz)
    (k := k) (by rw [getElem?_take_of_lt (by omega), hz]) (by have := hrange.1; omega)
  rw [getElem?_take_of_lt (by omega)] at hy
  have hlow : decide (¬ h < ⟨2⟩) = true := by
    have := hrange.1
    rw [decide_eq_true_eq, lt_iff_val]
    exact not_lt.mpr this
  have hhigh : decide (h < tipHeight) = true := by
    have := hrange.2
    rw [decide_eq_true_eq, lt_iff_val]
    omega
  have hleaf : (s.blockMmrLeafOr h "could not get leaf from archival block mmr").Returns
      l[k + 1] := by
    have hget : s.archivalBlockMmr.tryGetLeaf h.value.val = some (some l[k + 1]) := by
      rw [hmmr.tryGetLeaf_eq, hk, hz]
    rw [blockMmrLeafOr, returns_bind]
    exact ⟨_, returns_orPanic.mpr hget, returns_pure.mpr rfl⟩
  have hpair : (s.fetchBlockPairOr l[k + 1] "could not fetch indicated block pair").Returns
      (P, C) := by
    rw [fetchBlockPairOr, returns_bind]
    exact ⟨_, returns_orPanic.mpr hfetch, returns_pure.mpr rfl⟩
  constructor
  · intro hlonger
    refine Returns.bind_panics (a := ()) (returns_ensure.mpr hlow) ?_
    refine Returns.bind_panics (a := ()) (returns_ensure.mpr hhigh) ?_
    refine hleaf.bind_panics (hpair.bind_panics (Panics.bind (panics_orPanic ?_)))
    refine hmmr.proveMembershipRelativeToSmallerMmr_eq_none ?_
    cases tipHeight.val_next_eq_or with
    | inl hnext =>
      rw [hnext, htip]
      exact Or.inl hlonger
    | inr hzero =>
      rw [hzero]
      exact Or.inr (Nat.zero_le _)
  · intro hle
    have hnext : tipHeight.next.value.val = m.length := by
      rw [hmmr.length_eq] at hlen
      have hsmall := nodeCount_add_one_lt_iff.mp hlen
      rw [val_next_of_lt, htip]
      rw [htip]
      exact (hle.trans_lt hsmall).trans (by decide)
    have hproof : s.archivalBlockMmr.proveMembershipRelativeToSmallerMmr h.value.val
        tipHeight.next.value.val = some (membershipProof (l.take m.length) (k + 1)) := by
      rw [hnext, hk]
      have := hrange.2
      exact hmmr.proveMembershipRelativeToSmallerMmr_eq hlen (by omega) hle
    have hchain : s.Chain y (l.take (k + 1)) := hl.take hy
    obtain ⟨p, hp, hp'⟩ := hs.exists_transferable hchain (by
      have := hrange.1
      rw [length_take]
      omega) hP
    obtain ⟨c, hc, hc'⟩ := hs.exists_transferable (hl.take hz) (by
      rw [length_take]
      omega) hC
    refine ⟨((p, c), membershipProof (l.take m.length) (k + 1)), ?_,
      k, y, l[k + 1], P, C, hk, hy, hz, hP, hC, hheight, hp', hc', rfl⟩
    simp only [answerChallenge, returns_bind, returns_ensure, returns_orPanic, returns_pure]
    exact ⟨(), hlow, (), hhigh, _, hleaf, _, hpair, _, hproof, _, hp, _, hc, rfl⟩

end

/-! ## All challenges -/

/-- A pair of neighbours on a chain. -/
def AncestorPair (s : ArchivalState D) (m : List D) (pair : TransferBlock D × TransferBlock D) :
    Prop :=
  ∃ k P C, m[k]?.bind s.getBlock = some P ∧ m[k + 1]?.bind s.getBlock = some C ∧
    TransferBlock.ofBlock P = .ok pair.1 ∧ TransferBlock.ofBlock C = .ok pair.2

/-- The proof verifies for the child's height, against the block range of the tip with the digest
of the tip appended. -/
def ProvesAncestor [MmrOps D] (tip : Block D) (child : TransferBlock D)
    (proof : MmrMembershipProof D) : Prop :=
  ∃ block anchor path, child.toBlock = .ok block ∧
    MmrOps.append tip.body.blockMmrAccumulator tip.hash = some (anchor, path) ∧
    MmrOps.verify proof child.header.height.value.val block.hash anchor.peaks anchor.numLeafs = true

/-- The challenge is answered without a panic; and if it is not refused, all pairs are ancestors of
the tip and all proofs prove it. -/
def AnswersHonestly [MmrOps D] (s : ArchivalState D) (c : SyncChallenge D) : Prop :=
  ¬ (s.responseToSyncChallenge c).Panics ∧ ∀ r, (s.responseToSyncChallenge c).Returns r →
    ∃ tip m, s.getBlock c.tipDigest = some tip ∧ s.Chain c.tipDigest m ∧
      ∀ x ∈ r.blocks.toList.zip r.membershipProofs.toList,
        s.AncestorPair m x.1 ∧ ProvesAncestor tip x.1.2 x.2

/-- A challenge that the canonical chain can answer.  If the chain to the tip is not the longer one
and all heights are in range, then the trees that the asked blocks are in end where both chains
agree.  If the chain to the tip is longer, then the first height is out of range or not known. -/
def Answerable (canonical m : List D) (c : SyncChallenge D) : Prop :=
  (m.length ≤ canonical.length → (∀ h ∈ c.challenges.toList, InRange m h) →
    ∀ h ∈ c.challenges.toList, canonical[Merkle.lastOfTree h.value.val m.length]? =
      m[Merkle.lastOfTree h.value.val m.length]?) ∧
  (canonical.length < m.length → ∀ h ∈ c.challenges.toList.head?,
    ¬ (InRange m h ∧ h.value.val < canonical.length))

section
variable [Inhabited D] [MmrOps D] [LawfulMmr D] [DigestOps D] [Tip5.CollisionFree D]
variable {s : ArchivalState D} {network : Network} {a : D} {l m : List D} {c : SyncChallenge D}
  {tip : Block D}

omit [MmrNodeIndexing] [MmrOps D] [LawfulMmr D] [DigestOps D] in
/-- Both chains agree on the tree of a block exactly if they agree at its end. -/
theorem Chain.agree_iff (hl : s.Chain a l) {b : D} (hm : s.Chain b m) (hle : m.length ≤ l.length)
    {i : ℕ} (hi : i < m.length) :
    (m[i]? = l[i]? ∧ membershipProof (l.take m.length) i = membershipProof m i) ↔
      l[lastOfTree i m.length]? = m[lastOfTree i m.length]? := by
  have hlength : (l.take m.length).length = m.length := by
    rw [length_take, Nat.min_eq_left hle]
  -- the rows agree where the lists do
  have hrow : ∀ j < m.length, row (l.take m.length) j = row m j ↔ m[j]? = l[j]? := by
    intro j hj
    have hj' : j < (l.take m.length).length := by rwa [hlength]
    rw [row_eq_getElem hj', row_eq_getElem hj, getElem_take,
      getElem?_eq_getElem hj, getElem?_eq_getElem (hj.trans_le hle), some_inj, eq_comm]
  have htree := authPath_eq_iff Tip5.CollisionFree.hashPair_injective (D := D)
    (f := row (l.take m.length)) (g := row m) (n := m.length) (i := i)
  rw [hrow i hi] at htree
  have hlast := lastOfTree_lt hi
  rw [membershipProof, hlength, membershipProof, htree]
  constructor
  · intro hagree
    refine ((hrow _ hlast).mp (hagree _ ?_ ?_)).symm
    · exact (Nat.div_mul_le_self _ _).trans (le_lastOfTree i _)
    · exact Nat.sub_lt (by positivity) Nat.one_pos
  · intro hend j _ hj
    have hget : l[lastOfTree i m.length]? = some m[lastOfTree i m.length] := by
      rw [hend, getElem?_eq_getElem hlast]
    have htake := hl.take_eq_of_meet hm hget (getElem?_eq_getElem hlast)
    have hjlast : j < lastOfTree i m.length + 1 := by
      rw [lastOfTree]
      omega
    refine (hrow j (by omega)).mpr ?_
    rw [← getElem?_take_of_lt hjlast, ← htake, getElem?_take_of_lt hjlast]

omit [Tip5.CollisionFree D] [Inhabited D] [LawfulMmr D] in
/-- The challenges decide, once the tip is known to be high enough. -/
theorem response_of_tip (hs : s.ValidTree network) (hm : s.Chain c.tipDigest m)
    (hlong : syncChallengePowWitnessLength < m.length) :
    ∃ tip, s.getBlock c.tipDigest = some tip ∧ tip.header.height.value.val + 1 = m.length ∧
      ((c.challenges.toList.mapM (s.answerChallenge tip.header.height)).Panics →
        (s.responseToSyncChallenge c).Panics) ∧
      ((c.challenges.toList.mapM (s.answerChallenge tip.header.height)).Reports →
        (s.responseToSyncChallenge c).Reports) ∧
      ∀ answers, (c.challenges.toList.mapM (s.answerChallenge tip.header.height)).Returns answers →
        answers.length = syncChallengeNumBlockPairs →
        ∃ r, (s.responseToSyncChallenge c).Returns r ∧ r.blocks.toList = answers.map (·.1) ∧
          r.membershipProofs.toList = answers.map (·.2) := by
  obtain ⟨k, hk⟩ : ∃ k, m.length = k + 2 := ⟨m.length - 2, by
    have : syncChallengePowWitnessLength = 10 := rfl
    omega⟩
  have hlast : m[k + 1]? = some c.tipDigest := by
    rw [← hm.getLast?_eq, getLast?_eq_getElem?, hk]
    rfl
  have hpos : 0 < k := by
    have : syncChallengePowWitnessLength = 10 := rfl
    omega
  obtain ⟨x, P, T, hx, hP, hT, hheight, hfetch⟩ := Chain.fetchBlockPair_eq hm hlast hpos
  have hpair : (s.fetchBlockPairOr c.tipDigest "could not fetch tip and tip predecessor").Returns
      (P, T) := by
    rw [fetchBlockPairOr, returns_bind]
    exact ⟨_, returns_orPanic.mpr hfetch, returns_pure.mpr rfl⟩
  have henough : (ensure (¬ T.header.height < ⟨.new syncChallengePowWitnessLength⟩)
      (tooSmallForSyncMode T.header.height)).Returns () := by
    rw [returns_ensure, decide_eq_true_eq, lt_iff_val, hheight]
    exact not_lt.mpr (show 10 ≤ k + 1 by
      have : syncChallengePowWitnessLength = 10 := rfl
      omega)
  refine ⟨T, hT, by omega, ?_, ?_, ?_⟩
  · intro hpanics
    exact hpair.bind_panics (henough.bind_panics hpanics.bind)
  · intro hreports
    exact hpair.bind_reports (henough.bind_reports hreports.bind)
  · intro answers hanswers hlength
    obtain ⟨ws, hws, hwlength⟩ := Chain.powWitnessLoop_eq_some hs.tree hm hlong
    obtain ⟨t, ht, -⟩ := hs.exists_transferable hm (by omega) hT
    obtain ⟨p, hp, -⟩ := hs.exists_transferable (hm.take hx) (by
      rw [length_take]
      omega) hP
    have hblocks : (answers.map (·.1)).length = syncChallengeNumBlockPairs := by
      rw [length_map, hlength]
    have hproofs : (answers.map (·.2)).length = syncChallengeNumBlockPairs := by
      rw [length_map, hlength]
    rw [← hs.tree.hash_of_getBlock hT] at hws
    refine ⟨⟨⟨(answers.map (·.1)).toArray, by simpa using hblocks⟩,
      ⟨(answers.map (·.2)).toArray, by simpa using hproofs⟩, p, t,
      ⟨ws.toArray, by simpa using hwlength⟩⟩, ?_, rfl, rfl⟩
    simp only [responseToSyncChallenge, returns_bind, returns_orPanic, returns_pure]
    exact ⟨(P, T), hpair, (), henough, answers, hanswers, ws, hws, t, ht, p, hp, _,
      dif_pos hblocks, _, dif_pos hproofs, _, dif_pos hwlength, rfl⟩

section
variable (hl : s.Chain a l) (hle : m.length ≤ l.length) {h : BlockHeight} (hrange : InRange m h)
  {x : (TransferBlock D × TransferBlock D) × MmrMembershipProof D}
  (hx : s.AnsweredFrom l m.length h x)
include hl hle hrange hx

/-- A proof from the canonical chain is right exactly if both chains agree on the tree of the
block. -/
theorem AnsweredFrom.provesAncestor_iff (hs : s.ValidTree network) (hm : s.Chain c.tipDigest m)
    (hbound : m.length < u64Bound) {tip : Block D} (htip : s.getBlock c.tipDigest = some tip) :
    ProvesAncestor tip x.1.2 x.2 ↔ l[lastOfTree h.value.val m.length]? =
      m[lastOfTree h.value.val m.length]? := by
  obtain ⟨k, y, z, P, C, hk, hy, hz, hP, hC, hheight, hp, hc, hproof⟩ := hx
  have hgenesis : C.header.height ≠ .genesis := by
    intro hzero
    rw [hzero] at hheight
    exact absurd hheight (Nat.succ_ne_zero k).symm
  have hblock := toBlock_of_ofBlock hc hgenesis
  have happend : ∃ path, MmrOps.append tip.body.blockMmrAccumulator tip.hash =
      some (.ofLeafs m, path) := by
    obtain ⟨before, rfl⟩ := getLast?_eq_some_iff.mp hm.getLast?_eq
    rw [hs.blockMmr_eq hm htip, hs.tree.hash_of_getBlock htip, dropLast_concat]
    rw [length_append, length_singleton] at hbound
    exact ⟨_, LawfulMmr.append_ofLeafs before _ hbound⟩
  rw [← Chain.agree_iff hl hm hle (Nat.lt_of_succ_lt hrange.2), hk, hz, ← hproof]
  constructor
  · intro hproves
    obtain ⟨block, anchor, path, hto, hanchor, hverify⟩ := hproves
    obtain ⟨path', hmmr⟩ := happend
    rw [hmmr, some_inj, Prod.mk.injEq] at hanchor
    rw [hblock, Except.ok.injEq] at hto
    rw [← hanchor.1, ← hto, hs.tree.hash_of_getBlock hC, header_of_ofBlock hc,
      hheight, verify_ofLeafs_iff] at hverify
    exact hverify
  · intro hagree
    obtain ⟨path, hmmr⟩ := happend
    refine ⟨C, .ofLeafs m, path, hblock, hmmr, ?_⟩
    rw [hs.tree.hash_of_getBlock hC, header_of_ofBlock hc, hheight, verify_ofLeafs_iff]
    exact hagree

omit [MmrNodeIndexing] [MmrOps D] [LawfulMmr D] [DigestOps D] in
/-- If both chains agree on the tree of a block, then the pair is on both of them. -/
theorem AnsweredFrom.ancestorPair {b : D} (hm : s.Chain b m)
    (hagree : l[lastOfTree h.value.val m.length]? =
      m[lastOfTree h.value.val m.length]?) : s.AncestorPair m x.1 := by
  obtain ⟨k, y, z, P, C, hk, hy, hz, hP, hC, -, hp, hc, -⟩ := hx
  have hz' := ((Chain.agree_iff hl hm hle (Nat.lt_of_succ_lt hrange.2)).mpr hagree).1
  rw [hk, hz] at hz'
  have htake := hl.take_eq_of_meet hm hz hz'
  have hy' : m[k]? = some y := by
    have hlt : k < k + 1 + 1 := by omega
    rw [← getElem?_take_of_lt hlt, ← htake, getElem?_take_of_lt hlt, hy]
  refine ⟨k, P, C, ?_, ?_, hp, hc⟩
  · rw [hy', bind_some, hP]
  · rw [hz', bind_some, hC]

end

omit [Inhabited D] [LawfulMmr D] [Tip5.CollisionFree D] in
theorem response_reports_of_low (hs : s.ValidTree network)
    (hlow : ∀ m, s.Chain c.tipDigest m → ¬ syncChallengePowWitnessLength < m.length) :
    (s.responseToSyncChallenge c).Reports := by
  have hnone : s.fetchBlockPair c.tipDigest = some none →
      (s.responseToSyncChallenge c).Reports := by
    intro hfetch
    refine Reports.bind ?_
    rw [fetchBlockPairOr, hfetch]
    exact Returns.bind_reports (a := none) (returns_orPanic.mpr rfl) (reports_throw _)
  cases htip : s.getBlock c.tipDigest with
  | none => exact hnone (by rw [fetchBlockPair, htip])
  | some tip =>
    by_cases hsmall : tip.header.height < ⟨2⟩
    · exact hnone (by simp [fetchBlockPair, htip, hsmall])
    obtain ⟨m, hm, hlength⟩ := hs.tree.exists_chain htip
    have hshort : tip.header.height.value.val < syncChallengePowWitnessLength := by
      have := hlow m hm
      omega
    have hlarge : 2 ≤ tip.header.height.value.val := by
      rw [lt_iff_val] at hsmall
      exact not_lt.mp hsmall
    have hlast : m[tip.header.height.value.val - 1 + 1]? = some c.tipDigest := by
      rw [← hm.getLast?_eq, getLast?_eq_getElem?, hlength]
      congr 1
      omega
    obtain ⟨x, P, T, -, -, hT, -, hfetch⟩ := Chain.fetchBlockPair_eq hm hlast (by omega)
    rw [htip] at hT
    cases hT
    have hpair : (s.fetchBlockPairOr c.tipDigest "could not fetch tip and tip predecessor").Returns
        (P, tip) := by
      rw [fetchBlockPairOr, returns_bind]
      exact ⟨_, returns_orPanic.mpr hfetch, returns_pure.mpr rfl⟩
    refine hpair.bind_reports (Reports.bind (reports_ensure ?_))
    rw [decide_eq_false_iff_not, not_not, lt_iff_val]
    exact hshort

omit [Inhabited D] [LawfulMmr D] [DigestOps D] [Tip5.CollisionFree D] in
theorem answersHonestly_of_reports (hreports : (s.responseToSyncChallenge c).Reports) :
    s.AnswersHonestly c :=
  ⟨hreports.not_panics, fun _ hr => absurd hreports hr.not_reports⟩

/-- A challenge whose answers come from the canonical chain is answered honestly exactly if both
chains agree on the trees of all asked blocks. -/
theorem answersHonestly_iff_of_returns (hs : s.ValidTree network) (hl : s.Chain a l)
    (hmmr : s.archivalBlockMmr.Holds l) (hlen : s.archivalBlockMmr.digests.length < u64Bound)
    (hm : s.Chain c.tipDigest m) (hlong : syncChallengePowWitnessLength < m.length)
    (hle : m.length ≤ l.length) (hrange : ∀ h ∈ c.challenges.toList, InRange m h) :
    s.AnswersHonestly c ↔ ∀ h ∈ c.challenges.toList,
      l[lastOfTree h.value.val m.length]? = m[lastOfTree h.value.val m.length]? := by
  obtain ⟨tip, htip, hheight, -, -, hreturns⟩ := response_of_tip hs hm hlong
  have hbound : m.length < u64Bound := by
    rw [hmmr.length_eq] at hlen
    exact (hle.trans_lt (nodeCount_add_one_lt_iff.mp hlen)).trans (by decide)
  obtain ⟨answers, hanswers, hlength, hleft, hright⟩ := exists_returns_mapM fun h hh =>
    (answerChallenge_run hs hl hmmr hlen hheight (hrange h hh)
      ((Nat.lt_of_succ_lt (hrange h hh).2).trans_le hle)).2 hle
  obtain ⟨r, hr, hblocks, hproofs⟩ := hreturns answers hanswers (by
    rw [hlength]
    simp)
  have hzip : r.blocks.toList.zip r.membershipProofs.toList = answers := by
    rw [hblocks, hproofs, zip_map', List.map_id']
  have hiff : ∀ h x, h ∈ c.challenges.toList → s.AnsweredFrom l m.length h x →
      (ProvesAncestor tip x.1.2 x.2 ↔ l[lastOfTree h.value.val m.length]? =
        m[lastOfTree h.value.val m.length]?) := fun h x hh hx =>
    hx.provesAncestor_iff hl hle (hrange h hh) hs hm hbound htip
  constructor
  · intro hhonest h hh
    obtain ⟨tip', m', htip', -, hpairs⟩ := hhonest.2 r hr
    rw [htip] at htip'
    cases htip'
    obtain ⟨x, hx, hfrom⟩ := hleft h hh
    rw [hzip] at hpairs
    exact (hiff h x hh hfrom).mp (hpairs x hx).2
  · intro hagree
    refine ⟨hr.not_panics, fun r' hr' => ⟨tip, m, htip, hm, ?_⟩⟩
    obtain rfl : r = r' := hr.unique hr'
    rw [hzip]
    intro x hx
    obtain ⟨h, hh, hfrom⟩ := hright x hx
    exact ⟨hfrom.ancestorPair hl hle (hrange h hh) hm (hagree h hh),
      (hiff h x hh hfrom).mpr (hagree h hh)⟩

/-- **Which challenges are answered honestly.**  The canonical chain answers every challenge for a
tip that is stored and high enough; all other tips are refused. -/
theorem sync_response_honest_iff (hs : s.ValidTree network) (hl : s.Chain a l)
    (hmmr : s.archivalBlockMmr.Holds l) (hlen : s.archivalBlockMmr.digests.length < u64Bound) :
    s.AnswersHonestly c ↔ ∀ m, s.Chain c.tipDigest m → syncChallengePowWitnessLength < m.length →
      Answerable l m c := by
  constructor
  · intro hhonest m hm hlong
    refine ⟨fun hle hrange => ?_, fun hlonger => ?_⟩
    · exact (answersHonestly_iff_of_returns hs hl hmmr hlen hm hlong hle hrange).mp hhonest
    · intro h hh hrange
      obtain ⟨tip, -, hheight, hpanics, -, -⟩ := response_of_tip hs hm hlong
      have hfirst := (answerChallenge_run hs hl hmmr hlen hheight hrange.1 hrange.2).1 hlonger
      exact hhonest.1 (hpanics (panics_mapM_of_head hh hfirst))
  · intro hanswerable
    by_cases hknown : ∃ m, s.Chain c.tipDigest m ∧ syncChallengePowWitnessLength < m.length
    · obtain ⟨m, hm, hlong⟩ := hknown
      obtain ⟨tip, -, hheight, -, hreports, -⟩ := response_of_tip hs hm hlong
      have hans := hanswerable m hm hlong
      by_cases hle : m.length ≤ l.length
      · by_cases hrange : ∀ h ∈ c.challenges.toList, InRange m h
        · exact (answersHonestly_iff_of_returns hs hl hmmr hlen hm hlong hle hrange).mpr
            (hans.1 hle hrange)
        · refine answersHonestly_of_reports (hreports (reports_mapM (fun h _ => ?_) ?_))
          · by_cases hin : InRange m h
            · obtain ⟨x, hx, -⟩ := (answerChallenge_run hs hl hmmr hlen hheight hin
                ((Nat.lt_of_succ_lt hin.2).trans_le hle)).2 hle
              exact Or.inl ⟨x, hx⟩
            · exact Or.inr (answerChallenge_reports hmmr hheight (Or.inl hin))
          · push Not at hrange
            obtain ⟨h, hh, hout⟩ := hrange
            exact ⟨h, hh, answerChallenge_reports hmmr hheight (Or.inl hout)⟩
      · -- the first round reports an error
        have hlength : 0 < c.challenges.toList.length := by
          rw [Vector.length_toList]
          decide
        have hh := head?_eq_some_head (ne_nil_of_length_pos hlength)
        set h := c.challenges.toList.head (ne_nil_of_length_pos hlength)
        have hout := hans.2 (not_le.mp hle) h hh
        rw [not_and_or, not_lt] at hout
        exact answersHonestly_of_reports (hreports
          (reports_mapM_of_head hh (answerChallenge_reports hmmr hheight hout)))
    · push Not at hknown
      exact answersHonestly_of_reports
        (response_reports_of_low hs fun m hm => not_lt.mpr (hknown m hm))

end

omit [MmrNodeIndexing] in
theorem sync_response_honest_fast :
    ∃ (_ : MmrNodeIndexing) (s : ArchivalState SymbolicDigest) (a : SymbolicDigest)
      (l : List SymbolicDigest) (c : SyncChallenge SymbolicDigest),
      s.ValidTree .main ∧ s.Chain a l ∧ s.archivalBlockMmr.Holds l ∧
      s.archivalBlockMmr.digests.length < u64Bound ∧ s.Chain c.tipDigest l ∧
      syncChallengePowWitnessLength < l.length ∧ s.AnswersHonestly c := by
  let _ := MmrNodeIndexing.reference
  obtain ⟨s, A, B, l, m, hs, hmmr, hl, -, -, -, hlength, -⟩ := TwoSpeeds.exists_state
  have hlen : s.archivalBlockMmr.digests.length < u64Bound := by
    rw [hmmr.length_eq, hlength]
    decide
  refine ⟨_, s, A.hash, l, ⟨A.hash, .replicate _ ⟨5⟩⟩, hs, hl, hmmr, hlen, hl,
    by rw [hlength]; decide, ?_⟩
  refine (sync_response_honest_iff hs hl hmmr hlen).mpr fun m hm _ => ?_
  obtain rfl := hl.unique hm
  exact ⟨fun _ _ _ _ => rfl, fun hlt => absurd hlt (lt_irrefl _)⟩

omit [MmrNodeIndexing] in
/-- **A panic.**  The tip of the slow branch is higher than the canonical tip, and has less
work. -/
theorem sync_response_panics_slow :
    ∃ (_ : MmrNodeIndexing) (s : ArchivalState SymbolicDigest) (A B : Block SymbolicDigest)
      (l : List SymbolicDigest) (c : SyncChallenge SymbolicDigest),
      s.ValidTree .main ∧ s.Chain A.hash l ∧ s.archivalBlockMmr.Holds l ∧
      s.getBlock A.hash = some A ∧ s.getBlock c.tipDigest = some B ∧
      B.header.cumulativeProofOfWork.toBigUint < A.header.cumulativeProofOfWork.toBigUint ∧
      (s.responseToSyncChallenge c).Panics ∧ ¬ s.AnswersHonestly c := by
  let _ := MmrNodeIndexing.reference
  obtain ⟨s, A, B, l, m, hs, hmmr, hl, hm, hA, hB, hlength, hlength', hwork⟩ :=
    TwoSpeeds.exists_state
  have hlen : s.archivalBlockMmr.digests.length < u64Bound := by
    rw [hmmr.length_eq, hlength]
    decide
  let c : SyncChallenge SymbolicDigest := ⟨B.hash, .replicate _ ⟨5⟩⟩
  have hlong : syncChallengePowWitnessLength < m.length := by
    rw [hlength']
    decide
  obtain ⟨tip, -, hheight, hpanics, -, -⟩ := response_of_tip (c := c) hs hm hlong
  have hrange : InRange m ⟨5⟩ := by
    rw [InRange, hlength']
    decide
  have hfirst := (answerChallenge_run hs hl hmmr hlen hheight hrange (by rw [hlength]; decide)).1
    (by rw [hlength, hlength']; decide)
  have hresponse := hpanics (panics_mapM_of_head rfl hfirst)
  exact ⟨_, s, A, B, l, c, hs, hl, hmmr, hA, hB, hwork, hresponse, fun h => h.1 hresponse⟩

end ArchivalState

end NyksNode
