import NyksNode.Wallet.Reorganization
import NyksNode.Wallet.Selection

/-!
# Coins that are evicted

`select_utxos` evicts a coin that is spent on the chain of the node, whether or not the wallet has
confirmed the block that spends it.  A coin gets into the pool only when its own block leaves the
confirmation window.  That has happened before the coin was evicted, so a coin whose spend is undone
does not come back.

That a block has left the window shows in the leaf indices: the coins that the wallet has known lie
below the first leaf of every block that can still be confirmed.
-/

namespace NyksNode

open List Option Fallible IncomingUtxo

section
variable {D : Type} [Tip5 D] [ConsensusOps D]

def IncomingUtxo.key (u : IncomingUtxo D) : UtxoKey D :=
  ⟨commit (ConsensusOps.hashVarlen (.utxo u.utxo)) u.senderRandomness
    (digestHash u.receiverPreimage), u.aoclLeafIndex⟩

theorem IncomingUtxo.key_of_finalize [DecidableEq D] {u : IncomingUtxo D} {mp : MsMembershipProof D}
    {v : MonitoredUtxo D} (h : u.finalize mp = some v) : UtxoKey.new v = u.key := by
  rw [finalize, ite_none_right_eq_some, some_inj] at h
  obtain ⟨⟨hsender, hreceiver, hleaf⟩, rfl⟩ := h
  simp [UtxoKey.new, key, MonitoredUtxo.additionRecord, MsMembershipProof.additionRecord,
    MonitoredUtxo.mutatorSetItem, hsender, hreceiver, hleaf]

namespace RpcWalletBlock

open ChainScanner

/-- The leaf of the first output of a block. -/
def firstLeaf (b : RpcWalletBlock D) : ℕ :=
  b.kernel.body.mutatorSetAccumulator.aocl.leafCount -
    b.kernel.body.transactionKernel.outputs.length

/-- How many leafs there are after a block and the rewards of its guesser. -/
def nextLeaf (b : RpcWalletBlock D) : ℕ :=
  b.kernel.body.mutatorSetAccumulator.aocl.leafCount +
    (b.kernel.guesserFeeUtxos.toOption.getD []).length

omit [Tip5 D] in
theorem firstLeaf_le_nextLeaf (b : RpcWalletBlock D) : b.firstLeaf ≤ b.nextLeaf := by
  rw [firstLeaf, nextLeaf]
  omega

/-- The coins that are found in a block have its leafs. -/
theorem leaf_of_scanBlock [DecidableEq D] [DigestOps D] [NoteOps D] {b : RpcWalletBlock D}
    {keys : List (ViewingKey D)} {us : List (IncomingUtxo D)}
    (h : scanBlock keys b.hash b.kernel = some us) {u : IncomingUtxo D} (hu : u ∈ us) :
    b.firstLeaf ≤ u.aoclLeafIndex ∧ u.aoclLeafIndex < b.nextLeaf := by
  simp only [scanBlock, bind_eq_bind, bind_eq_some_iff, some_inj] at h
  obtain ⟨found, hfound, rewards, hrewards, rfl⟩ := h
  rw [firstLeaf, nextLeaf]
  cases mem_append.mp hu with
  | inl hu =>
    obtain ⟨i, hi, -, hleaf⟩ := sound_of_scanBlockForUtxos hfound hu
    have hlt := (List.getElem?_eq_some_iff.mp hi).1
    rw [scanBlockForUtxos, ite_none_left_eq_some] at hfound
    omega
  | inr hu =>
    simp only [scanBlockForGuesserUtxos, bind_eq_bind, bind_eq_some_iff, some_inj] at hrewards
    obtain ⟨utxos, hutxos, rfl⟩ := hrewards
    obtain ⟨key, -, hu⟩ := mem_flatMap.mp hu
    obtain ⟨x, hx, rfl⟩ := mem_map.mp hu
    have hlt := snd_lt_of_mem_zipIdx (mem_of_mem_filter hx)
    rw [hutxos, getD_some]
    dsimp only
    omega

end RpcWalletBlock

/-- The leafs of a block follow those of its parent. -/
def Numbered (blocks : Set (RpcWalletBlock D)) : Prop :=
  ∀ a ∈ blocks, ∀ b ∈ blocks, b.prevBlockDigest = a.hash → a.nextLeaf ≤ b.firstLeaf

theorem Numbered.pairwise {blocks : Set (RpcWalletBlock D)} (h : Numbered blocks)
    {c : NodeChain D} (hc : ∀ b ∈ c.blocks, b ∈ blocks) :
    c.blocks.Pairwise fun a b => a.nextLeaf ≤ b.firstLeaf := by
  have : IsTrans (RpcWalletBlock D) fun a b => a.nextLeaf ≤ b.firstLeaf :=
    ⟨fun a b d hab hbd => hab.trans (b.firstLeaf_le_nextLeaf.trans hbd)⟩
  refine isChain_iff_pairwise.mp (c.linked.imp_of_mem_imp fun a b ha hb hparent => ?_)
  exact h a (hc a ha) b (hc b hb) hparent

/-- A transaction of the chain spends the coin. -/
def NodeChain.spends (c : NodeChain D) (u : MonitoredUtxo D) : Bool :=
  c.blocks.any fun b => b.kernel.body.transactionKernel.inputs.any fun input =>
    decide (input.absoluteIndices = u.indices)

end

/-! ## What the pool holds after a call -/

namespace UtxoPool
variable {D : Type} [DecidableEq D] [Tip5 D] [ConsensusOps D]

def has (pool : UtxoPool D) (key : UtxoKey D) : Bool := (pool.utxos.get? key).isSome

theorem has_insertUtxo {pool : UtxoPool D} {u : MonitoredUtxo D} {k : UtxoKey D} :
    (pool.insertUtxo u).has k = true ↔ k = .new u ∨ pool.has k = true := by
  rw [has, insertUtxo, AssocMap.get?_insert]
  by_cases hk : k = .new u
  · simp [hk]
  · simp [hk, has]

theorem has_foldl_insertUtxo {us : List (MonitoredUtxo D)} {pool : UtxoPool D} {k : UtxoKey D} :
    (us.foldl insertUtxo pool).has k = true ↔ pool.has k = true ∨ k ∈ us.map UtxoKey.new := by
  induction us generalizing pool with
  | nil => simp
  | cons u us ih =>
    rw [foldl_cons, ih, has_insertUtxo, map_cons, mem_cons]
    tauto

theorem map_key_of_mapM_finalizeWith
    {cs : List (IncomingUtxo D × RpcMsMembershipProofPrivacyPreserving D)}
    {added : List (MonitoredUtxo D)} (h : (cs.mapM finalizeWith).Returns added) :
    added.map UtxoKey.new = cs.map (·.1.key) := by
  induction cs generalizing added with
  | nil =>
    cases returns_pure.mp h
    rfl
  | cons c cs ih =>
    simp only [mapM_cons, returns_bind, returns_pure] at h
    obtain ⟨u, hu, us, hus, rfl⟩ := h
    simp only [finalizeWith, returns_bind, returns_orElse] at hu
    obtain ⟨mp, -, hfinalize⟩ := hu
    rw [map_cons, map_cons, ih hus, key_of_finalize hfinalize]

/-- `add_utxos` adds the received coins. -/
theorem has_addUtxos {server : ProofServer D} (hserver : OneProofEach server) {fuel request : ℕ}
    {pool pool' : UtxoPool D} {utxos : List (IncomingUtxo D)}
    {added : List (UtxoKey D × MonitoredUtxo D)} {request' : ℕ}
    (h : (pool.addUtxos server fuel request utxos).Returns (added, pool', request'))
    (k : UtxoKey D) : pool'.has k = true ↔ pool.has k = true ∨ k ∈ utxos.map key := by
  cases utxos with
  | nil =>
    cases returns_pure.mp h
    simp
  | cons u us =>
    simp only [addUtxos, isEmpty_cons, Bool.false_eq_true, if_false, returns_bind,
      returns_pure, Prod.mk.injEq] at h
    obtain ⟨⟨proofs, msa, next⟩, hproofs, new, hnew, -, rfl, -⟩ := h
    have hlength := length_of_restoreProofs hserver hproofs
    rw [length_map] at hlength
    rw [has_foldl_insertUtxo, map_key_of_mapM_finalizeWith hnew]
    have hzip : ((u :: us).zip proofs).map Prod.fst = u :: us := map_fst_zip hlength.ge
    have hkeys := congrArg (List.map key) hzip
    rw [List.map_map] at hkeys
    rw [← hkeys]
    rfl

section
variable [CoinOps D] [WalletOps D]

/-- Some selection takes the coin as a candidate. -/
def Selectable [IterOrder] (pool : UtxoPool D) (key : UtxoKey D) : Prop :=
  ∃ amount timestamp exclude picked total,
    pool.candidates amount timestamp exclude = some (picked, total) ∧ key ∈ picked.map (·.1)

omit [Tip5 D] in
theorem Selectable.has [IterOrder] {pool : UtxoPool D} {k : UtxoKey D} (h : pool.Selectable k) :
    pool.has k = true := by
  obtain ⟨_, _, _, picked, _, hpick, hk⟩ := h
  obtain ⟨e, he, rfl⟩ := mem_map.mp hk
  rw [UtxoPool.has, (picks_of_candidates hpick).1.pooled e he]
  rfl

end

/-- Selecting adds no coins to the pool. -/
theorem has_of_selectUtxos [CoinOps D] [WalletOps D] [MmrOps D] [IterOrder]
    {server : ProofServer D} {amount : NativeCurrencyAmount} {timestamp : Timestamp}
    {exclude : Option (List (UtxoKey D))} {fuel request request' : ℕ} {pool pool' : UtxoPool D}
    {selection : UtxosSelection D}
    (h : (pool.selectUtxos server fuel request amount timestamp exclude).Returns
      (selection, pool', request')) {k : UtxoKey D} (hk : pool'.has k = true) :
    pool.has k = true := by
  have hall : pool.All fun k _ => pool.has k = true := by
    intro k u hu
    rw [has, hu]
    rfl
  obtain ⟨u, hu⟩ := Option.isSome_iff_exists.mp hk
  exact (all_selectLoop (fun _ _ _ _ h => h) hall (by simp) h).1 k u hu

end UtxoPool

/-! ## What a call confirms -/

section
variable {D : Type} [DecidableEq D] [Tip5 D] [ConsensusOps D] [DigestOps D] [NoteOps D]

/-- The entry of the window for a block, with the keys that the wallet had then. -/
def Entry (b : RpcWalletBlock D) (e : D × List (IncomingUtxo D)) : Prop :=
  ∃ keys, ChainScanner.Scans keys b e

theorem exists_of_mem_entries {bs : List (RpcWalletBlock D)}
    {entries : List (D × List (IncomingUtxo D))} (h : List.Forall₂ Entry bs entries)
    {u : IncomingUtxo D} (hu : u ∈ entries.flatMap (·.2)) :
    ∃ b ∈ bs, b.firstLeaf ≤ u.aoclLeafIndex ∧ u.aoclLeafIndex < b.nextLeaf := by
  induction h with
  | nil => cases hu
  | cons he _ ih =>
    rw [flatMap_cons, mem_append] at hu
    cases hu with
    | inl hu =>
      obtain ⟨keys, hscans⟩ := he
      exact ⟨_, mem_cons_self, RpcWalletBlock.leaf_of_scanBlock hscans.2 hu⟩
    | inr hu =>
      obtain ⟨b, hb, hleaf⟩ := ih hu
      exact ⟨b, mem_cons_of_mem _ hb, hleaf⟩

end

/-! ## Runs -/

/-- The wallet, and the coins that it has evicted while they were spent on the chain of the node. -/
structure CoinWatch (D : Type) [Tip5 D] [ConsensusOps D] where
  watch : ChainWatch D
  evicted : List (UtxoKey D × MonitoredUtxo D)

namespace CoinWatch
variable {D : Type} [DecidableEq D] [Tip5 D] [ConsensusOps D]

abbrev pool (s : CoinWatch D) : UtxoPool D := s.watch.wallet.utxos

/-- A window holds the blocks of a chain above the confirmed height. -/
def CaughtUp (scanner : ChainScanner D) (chain : NodeChain D) : Prop :=
  scanner.digests = (chain.blocks.drop scanner.height.value.val).map RpcWalletBlock.hash

instance (scanner : ChainScanner D) (chain : NodeChain D) : Decidable (CaughtUp scanner chain) :=
  inferInstanceAs (Decidable (_ = _))

/-- The coins of a pool that another pool does not have, and that are spent on a chain. -/
def spentAmong (pool pool' : UtxoPool D) (chain : NodeChain D) :
    List (UtxoKey D × MonitoredUtxo D) :=
  pool.utxos.entries.filter fun e => !pool'.has e.1 && chain.spends e.2

variable [DigestOps D] [NoteOps D] [MmrOps D]

/-- The restore requests of a call are answered with one proof for each index set. -/
def AnswersEach : OnlineCall D → Prop
  | .sync c => UtxoPool.OneProofEach c.rpc.restoreMembershipProof
  | _ => True

omit [DigestOps D] [NoteOps D] [MmrOps D] in
theorem spentAmong_eq_nil {pool pool' : UtxoPool D} (chain : NodeChain D)
    (hkept : ∀ k, pool.has k = true → pool'.has k = true) : spentAmong pool pool' chain = [] := by
  rw [spentAmong, filter_eq_nil_iff]
  intro e he
  have hhas : pool.has e.1 = true := by
    rw [UtxoPool.has, AssocMap.get?_eq_some_iff.mpr he]
    rfl
  simp [hkept e.1 hhas]

/-- A call of `sync` reaches the end of the chain: the window is on it, and the node serves all
blocks above. -/
def Reaches (s : CoinWatch D) (c : HonestSync D) : Prop :=
  s.watch.Canonical (.sync c) ∧ (c.seen s.watch.tipHeight).blocks.length ≤
    s.watch.tipHeight.value.val + (c.received s.watch.tipHeight).length

/-- When a call of `sync` reaches the end of the chain, the coins that were evicted before are spent
on it. -/
def StillSpent (s : CoinWatch D) : OnlineCall D × NodeChain D → Prop
  | (.sync c, _) => s.Reaches c →
    ∀ e ∈ s.evicted, (c.seen s.watch.tipHeight).spends e.2 = true
  | _ => True

instance (s : CoinWatch D) (c : HonestSync D) : Decidable (s.Reaches c) :=
  inferInstanceAs (Decidable (_ ∧ _))

instance (s : CoinWatch D) (c : OnlineCall D × NodeChain D) : Decidable (s.StillSpent c) :=
  match c with
  | (.sync _, _) => inferInstanceAs (Decidable (_ → _))
  | (.nextAddress _, _) => .isTrue trivial
  | (.send _ _ _ _ _ _, _) => .isTrue trivial

/-- The coin is in the pool or was evicted. -/
def Known (s : CoinWatch D) (k : UtxoKey D) : Prop :=
  s.pool.has k = true ∨ ∃ e ∈ s.evicted, e.1 = k

/-- The blocks of the known coins have left the window: the coins lie below all blocks of a chain
that come after the confirmed ones.  So the evicted coins are not in the pool. -/
structure Gone (start : BlockHeight) (blocks : Set (RpcWalletBlock D)) (s : CoinWatch D) :
    Prop where
  sound : s.watch.Sound start blocks
  entries : List.Forall₂ Entry s.watch.window.recent s.watch.wallet.scanner.confirmingBlocks
  below : ∀ k, s.Known k → ∀ c : NodeChain D, (∀ b ∈ c.blocks, b ∈ blocks) →
    s.watch.window.settled <+: c.blocks.drop start.value.val →
    ∀ b ∈ c.blocks.drop (start.value.val + s.watch.window.settled.length),
      k.aoclIndex < b.firstLeaf
  gone : ∀ e ∈ s.evicted, s.pool.has e.1 = false

variable {start : BlockHeight} {blocks : Set (RpcWalletBlock D)} {s s' : CoinWatch D}

omit [MmrOps D] in
/-- A call that adds no coins. -/
theorem Gone.shrink (h : s.Gone start blocks) {w : Wallet D} (tip : NodeChain D)
    (hblocks : w.scanner.confirmingBlocks = s.watch.wallet.scanner.confirmingBlocks)
    (hheight : w.scanner.height = s.watch.wallet.scanner.height)
    (hpool : ∀ k, w.utxos.has k = true → s.pool.has k = true) : Gone start blocks
      (⟨⟨w, s.watch.window, none⟩, s.evicted ++ spentAmong s.pool w.utxos tip⟩ : CoinWatch D) where
  sound := h.sound.of_keys hblocks hheight
  entries := by
    change List.Forall₂ Entry _ w.scanner.confirmingBlocks
    rw [hblocks]
    exact h.entries
  below := by
    intro k hk
    refine h.below k ?_
    rcases hk with hk | ⟨e, he, rfl⟩
    · exact Or.inl (hpool k hk)
    · rcases mem_append.mp he with he | he
      · exact Or.inr ⟨e, he, rfl⟩
      · refine Or.inl ?_
        rw [UtxoPool.has, AssocMap.get?_eq_some_iff.mpr (mem_of_mem_filter he)]
        rfl
  gone := by
    intro e he
    rcases mem_append.mp he with he | he
    · have hgone := h.gone e he
      rw [← Bool.not_eq_true] at hgone ⊢
      exact fun hk => hgone (hpool e.1 hk)
    · have hnew := (mem_filter.mp he).2
      rw [Bool.and_eq_true, Bool.not_eq_true'] at hnew
      exact hnew.1

section Sync
variable {c : HonestSync D} {w : Wallet D}
  {outcome : Except (SyncError D) (List (WalletEvent D))}
  {result : Except (AdvanceError D) (List (IncomingUtxo D))}
  (hinj : Set.InjOn RpcWalletBlock.hash blocks) (h : s.Gone start blocks)
  (hwithin : ChainWatch.Within blocks (.sync c)) (hdeep : s.watch.Deep start (.sync c))
  (hadvance : (ChainScanner.advance (c.received s.watch.tipHeight)).start
    s.watch.wallet.scanner = some (result, w.scanner))

omit [MmrOps D] in
include h in
theorem Gone.val_tipHeight : s.watch.tipHeight.value.val = s.watch.scanned start := by
  rw [h.sound.tipHeight_eq, BlockHeight.val_nth h.sound.scanned_lt]

include hinj h hwithin hdeep hadvance

/-- A call of `sync` confirms only coins of blocks above those that were confirmed before. -/
theorem Gone.synced (hnumbered : Numbered blocks) (hstart : 0 < start.value.val)
    (hpool : ∀ k, (w.utxos.has k = true ↔
      s.pool.has k = true ∨ k ∈ (Follower.received result).map IncomingUtxo.key)) :
    Gone start blocks (⟨s.watch.synced c w outcome, s.evicted⟩ : CoinWatch D) := by
  have htip : s.watch.tipHeight ≠ .genesis := by
    intro hgenesis
    have hval := h.val_tipHeight
    rw [hgenesis, ChainWatch.scanned] at hval
    change 0 = _ at hval
    omega
  have hsound : (s.watch.synced c w outcome).Sound start blocks :=
    h.sound.synced hinj hwithin hdeep hadvance
  obtain ⟨new, entries, hpromotes⟩ := ChainScanner.exists_promotes
    (fun _ _ hscans => ⟨_, hscans⟩) h.sound.tracks.digests h.entries hadvance
  have hsettled : (s.watch.synced c w outcome).window.settled = s.watch.window.settled ++ new :=
    hpromotes.settled_eq
  have hconfirmed : ∀ u ∈ Follower.received result,
      ∃ b ∈ new, b.firstLeaf ≤ u.aoclLeafIndex ∧ u.aoclLeafIndex < b.nextLeaf := by
    intro u hu
    rcases hpromotes.received with ⟨-, hnone, -⟩ | ⟨-, genesis, hgenesis, hreceived⟩
    · rw [hnone] at hu
      cases hu
    · rw [if_neg htip, some_inj] at hgenesis
      rw [hreceived, ← hgenesis, nil_append] at hu
      exact exists_of_mem_entries hpromotes.settled hu
  refine ⟨hsound, hpromotes.recent, ?_, ?_⟩
  · intro k hk c' hc' hprefix b hb
    change (s.watch.synced c w outcome).window.settled <+: _ at hprefix
    change b ∈ c'.blocks.drop (_ + (s.watch.synced c w outcome).window.settled.length) at hb
    rw [hsettled] at hprefix hb
    have hsplit : c'.blocks.drop start.value.val = s.watch.window.settled ++ new ++
        c'.blocks.drop (start.value.val + (s.watch.window.settled ++ new).length) := by
      obtain ⟨rest, hrest⟩ := hprefix
      rw [← drop_drop, ← hrest, drop_left]
    have hold : ∀ k, s.Known k → k.aoclIndex < b.firstLeaf := by
      intro k hk
      refine h.below k hk c' hc' ((prefix_append _ _).trans hprefix) b ?_
      rw [← drop_drop, hsplit, append_assoc, drop_left]
      exact mem_append_right _ hb
    rcases hk with hk | hk
    · rcases (hpool k).mp hk with hk | hk
      · exact hold k (Or.inl hk)
      · obtain ⟨u, hu, rfl⟩ := mem_map.mp hk
        obtain ⟨a, ha, -, hleaf⟩ := hconfirmed u hu
        have hordered := (hnumbered.pairwise hc').sublist (drop_sublist start.value.val _)
        rw [hsplit] at hordered
        exact hleaf.trans_le
          ((pairwise_append.mp hordered).2.2 a (mem_append_right _ ha) b hb)
    · exact hold k (Or.inr hk)
  · intro e he
    change w.utxos.has e.1 = false
    rw [← Bool.not_eq_true, hpool]
    rintro (hk | hk)
    · rw [h.gone e he] at hk
      cases hk
    · obtain ⟨u, hu, heq⟩ := mem_map.mp hk
      obtain ⟨b, hb, hleaf, -⟩ := hconfirmed u hu
      obtain ⟨c', hc', hprefix⟩ := hsound.exists_chain
      rw [hsettled] at hprefix
      obtain ⟨rest, hrest⟩ := hprefix
      have hbelow := h.below e.1 (Or.inr ⟨e, he, rfl⟩) c' hc'
        (hrest ▸ (by simp only [append_assoc]; exact prefix_append _ _)) b (by
          rw [← drop_drop, ← hrest, append_assoc, append_assoc, drop_left]
          exact mem_append_left _ hb)
      rw [← heq] at hbelow
      exact absurd hleaf (Nat.not_le.mpr hbelow)

/-- The wallet is at the end of the chain after the call exactly if the call reaches it. -/
theorem Gone.caughtUp_iff :
    (result.isOk = true ∧ CaughtUp w.scanner (c.seen s.watch.tipHeight)) ↔ s.Reaches c := by
  rw [Reaches, h.val_tipHeight]
  -- whether the call succeeds does not matter for the window
  let outcome : Except (SyncError D) (List (WalletEvent D)) := .ok []
  constructor
  · rintro ⟨hok, hcaught⟩
    have hc : s.watch.Canonical (.sync c) := by
      refine h.sound.digests_synced (o := outcome) hinj hwithin hdeep hadvance ?_ fun _ => ?_
      · rintro rfl
        cases hok
      · exact hcaught ▸ prefix_rfl
    obtain ⟨hsound, -, hscanned, -⟩ :=
      h.sound.synced_of_canonical (o := outcome) hinj hwithin hdeep hadvance hc
    refine ⟨hc, hscanned ▸ ?_⟩
    have hrecent := hsound.tracks.digests.symm.trans (hcaught.trans
      (congrArg (List.map RpcWalletBlock.hash) (hsound.unconfirmed_eq (c.seen s.watch.tipHeight))))
    have hlength := congrArg length hrecent
    rw [length_map, length_map, length_drop, length_drop] at hlength
    dsimp only at hlength
    rw [ChainWatch.scanned, length_append]
    omega
  · rintro ⟨hc, hle⟩
    obtain ⟨hsound, hok, hscanned, hstays⟩ :=
      h.sound.synced_of_canonical (o := outcome) hinj hwithin hdeep hadvance hc
    refine ⟨hok, (hsound.digests_eq_iff (hscanned ▸ hle)).mpr ?_⟩
    exact (hsound.digests_isPrefix_iff hinj (ChainWatch.seen_of_within hwithin _)
      ((prefix_append _ _).trans hstays)).mpr hstays

end Sync

variable [CoinOps D] [WalletOps D] [TransactionOps D] [IterOrder]

/-- One call, and the chain of the node when it is made. -/
def call (s : CoinWatch D) (c : OnlineCall D × NodeChain D) : Option (CoinWatch D) := do
  let watch ← s.watch.call c.1
  some ⟨watch, s.evicted ++ spentAmong s.pool watch.wallet.utxos c.2⟩

/-- The coin is in the pool and can be selected. -/
def Back (s : CoinWatch D) (k : UtxoKey D) : Prop := s.pool.has k = true ∧ s.pool.Selectable k

/-- If the last call was a call of `sync` that brought the wallet to the end of the chain, then the
evicted coins that are not spent on that chain are in the pool and can be selected. -/
def Restores (s : CoinWatch D) : Prop :=
  ∀ r ∈ s.watch.last, r.2.isOk = true → CaughtUp s.watch.wallet.scanner r.1 →
    ∀ e ∈ s.evicted, r.1.spends e.2 = false → s.Back e.1

omit [DigestOps D] [NoteOps D] [MmrOps D] [TransactionOps D] in
theorem not_restores {s : CoinWatch D}
    (h : ∃ r ∈ s.watch.last, r.2.isOk = true ∧ CaughtUp s.watch.wallet.scanner r.1 ∧
      ∃ e ∈ s.evicted, r.1.spends e.2 = false ∧ s.pool.has e.1 = false) : ¬ s.Restores := by
  intro hrestores
  obtain ⟨r, hr, hok, hcaught, e, he, hunspent, hnot⟩ := h
  have hback := (hrestores r hr hok hcaught e he hunspent).1
  rw [hnot] at hback
  cases hback

/-- What is known of a call: the node is honest and keeps the confirmed blocks, and answers restore
requests. -/
def Fair (start : BlockHeight) (blocks : Set (RpcWalletBlock D)) (s : CoinWatch D)
    (c : OnlineCall D × NodeChain D) : Prop :=
  AnswersEach c.1 ∧ ChainWatch.Within blocks c.1 ∧ s.watch.Deep start c.1

theorem restores_sync_iff (hinj : Set.InjOn RpcWalletBlock.hash blocks)
    (hnumbered : Numbered blocks) (hstart : 0 < start.value.val) (h : s.Gone start blocks)
    {c : HonestSync D} {tip : NodeChain D} (hfair : s.Fair start blocks (.sync c, tip))
    (hcall : s.call (.sync c, tip) = some s') :
    (s'.Restores ↔ s.StillSpent (.sync c, tip)) ∧ s'.Gone start blocks := by
  obtain ⟨hserver, hwithin, hdeep⟩ := hfair
  simp only [call, ChainWatch.call, bind_eq_some, Prod.exists, some_inj] at hcall
  obtain ⟨watch, ⟨outcome, w, hsync, rfl⟩, rfl⟩ := hcall
  obtain ⟨result, hadvance, -, hok, added, request, hadd⟩ := ChainWatch.exists_advance_of_sync hsync
  have hpool := UtxoPool.has_addUtxos hserver hadd
  have hnil : spentAmong s.pool w.utxos tip = [] :=
    spentAmong_eq_nil tip fun k hk => (hpool k).mpr (Or.inl hk)
  have hgone : Gone start blocks (⟨s.watch.synced c w outcome, s.evicted⟩ : CoinWatch D) :=
    h.synced hinj hwithin hdeep hadvance hnumbered hstart hpool
  have hreaches := h.caughtUp_iff hinj hwithin hdeep hadvance
  rw [← hok] at hreaches
  simp only [hnil, append_nil]
  refine ⟨⟨fun hrestores hr e he => ?_, fun hspent r hr hok' hcaught e he hunspent => ?_⟩, hgone⟩
  · by_contra hunspent
    obtain ⟨hok', hcaught⟩ := hreaches.mpr hr
    have hback := (hrestores _ rfl hok' hcaught e he (Bool.not_eq_true _ ▸ hunspent)).1
    exact absurd hback (Bool.not_eq_true _ ▸ hgone.gone e he)
  · cases hr
    rw [hspent (hreaches.mp ⟨hok', hcaught⟩) e he] at hunspent
    cases hunspent

theorem restores_call_iff (hinj : Set.InjOn RpcWalletBlock.hash blocks)
    (hnumbered : Numbered blocks) (hstart : 0 < start.value.val) (h : s.Gone start blocks)
    {c : OnlineCall D × NodeChain D} (hfair : s.Fair start blocks c)
    (hcall : s.call c = some s') : (s'.Restores ↔ s.StillSpent c) ∧ s'.Gone start blocks := by
  obtain ⟨c, tip⟩ := c
  cases c with
  | sync c => exact restores_sync_iff hinj hnumbered hstart h hfair hcall
  | nextAddress keyType =>
    simp only [call, ChainWatch.call, Wallet.start_nextAddress, some_bind, some_inj] at hcall
    subst hcall
    exact ⟨iff_of_true (fun r hr => by cases hr) trivial, h.shrink tip rfl rfl fun _ hk => hk⟩
  | send rpc fuel recipient amount fee timestamp =>
    simp only [call, ChainWatch.call, bind_eq_some, Prod.exists, some_inj] at hcall
    obtain ⟨watch, ⟨_, w, hsend, rfl⟩, rfl⟩ := hcall
    obtain ⟨transaction, hprepare⟩ := Wallet.exists_of_start_send hsend
    obtain ⟨_, _, _, _, _, _, _, hselect, _, _, _, rfl⟩ :=
      Wallet.exists_of_start_prepareTransaction hprepare
    exact ⟨iff_of_true (fun r hr => by cases hr) trivial,
      h.shrink tip rfl rfl fun k hk => UtxoPool.has_of_selectUtxos hselect hk⟩

end CoinWatch

/-! ## A spend that is undone -/

namespace Undone

def coin (leaf amount : ℕ) (path : MmrMembershipProof SymbolicDigest) :
    MonitoredUtxo SymbolicDigest where
  utxo := ⟨(SymbolicDigest.entropy.derive .symmetric 0).address.lockScriptHash,
    NativeCurrencyAmount.toNativeCoins ⟨amount⟩⟩
  membershipProof := ⟨.atom 8, .atom 7, path, leaf, .empty⟩
  status := .unspent
  inclusionBlock := none

def commitment (leaf amount : ℕ) : SymbolicDigest :=
  (coin leaf amount []).additionRecord.canonicalCommitment

def first : MonitoredUtxo SymbolicDigest := coin 0 12 [commitment 1 30]

def second : MonitoredUtxo SymbolicDigest := coin 1 30 [commitment 0 12]

def block (height : ℕ) (parent : SymbolicDigest) (inputs : List (RemovalRecord SymbolicDigest))
    (outputs : List (AdditionRecord SymbolicDigest)) (msa : MutatorSetAccumulator SymbolicDigest) :
    RpcWalletBlock SymbolicDigest where
  kernel :=
    { header := { BlockHeader.genesis .main with height := .nth height, prevBlockDigest := parent }
      body :=
        { transactionKernel := ⟨inputs, outputs, [], .coins 0, none, .millis 0, .zero, true⟩
          mutatorSetAccumulator := msa
          lockFreeMmrAccumulator := .empty
          blockMmrAccumulator := .empty }
      appendix := ⟨[]⟩ }
  proofLeaf := .zero

def parent : RpcWalletBlock SymbolicDigest :=
  let outputs := [first.additionRecord, second.additionRecord]
  block 1 .zero [] outputs
    ((outputs.foldlM MutatorSetAccumulator.add MutatorSetAccumulator.empty).getD .empty)

/-- The set after the block with the coins and the reward of its guesser. -/
def msa : MutatorSetAccumulator SymbolicDigest :=
  (((parent.kernel.guesserFeeAdditionRecords parent.hash).toOption.getD []).foldlM
    MutatorSetAccumulator.add parent.kernel.body.mutatorSetAccumulator).getD .empty

def spend : RemovalRecord SymbolicDigest := msa.drop first.mutatorSetItem first.membershipProof

def msaSpent : MutatorSetAccumulator SymbolicDigest := (msa.remove spend).getD .empty

def chain (inputs : List (RemovalRecord SymbolicDigest))
    (msa : MutatorSetAccumulator SymbolicDigest) : NodeChain SymbolicDigest where
  blocks := [parent, block 2 parent.hash inputs [] msa]
  linked := isChain_pair.mpr rfl
  heights i b hb := by
    match i, hb with
    | 0, hb => cases hb; rfl
    | 1, hb => cases hb; rfl
  length_lt := show 2 + walletBatchSize < BFieldElement.modulus by decide

def spending : NodeChain SymbolicDigest := chain [spend] msaSpent

def replacing : NodeChain SymbolicDigest := chain [] msa

def answers (msa : MutatorSetAccumulator SymbolicDigest) (chain : NodeChain SymbolicDigest) :
    RpcAnswers SymbolicDigest :=
  { SymbolicDigest.idleAnswers with
    height := .ok chain.heightCall
    getBlocks := fun fromHeight toHeight => .ok (chain.getBlocksCall false fromHeight toHeight)
    restoreMembershipProof := fun _ sets => .ok ⟨.atom 9, msa, sets.map fun _ =>
      ⟨⟨[(0, [commitment 1 30]), (1, [commitment 0 12])], by decide⟩, .empty⟩⟩ }

def sync (msa : MutatorSetAccumulator SymbolicDigest) (chain : NodeChain SymbolicDigest) :
    OnlineCall SymbolicDigest × NodeChain SymbolicDigest :=
  (.sync
    { rpc := answers msa chain
      fuel := 1
      atHeight := chain
      atBlocks := chain
      unrestricted := false
      height_eq := rfl
      getBlocks_eq := fun _ _ => rfl }, chain)

def send : OnlineCall SymbolicDigest × NodeChain SymbolicDigest :=
  (.send (answers msaSpent spending) 10 ⟨.atom 5, .atom 6⟩ ⟨10⟩ ⟨1⟩ (.millis 100), spending)

section

local instance keptOrder : IterOrder := .asKept

def wallet : Wallet SymbolicDigest :=
  { Wallet.new SymbolicDigest.entropy (some ⟨1⟩) .main with
    utxos := ((UtxoPool.new.importUtxo second).2.importUtxo first).2 }

def start : CoinWatch SymbolicDigest := ⟨⟨wallet, .empty, none⟩, []⟩

def blocks : List (RpcWalletBlock SymbolicDigest) := spending.blocks ++ replacing.blocks

end

end Undone

end NyksNode
