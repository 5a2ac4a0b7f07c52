import NyksNode.Wallet.Following
import NyksNode.Wallet.Wallet

/-!
# The wallet and reorganizations

The wallet follows an honest node whose chain is extended and reorganized between requests.  It asks
for the blocks after its scan tip, so the first parent of an answer is the block of the node's chain
at the height of the scan tip.  If that block is still in the window, it is the last one there, and
no block of the window is dropped; if it is not, the scanner reports an unrecoverable
reorganization.  The branch of the scanner that drops the blocks above a fork is not reached.
-/

namespace NyksNode

open List Option BFieldElement

open RpcWalletBlock (prevBlockDigest)

/-! ## Heights -/

namespace BlockHeight

/-- The height of a chain with so many blocks after genesis. -/
abbrev nth (n : ℕ) : BlockHeight := genesis.addUsize n

variable {n : ℕ}

theorem val_nth (hn : n < modulus) : (nth n).value.val = n := by
  change (0 + n) % _ = n
  rw [Nat.zero_add]
  exact Nat.mod_eq_of_lt hn

theorem next_nth (n : ℕ) : (nth n).next = nth (n + 1) := by
  rw [nth, nth, ← addUsize_addUsize genesis n 1]
  ext
  simp [next, addUsize, new, Fin.ofNat, Fin.val_add]

theorem nth_le_nth_iff {m : ℕ} (hm : m < modulus) (hn : n < modulus) : nth m ≤ nth n ↔ m ≤ n := by
  change (nth m).value.val ≤ (nth n).value.val ↔ _
  rw [val_nth hm, val_nth hn]

theorem addUsize_eq_nth (h : BlockHeight) (n : ℕ) : h.addUsize n = nth (h.value.val + n) := by
  rw [nth, ← addUsize_addUsize]
  congr 1
  exact (addUsize_zero h).symm.trans (by rw [addUsize, addUsize, Nat.add_zero, genesis]; simp)

theorem isGenesis_nth (hn : n + 1 < modulus) : (nth (n + 1)).isGenesis = false := by
  have hval := val_nth hn
  rw [isGenesis, decide_eq_false_iff_not]
  intro hzero
  rw [hzero] at hval
  cases hval

theorem nth_inj {m : ℕ} (hm : m < modulus) (hn : n < modulus) (h : nth m = nth n) : m = n := by
  rw [← val_nth hm, ← val_nth hn, h]

end BlockHeight

open BlockHeight

/-! ## An honest node -/

/-- The canonical chain of a node, after the genesis block. -/
structure NodeChain (D : Type) [Tip5 D] [ConsensusOps D] where
  blocks : List (RpcWalletBlock D)
  linked : IsLinked RpcWalletBlock.hash prevBlockDigest blocks
  heights : ∀ (i : ℕ) (b : RpcWalletBlock D), blocks[i]? = some b →
    b.kernel.header.height = .nth (i + 1)
  /-- Heights do not wrap around. -/
  length_lt : blocks.length + walletBatchSize < BFieldElement.modulus

namespace NodeChain
variable {D : Type} [Tip5 D] [ConsensusOps D]

def heightCall (c : NodeChain D) : BlockHeight := .nth c.blocks.length

/-- The canonical block at a height; the genesis block is not served. -/
def blockAt (c : NodeChain D) (height : BlockHeight) : Option (RpcWalletBlock D) :=
  if height.isGenesis then none else c.blocks[height.value.val - 1]?

/-- The loop of `get_blocks_call`, with the number of blocks that may still be served. -/
def getBlocksLoop (c : NodeChain D) (toHeight : BlockHeight) :
    ℕ → BlockHeight → List (RpcWalletBlock D)
  | 0, _ => []
  | remaining + 1, height =>
    if height ≤ toHeight then
      match c.blockAt height with
      | none => []
      | some block => block :: getBlocksLoop c toHeight remaining height.next
    else []

def getBlocksCall (c : NodeChain D) (unrestricted : Bool) (fromHeight toHeight : BlockHeight) :
    List (RpcWalletBlock D) :=
  if toHeight < fromHeight ∨ fromHeight.isGenesis = true then []
  else c.getBlocksLoop toHeight (if unrestricted then 2 ^ 64 - 1 else 100) fromHeight

variable {n : ℕ}

theorem blockAt_nth (c : NodeChain D) (hn : n + 1 < modulus) :
    c.blockAt (.nth (n + 1)) = c.blocks[n]? := by
  rw [blockAt, isGenesis_nth hn, val_nth hn]
  rfl

/-- The served blocks are those of the chain between the two heights. -/
theorem getBlocksLoop_eq (c : NodeChain D) {last : ℕ} (hn : n + 1 < modulus)
    (hlast : last < modulus) (remaining : ℕ) :
    c.getBlocksLoop (.nth last) remaining (.nth (n + 1)) =
      (c.blocks.drop n).take (min remaining (last - n)) := by
  induction remaining generalizing n with
  | zero => rw [Nat.zero_min, take_zero, getBlocksLoop]
  | succ remaining ih =>
    simp only [getBlocksLoop, nth_le_nth_iff hn hlast, c.blockAt_nth hn]
    by_cases hle : n + 1 ≤ last
    · rw [if_pos hle]
      cases hb : c.blocks[n]? with
      | none =>
        rw [getElem?_eq_none_iff] at hb
        rw [drop_eq_nil_of_le hb, take_nil]
      | some b =>
        have hlt : n < c.blocks.length := (List.getElem?_eq_some_iff.mp hb).1
        have hlength := c.length_lt
        have hmin : min (remaining + 1) (last - n) = min remaining (last - (n + 1)) + 1 := by omega
        have hdrop : c.blocks.drop n = b :: c.blocks.drop (n + 1) := by
          rw [List.drop_eq_getElem_cons hlt, (List.getElem?_eq_some_iff.mp hb).2]
        rw [next_nth, hmin, hdrop, take_succ_cons]
        exact congrArg _ (ih (by rw [walletBatchSize] at hlength; omega))
    · have hzero : last - n = 0 := by omega
      rw [if_neg hle, hzero, Nat.min_zero, take_zero]

theorem getBlocksCall_eq (c : NodeChain D) (unrestricted : Bool) {last : ℕ} (hn : n < last)
    (hlast : last < modulus) : c.getBlocksCall unrestricted (.nth (n + 1)) (.nth last) =
      (c.blocks.drop n).take (min (if unrestricted then 2 ^ 64 - 1 else 100) (last - n)) := by
  have hn' : n + 1 < modulus := by omega
  have hnot : ¬ (nth last < .nth (n + 1) ∨ (nth (n + 1)).isGenesis = true) := by
    rw [not_or]
    refine ⟨?_, ?_⟩
    · change ¬ (nth last).value.val < (nth (n + 1)).value.val
      rw [val_nth hlast, val_nth hn']
      omega
    · rw [isGenesis_nth hn']
      exact Bool.false_ne_true
  rw [getBlocksCall, if_neg hnot, c.getBlocksLoop_eq hn' hlast]

theorem eq_of_getElem?_drop {c c' : NodeChain D} {i j : ℕ} {b : RpcWalletBlock D}
    (hi : (c.blocks.drop n)[i]? = some b) (hj : (c'.blocks.drop n)[j]? = some b) : i = j := by
  rw [List.getElem?_drop] at hi hj
  have hheights := (c.heights _ b hi).symm.trans (c'.heights _ b hj)
  have hlt := (List.getElem?_eq_some_iff.mp hi).1
  have hlt' := (List.getElem?_eq_some_iff.mp hj).1
  have hlength := c.length_lt
  have hlength' := c'.length_lt
  have hbatch : 0 < walletBatchSize := by decide
  have heq := nth_inj (by omega) (by omega) hheights
  omega

end NodeChain

/-- A call of `sync` against an honest node, whose chain may change between the two requests. -/
structure HonestSync (D : Type) [Tip5 D] [ConsensusOps D] where
  rpc : RpcAnswers D
  fuel : ℕ
  atHeight : NodeChain D
  atBlocks : NodeChain D
  unrestricted : Bool
  height_eq : rpc.height = .ok atHeight.heightCall
  getBlocks_eq : ∀ fromHeight toHeight, rpc.getBlocks fromHeight toHeight =
      .ok (atBlocks.getBlocksCall unrestricted fromHeight toHeight)

namespace HonestSync
variable {D : Type} [Tip5 D] [ConsensusOps D]

/-- The chain that the wallet sees last. -/
def seen (c : HonestSync D) (tip : BlockHeight) : NodeChain D :=
  if c.atHeight.heightCall ≤ tip then c.atHeight else c.atBlocks

/-- The blocks that the wallet gets. -/
def received (c : HonestSync D) (tip : BlockHeight) : List (RpcWalletBlock D) :=
  if c.atHeight.heightCall ≤ tip then []
  else c.atBlocks.getBlocksCall c.unrestricted tip.next
    (Wallet.lastRequested tip.next c.atHeight.heightCall)

theorem lastRequested_nth {n networkHeight : ℕ} (hn : n < networkHeight)
    (hheight : networkHeight + walletBatchSize < modulus) :
    Wallet.lastRequested (.nth (n + 1)) (.nth networkHeight) =
      .nth (min networkHeight (n + walletBatchSize)) := by
  have hbatch : n + 1 + (walletBatchSize - 1) = n + walletBatchSize := by
    rw [walletBatchSize]
  have hlt : nth networkHeight < .nth (n + walletBatchSize) ↔
      networkHeight < n + walletBatchSize := by
    change (nth _).value.val < (nth _).value.val ↔ _
    rw [val_nth (by omega), val_nth (by omega)]
  simp only [Wallet.lastRequested, addUsize_addUsize, hbatch, hlt]
  by_cases hle : networkHeight < n + walletBatchSize
  · rw [if_pos hle, Nat.min_eq_left hle.le]
  · rw [if_neg hle, Nat.min_eq_right (Nat.le_of_not_lt hle)]

/-- The wallet gets the next blocks of the chain it has seen, and none only if there are none. -/
theorem exists_received_eq (c : HonestSync D) {n : ℕ} (hn : n < modulus) :
    ∃ k, c.received (.nth n) = ((c.seen (.nth n)).blocks.drop n).take k ∧
      (c.received (.nth n) = [] → (c.seen (.nth n)).blocks.length ≤ n) := by
  have hheight := c.atHeight.length_lt
  have hcaught : c.atHeight.heightCall ≤ .nth n ↔ c.atHeight.blocks.length ≤ n :=
    nth_le_nth_iff (by omega) hn
  by_cases hle : c.atHeight.heightCall ≤ .nth n
  · rw [received, seen, if_pos hle, if_pos hle]
    exact ⟨0, rfl, fun _ => hcaught.mp hle⟩
  · have hlt : n < c.atHeight.blocks.length :=
      Nat.lt_of_not_le fun h => hle (hcaught.mpr h)
    rw [received, seen, if_neg hle, if_neg hle, next_nth, NodeChain.heightCall,
      lastRequested_nth hlt hheight]
    have hbatch : 0 < walletBatchSize := by decide
    rw [c.atBlocks.getBlocksCall_eq c.unrestricted (by omega) (by omega)]
    refine ⟨_, rfl, fun hnil => ?_⟩
    rw [take_eq_nil_iff, drop_eq_nil_iff] at hnil
    refine hnil.resolve_left fun hzero => ?_
    have hpos : 0 < (if c.unrestricted then 2 ^ 64 - 1 else 100) := by
      cases c.unrestricted <;> decide
    omega

end HonestSync

/-! ## The window of the wallet -/

/-- A call of the wallet, with an honest node. -/
inductive OnlineCall (D : Type) [Tip5 D] [ConsensusOps D] where
  | nextAddress (keyType : KeyType)
  | send (rpc : RpcAnswers D) (fuel : ℕ) (recipient : Address D)
      (amount fee : NativeCurrencyAmount) (timestamp : Timestamp)
  | sync (c : HonestSync D)

/-- The wallet, the blocks that it has confirmed and those in its window, and what the last call led
to if it was a call of `sync`. -/
structure ChainWatch (D : Type) [Tip5 D] [ConsensusOps D] where
  wallet : Wallet D
  window : ChainWindow (RpcWalletBlock D)
  last : Option (NodeChain D × Except (SyncError D) (List (WalletEvent D)))

namespace ChainWatch

section
variable {D : Type} [Tip5 D] [ConsensusOps D]

/-- The height of the last block that the wallet has scanned. -/
abbrev tipHeight (s : ChainWatch D) : BlockHeight := s.wallet.scanner.tipHeight

/-- The blocks of a chain above those that the wallet has confirmed. -/
def unconfirmed (s : ChainWatch D) (chain : NodeChain D) : List (RpcWalletBlock D) :=
  chain.blocks.drop s.wallet.scanner.height.value.val

/-- The last call of `sync` did not fail for a reorganization, and if it caught up then the window
holds the last blocks of the chain. -/
def Absorbed (s : ChainWatch D) : Prop :=
  ∀ r ∈ s.last, r.2 ≠ .error (.advance .unrecoverableReorg) ∧ (r.1.heightCall ≤ s.tipHeight →
      s.wallet.scanner.digests = (s.unconfirmed r.1).map RpcWalletBlock.hash)

instance [DecidableEq D] (s : ChainWatch D) : Decidable s.Absorbed :=
  inferInstanceAs (Decidable (∀ r ∈ _, _))

/-- The blocks that the wallet has confirmed are on the chain of the node. -/
def Deep (start : BlockHeight) (s : ChainWatch D) : OnlineCall D → Prop
  | .sync c => s.window.settled <+: c.atHeight.blocks.drop start.value.val ∧
    s.window.settled <+: c.atBlocks.blocks.drop start.value.val
  | _ => True

/-- The blocks in the window are on the chain of the node. -/
def Canonical (s : ChainWatch D) : OnlineCall D → Prop
  | .sync c => s.wallet.scanner.digests <+:
    (s.unconfirmed (c.seen s.tipHeight)).map RpcWalletBlock.hash
  | _ => True

instance [DecidableEq D] (start : BlockHeight) (s : ChainWatch D) (c : OnlineCall D) :
    Decidable (s.Deep start c) :=
  match c with
  | .sync _ => inferInstanceAs (Decidable (_ ∧ _))
  | .nextAddress _ => .isTrue trivial
  | .send _ _ _ _ _ _ => .isTrue trivial

instance [DecidableEq D] (s : ChainWatch D) (c : OnlineCall D) : Decidable (s.Canonical c) :=
  match c with
  | .sync _ => inferInstanceAs (Decidable (_ <+: _))
  | .nextAddress _ => .isTrue trivial
  | .send _ _ _ _ _ _ => .isTrue trivial

/-- The blocks of the node are among the given ones. -/
def Within (blocks : Set (RpcWalletBlock D)) : OnlineCall D → Prop
  | .sync c => (∀ b ∈ c.atHeight.blocks, b ∈ blocks) ∧ ∀ b ∈ c.atBlocks.blocks, b ∈ blocks
  | _ => True

variable [DecidableEq D] [DigestOps D] [NoteOps D] [MmrOps D] [CoinOps D] [WalletOps D]
  [TransactionOps D] [IterOrder]

def call (s : ChainWatch D) : OnlineCall D → Option (ChainWatch D)
  | .nextAddress keyType => do
    let (_, w) ← (Wallet.nextAddress keyType : Effect (Wallet D) RpcError _).start s.wallet
    some ⟨w, s.window, none⟩
  | .send rpc fuel recipient amount fee timestamp => do
    let (_, w) ← (Wallet.send rpc fuel recipient amount fee timestamp).start s.wallet
    some ⟨w, s.window, none⟩
  | .sync c => do
    let (outcome, w) ← (Wallet.sync c.rpc c.fuel).start s.wallet
    some
      { wallet := w
        window := s.window.advance RpcWalletBlock.hash prevBlockDigest
          s.wallet.scanner.confirmationDepth (c.received s.tipHeight)
        last := some (c.seen s.tipHeight, outcome) }

end

section
variable {D : Type} [Tip5 D] [ConsensusOps D]

/-- What was scanned is the start of a chain of known blocks. -/
structure Sound (start : BlockHeight) (blocks : Set (RpcWalletBlock D)) (s : ChainWatch D) :
    Prop where
  tracks : (⟨s.wallet.scanner, s.window, []⟩ : Follower D).Tracks start
  exists_chain : ∃ c : NodeChain D, (∀ b ∈ c.blocks, b ∈ blocks) ∧
    s.window.settled ++ s.window.recent <+: c.blocks.drop start.value.val

/-- How many blocks are below the end of the window. -/
def scanned (start : BlockHeight) (s : ChainWatch D) : ℕ :=
  start.value.val + (s.window.settled ++ s.window.recent).length

variable {start : BlockHeight} {blocks : Set (RpcWalletBlock D)} {s : ChainWatch D}

theorem Sound.scanned_lt (h : s.Sound start blocks) : s.scanned start < modulus := by
  obtain ⟨c, -, hscanned⟩ := h.exists_chain
  have hlength := hscanned.length_le
  rw [length_drop] at hlength
  have hchain := c.length_lt
  have hstart : start.value.val < modulus := start.value.isLt
  rw [scanned]
  omega

theorem Sound.tipHeight_eq (h : s.Sound start blocks) : s.tipHeight = .nth (s.scanned start) := by
  have hlength := congrArg length h.tracks.digests
  rw [ChainScanner.digests, length_map, length_map] at hlength
  have hheight := h.tracks.height
  dsimp only at hlength hheight
  rw [tipHeight, ChainScanner.tipHeight, hheight, hlength, addUsize_addUsize,
    addUsize_eq_nth, scanned, length_append]

theorem Sound.unconfirmed_eq (h : s.Sound start blocks) (c : NodeChain D) :
    s.unconfirmed c = (c.blocks.drop start.value.val).drop s.window.settled.length := by
  have hlt := h.scanned_lt
  have hheight := h.tracks.height
  dsimp only at hheight
  rw [scanned, length_append] at hlt
  rw [unconfirmed, hheight, addUsize_eq_nth, val_nth (by omega), drop_drop]

variable {c : NodeChain D}

/-- At the height of the chain, the window is on it only if it is all of it. -/
theorem Sound.digests_eq_iff (h : s.Sound start blocks) (hle : c.blocks.length ≤ s.scanned start) :
    s.wallet.scanner.digests = (s.unconfirmed c).map RpcWalletBlock.hash ↔
      s.wallet.scanner.digests <+: (s.unconfirmed c).map RpcWalletBlock.hash := by
  refine ⟨fun heq => heq ▸ prefix_rfl, fun hon => hon.eq_of_length_le ?_⟩
  have hlength := congrArg length h.tracks.digests
  dsimp only at hlength
  rw [hlength, h.unconfirmed_eq, length_map, length_map, length_drop, length_drop]
  rw [scanned, length_append] at hle
  omega

theorem Sound.absorbed_iff (h : s.Sound start blocks)
    {outcome : Except (SyncError D) (List (WalletEvent D))} (hlast : s.last = some (c, outcome)) :
    s.Absorbed ↔ outcome ≠ .error (.advance .unrecoverableReorg) ∧
      (c.blocks.length ≤ s.scanned start →
        s.wallet.scanner.digests <+: (s.unconfirmed c).map RpcWalletBlock.hash) := by
  have hlength := c.length_lt
  have hle : c.heightCall ≤ s.tipHeight ↔ c.blocks.length ≤ s.scanned start := by
    rw [h.tipHeight_eq]
    exact nth_le_nth_iff (by omega) h.scanned_lt
  rw [Absorbed, hlast]
  simp only [mem_some_iff, forall_eq', hle]
  refine and_congr_right fun _ => forall_congr' fun hcaught => ?_
  exact h.digests_eq_iff hcaught

section
variable (h : s.Sound start blocks) (hinj : Set.InjOn RpcWalletBlock.hash blocks)
  (hc : ∀ b ∈ c.blocks, b ∈ blocks)
  (hsettled : s.window.settled <+: c.blocks.drop start.value.val)
include h hinj hc hsettled

/-- Where the confirmed blocks are on a chain, the window is on it exactly if all scanned blocks
are. -/
theorem Sound.digests_isPrefix_iff :
    s.wallet.scanner.digests <+: (s.unconfirmed c).map RpcWalletBlock.hash ↔
      s.window.settled ++ s.window.recent <+: c.blocks.drop start.value.val := by
  have hdigests := h.tracks.digests
  dsimp only at hdigests
  rw [hdigests, h.unconfirmed_eq]
  obtain ⟨rest, hrest⟩ := hsettled
  rw [← hrest, drop_left, prefix_append_right_inj]
  constructor
  · intro hmap
    refine isPrefix_of_map ?_ hmap
    intro x hx y hy hxy
    obtain ⟨c', hc', hscanned⟩ := h.exists_chain
    have hx' : x ∈ blocks := by
      refine hc' x (mem_of_mem_drop (hscanned.subset ?_))
      exact mem_append_right _ hx
    have hy' : y ∈ blocks := by
      have hdrop : y ∈ c.blocks.drop start.value.val := by
        rw [← hrest]
        exact mem_append_right _ hy
      exact hc y (mem_of_mem_drop hdrop)
    exact hinj hx' hy' hxy
  · intro hrecent
    exact hrecent.map _

/-- A window that is not on the chain does not hold the parent of the next block of the chain. -/
theorem Sound.attachPoint_eq_none [DecidableEq D] {b : RpcWalletBlock D}
    (hb : c.blocks[s.scanned start]? = some b)
    (hnot : ¬ s.window.settled ++ s.window.recent <+: c.blocks.drop start.value.val) :
    attachPoint b.prevBlockDigest (s.window.recent.map RpcWalletBlock.hash) = none := by
  rw [attachPoint_eq_none_iff]
  refine ⟨fun hnil => hnot ?_, fun hmem => hnot ?_⟩
  · rw [map_eq_nil_iff] at hnil
    rwa [hnil, append_nil]
  · obtain ⟨a, ha, hparent⟩ := mem_map.mp hmem
    obtain ⟨c', hc', rest, hrest⟩ := h.exists_chain
    have hlinked : IsLinked RpcWalletBlock.hash prevBlockDigest
        (s.window.settled ++ s.window.recent) := by
      have hlinked := c'.linked.drop start.value.val
      rw [← hrest] at hlinked
      exact hlinked.left_of_append
    have hnext : (c.blocks.drop start.value.val)[(s.window.settled ++ s.window.recent).length]? =
        some b := by
      rw [getElem?_drop]
      exact hb
    have hknown : ∀ x ∈ s.window.settled ++ s.window.recent ++ c.blocks.drop start.value.val,
        x ∈ blocks := by
      intro x hx
      cases mem_append.mp hx with
      | inl hx =>
        have hx' : x ∈ c'.blocks.drop start.value.val := by
          rw [← hrest]
          exact mem_append_left _ hx
        exact hc' x (mem_of_mem_drop hx')
      | inr hx => exact hc x (mem_of_mem_drop hx)
    refine isPrefix_of_parent (fun x hx y hy => hinj (hknown x hx) (hknown y hy)) hlinked
      (c.linked.drop _) ?_ hnext (mem_append_right _ ha) hparent.symm
    intro i j x hi hj
    have hi' : (c'.blocks.drop start.value.val)[i]? = some x := by
      rw [← hrest, getElem?_append_left (List.getElem?_eq_some_iff.mp hi).1]
      exact hi
    exact NodeChain.eq_of_getElem?_drop hi' hj

end

theorem seen_of_within {c : HonestSync D} (hwithin : Within blocks (.sync c)) (tip : BlockHeight) :
    ∀ b ∈ (c.seen tip).blocks, b ∈ blocks := by
  rw [HonestSync.seen]
  split
  · exact hwithin.1
  · exact hwithin.2

theorem settled_isPrefix_of_deep {c : HonestSync D} (hdeep : s.Deep start (.sync c)) :
    s.window.settled <+: (c.seen s.tipHeight).blocks.drop start.value.val := by
  rw [HonestSync.seen]
  split
  · exact hdeep.1
  · exact hdeep.2

variable [DecidableEq D]

/-- A window on the chain stays on it when the next blocks are added. -/
theorem settled_append_recent_isPrefix (depth k : ℕ)
    (hon : s.window.settled ++ s.window.recent <+: c.blocks.drop start.value.val) :
    let w := s.window.advance RpcWalletBlock.hash prevBlockDigest depth
      ((c.blocks.drop (s.scanned start)).take k)
    IsLinked RpcWalletBlock.hash prevBlockDigest
        (s.window.settled ++ s.window.recent ++ (c.blocks.drop (s.scanned start)).take k) ∧
      w.settled ++ w.recent <+: c.blocks.drop start.value.val := by
  obtain ⟨rest, hrest⟩ := hon
  have hdrop : c.blocks.drop (s.scanned start) = rest := by
    rw [scanned, ← drop_drop, ← hrest, drop_left]
  have hlinked : IsLinked RpcWalletBlock.hash prevBlockDigest
      (s.window.settled ++ s.window.recent ++ rest.take k) := by
    have hchain := c.linked.drop start.value.val
    rw [← hrest, ← take_append_drop k rest, ← append_assoc] at hchain
    exact hchain.left_of_append
  rw [hdrop]
  refine ⟨hlinked, ?_⟩
  rw [ChainWindow.settled_append_recent_advance hlinked, ← hrest, prefix_append_right_inj]
  exact take_prefix k rest

end

section
variable {D : Type} [DecidableEq D] [Tip5 D] [ConsensusOps D] [DigestOps D] [NoteOps D] [MmrOps D]

/-- A batch with a parent that is not in the window is the only cause of the error. -/
theorem unrecoverableReorg_iff {b : RpcWalletBlock D} {bs : List (RpcWalletBlock D)}
    {s s' : ChainScanner D} {result : Except (AdvanceError D) (List (IncomingUtxo D))}
    (h : (ChainScanner.advance (b :: bs)).start s = some (result, s')) :
    result = .error .unrecoverableReorg ↔ attachPoint b.prevBlockDigest s.digests = none := by
  cases ChainScanner.advanced_of_start h with
  | lost hpoint => exact iff_of_true rfl hpoint
  | broken hpoint _ _ =>
    rw [hpoint]
    refine iff_of_false (fun herror => ?_) (some_ne_none _)
    cases herror
  | confirmed _ hpoint _ _ _ =>
    rw [hpoint]
    refine iff_of_false (fun herror => ?_) (some_ne_none _)
    cases herror

/-- An honest call of `sync` passes the blocks to the scanner, and adds the coins that it gets. -/
theorem exists_advance_of_sync {c : HonestSync D} {w w' : Wallet D}
    {outcome : Except (SyncError D) (List (WalletEvent D))}
    (h : (Wallet.sync c.rpc c.fuel).start w = some (outcome, w')) :
    ∃ result, (ChainScanner.advance (c.received w.scanner.tipHeight)).start w.scanner =
        some (result, w'.scanner) ∧
      (outcome = .error (.advance .unrecoverableReorg) ↔ result = .error .unrecoverableReorg) ∧
      outcome.isOk = result.isOk ∧
      ∃ added request, (w.utxos.addUtxos c.rpc.restoreMembershipProof c.fuel 0
        (Follower.received result)).Returns (added, w'.utxos, request) := by
  obtain ⟨networkHeight, found, scanner, result, hheight, -, hchain, rfl⟩ :=
    Wallet.exists_of_start_sync h
  rw [c.height_eq] at hheight
  cases hheight
  cases hchain with
  | caughtUp htip =>
    rw [HonestSync.received, if_pos htip]
    exact ⟨.ok [], rfl, by simp [Except.map], rfl, [], 0, Fallible.returns_pure.mpr rfl⟩
  | refused _ hblocks =>
    rw [Wallet.requestBlocks, c.getBlocks_eq] at hblocks
    cases hblocks
  | received htip hblocks hreceived =>
    rw [Wallet.requestBlocks, c.getBlocks_eq] at hblocks
    cases hblocks
    rw [HonestSync.received, if_neg htip]
    cases hreceived with
    | failed hadvance =>
      exact ⟨_, hadvance, by simp [Except.map], rfl, [], 0, Fallible.returns_pure.mpr rfl⟩
    | added hadvance hadd => exact ⟨_, hadvance, by simp [Except.map], rfl, _, _, hadd⟩

variable {start : BlockHeight} {blocks : Set (RpcWalletBlock D)} {s s' : ChainWatch D}

/-- The state after a call of `sync`. -/
def synced (s : ChainWatch D) (c : HonestSync D) (w : Wallet D)
    (outcome : Except (SyncError D) (List (WalletEvent D))) : ChainWatch D where
  wallet := w
  window := s.window.advance RpcWalletBlock.hash prevBlockDigest
    s.wallet.scanner.confirmationDepth (c.received s.tipHeight)
  last := some (c.seen s.tipHeight, outcome)

section Synced
variable {c : HonestSync D} {w : Wallet D}
  {o : Except (SyncError D) (List (WalletEvent D))}
  {result : Except (AdvanceError D) (List (IncomingUtxo D))}
  (hinj : Set.InjOn RpcWalletBlock.hash blocks) (hs : s.Sound start blocks)
  (hwithin : Within blocks (.sync c)) (hdeep : s.Deep start (.sync c))
  (hadvance : (ChainScanner.advance (c.received s.tipHeight)).start s.wallet.scanner =
    some (result, w.scanner))
include hs hadvance

theorem Sound.tracks_synced :
    (⟨w.scanner, (s.synced c w o).window, []⟩ : Follower D).Tracks start := by
  have hfollow := hs.tracks.call (Follower.call_eq_some_iff.mpr ⟨result, _, hadvance, rfl⟩)
  exact ⟨hfollow.digests, hfollow.height⟩

include hinj hwithin hdeep

/-- If the window is on the chain, the batch continues it. -/
theorem Sound.synced_of_canonical (hc : s.Canonical (.sync c)) :
    (s.synced c w o).Sound start blocks ∧ result.isOk = true ∧
      (s.synced c w o).scanned start = s.scanned start + (c.received s.tipHeight).length ∧
      (s.synced c w o).window.settled ++ (s.synced c w o).window.recent <+:
        (c.seen s.tipHeight).blocks.drop start.value.val := by
  have hknown := seen_of_within hwithin s.tipHeight
  have hcanonical := (hs.digests_isPrefix_iff hinj hknown (settled_isPrefix_of_deep hdeep)).mp hc
  obtain ⟨k, hreceived, -⟩ := c.exists_received_eq hs.scanned_lt
  rw [← hs.tipHeight_eq] at hreceived
  obtain ⟨hlinked, hstays⟩ := settled_append_recent_isPrefix
    s.wallet.scanner.confirmationDepth k hcanonical
  rw [← hreceived] at hlinked hstays
  refine ⟨⟨hs.tracks_synced hadvance, _, hknown, hstays⟩, ?_, ?_, hstays⟩
  · exact ChainScanner.isOk_of_isLinked hs.tracks.digests hlinked hadvance
  · rw [scanned, synced, ChainWindow.settled_append_recent_advance hlinked, length_append, scanned,
      Nat.add_assoc]

/-- If the window is not on the chain, the wallet is told of no blocks, or it does not know the
parent of the first one. -/
theorem Sound.synced_of_not_canonical (hc : ¬ s.Canonical (.sync c)) :
    (s.synced c w o).Sound start blocks ∧ ((s.synced c w o).window = s.window ∧
          (c.seen s.tipHeight).blocks.length ≤ (s.synced c w o).scanned start ∨
        result = .error .unrecoverableReorg) := by
  have hknown := seen_of_within hwithin s.tipHeight
  have hsettled := settled_isPrefix_of_deep hdeep
  have hcanonical := hs.digests_isPrefix_iff hinj hknown hsettled
  have htracks := hs.tracks_synced (o := o) hadvance
  obtain ⟨k, hreceived, hempty⟩ := c.exists_received_eq hs.scanned_lt
  rw [← hs.tipHeight_eq] at hreceived hempty
  cases hbatch : c.received s.tipHeight with
  | nil =>
    have hwindow : (s.synced c w o).window = s.window := by
      rw [synced, hbatch]
      rfl
    refine ⟨⟨htracks, by rw [hwindow]; exact hs.exists_chain⟩, Or.inl ⟨hwindow, ?_⟩⟩
    rw [scanned, hwindow]
    exact hempty hbatch
  | cons b bs =>
    have hnext : (c.seen s.tipHeight).blocks[s.scanned start]? = some b := by
      have hhead := congrArg head? (hreceived.symm.trans hbatch)
      rw [head?_take, head?_drop, head?_cons] at hhead
      exact (ite_none_left_eq_some.mp hhead).2
    have hpoint := hs.attachPoint_eq_none hinj hknown hsettled hnext
      fun hon => hc (hcanonical.mpr hon)
    have hwindow : (s.synced c w o).window = { s.window with recent := [] } := by
      simp only [synced, hbatch, ChainWindow.advance, hpoint]
    rw [hbatch] at hadvance
    have hdigests : s.wallet.scanner.digests = s.window.recent.map RpcWalletBlock.hash :=
      hs.tracks.digests
    rw [← hdigests] at hpoint
    refine ⟨⟨htracks, _, hknown, ?_⟩, Or.inr ((unrecoverableReorg_iff hadvance).mpr hpoint)⟩
    rw [hwindow, append_nil]
    exact hsettled

/-- What was scanned is the start of a chain, whatever the node answers. -/
theorem Sound.synced : (s.synced c w o).Sound start blocks := by
  by_cases hc : s.Canonical (.sync c)
  · exact (hs.synced_of_canonical hinj hwithin hdeep hadvance hc).1
  · exact (hs.synced_of_not_canonical hinj hwithin hdeep hadvance hc).1

/-- The blocks of the window are on the chain after the call exactly if they were before, or the
wallet has lost its window. -/
theorem Sound.digests_synced (hok : result ≠ .error .unrecoverableReorg)
    (hon : (c.seen s.tipHeight).blocks.length ≤ (s.synced c w o).scanned start →
      w.scanner.digests <+: ((s.synced c w o).unconfirmed (c.seen s.tipHeight)).map
        RpcWalletBlock.hash) : s.Canonical (.sync c) := by
  by_contra hc
  have hknown := seen_of_within hwithin s.tipHeight
  have hsettled := settled_isPrefix_of_deep hdeep
  obtain ⟨hsound, hwindow | hlost⟩ := hs.synced_of_not_canonical (o := o) hinj hwithin
    hdeep hadvance hc
  · have hon' := (hsound.digests_isPrefix_iff hinj hknown (hwindow.1.symm ▸ hsettled)).mp
      (hon hwindow.2)
    rw [hwindow.1] at hon'
    exact hc ((hs.digests_isPrefix_iff hinj hknown hsettled).mpr hon')
  · exact hok hlost

end Synced

variable [CoinOps D] [WalletOps D] [TransactionOps D] [IterOrder]

theorem absorbed_sync_iff (hinj : Set.InjOn RpcWalletBlock.hash blocks) {c : HonestSync D}
    (hs : s.Sound start blocks) (hwithin : Within blocks (.sync c))
    (hdeep : s.Deep start (.sync c)) (hcall : s.call (.sync c) = some s') :
    (s'.Absorbed ↔ s.Canonical (.sync c)) ∧ s'.Sound start blocks := by
  simp only [call, bind_eq_some, Prod.exists, some_inj] at hcall
  obtain ⟨outcome, w, hstart, rfl⟩ := hcall
  obtain ⟨result, hadvance, houtcome, -⟩ := exists_advance_of_sync hstart
  have hsound : (s.synced c w outcome).Sound start blocks :=
    hs.synced hinj hwithin hdeep hadvance
  refine ⟨(hsound.absorbed_iff rfl).trans ⟨fun h => ?_, fun hc => ?_⟩, hsound⟩
  · exact hs.digests_synced hinj hwithin hdeep hadvance (fun hlost => h.1 (houtcome.mpr hlost)) h.2
  · obtain ⟨-, hok, -, hstays⟩ := hs.synced_of_canonical (o := outcome) hinj hwithin hdeep
      hadvance hc
    refine ⟨fun hlost => ?_, fun _ => ?_⟩
    · rw [houtcome.mp hlost] at hok
      cases hok
    · exact (hsound.digests_isPrefix_iff hinj (seen_of_within hwithin _)
        ((prefix_append _ _).trans hstays)).mpr hstays

section
omit [DecidableEq D] [DigestOps D] [NoteOps D] [MmrOps D] [CoinOps D] [WalletOps D]
  [TransactionOps D] [IterOrder]

theorem Sound.of_keys (h : s.Sound start blocks) {w : Wallet D}
    (hblocks : w.scanner.confirmingBlocks = s.wallet.scanner.confirmingBlocks)
    (hheight : w.scanner.height = s.wallet.scanner.height) :
    Sound start blocks (⟨w, s.window, none⟩ : ChainWatch D) := by
  have hdigests := h.tracks.digests
  rw [ChainScanner.digests] at hdigests
  refine ⟨⟨?_, ?_⟩, h.exists_chain⟩
  · rw [ChainScanner.digests, hblocks, hdigests]
  · exact hheight.trans h.tracks.height

/-- Nothing has been scanned yet. -/
theorem sound_empty {w : Wallet D} (hw : w.scanner.confirmingBlocks = [])
    (blocks : Set (RpcWalletBlock D)) :
    Sound w.scanner.height blocks (⟨w, .empty, none⟩ : ChainWatch D) := by
  refine ⟨⟨?_, (addUsize_zero _).symm⟩, ⟨[], isChain_nil, ?_, ?_⟩, ?_, ?_⟩
  · rw [ChainScanner.digests, hw]
    rfl
  · simp
  · rw [length_nil, Nat.zero_add]
    decide
  · simp
  · exact nil_prefix

theorem absorbed_of_last_eq_none (h : s.last = none) : s.Absorbed := by
  intro r hr
  rw [h] at hr
  cases hr

end

theorem absorbed_call_iff (hinj : Set.InjOn RpcWalletBlock.hash blocks) {c : OnlineCall D}
    (hs : s.Sound start blocks) (hwithin : Within blocks c) (hdeep : s.Deep start c)
    (hcall : s.call c = some s') : (s'.Absorbed ↔ s.Canonical c) ∧ s'.Sound start blocks := by
  cases c with
  | nextAddress keyType =>
    simp only [call, Wallet.start_nextAddress, some_bind, some_inj] at hcall
    subst hcall
    exact ⟨iff_of_true (absorbed_of_last_eq_none rfl) trivial, hs.of_keys rfl rfl⟩
  | send rpc fuel recipient amount fee timestamp =>
    simp only [call, bind_eq_some, Prod.exists, some_inj] at hcall
    obtain ⟨outcome, w, hstart, rfl⟩ := hcall
    obtain ⟨transaction, hprepare⟩ := Wallet.exists_of_start_send hstart
    obtain ⟨_, _, _, _, _, _, _, _, _, _, _, rfl⟩ :=
      Wallet.exists_of_start_prepareTransaction hprepare
    exact ⟨iff_of_true (absorbed_of_last_eq_none rfl) trivial, hs.of_keys rfl rfl⟩
  | sync c => exact absorbed_sync_iff hinj hs hwithin hdeep hcall

/-- In a run from an empty window, no call of `sync` fails for a reorganization, and each one that
catches up leaves the last blocks of the chain in the window, exactly if the blocks of the window
are on the chain whenever the node is asked. -/
theorem absorbs_iff (hinj : Set.InjOn RpcWalletBlock.hash blocks) {w : Wallet D}
    (hw : w.scanner.confirmingBlocks = []) {calls : List (OnlineCall D)} {ss : List (ChainWatch D)}
    (ht : trace call ⟨w, .empty, none⟩ calls = some ss) (hwithin : ∀ c ∈ calls, Within blocks c)
    (hdeep : ∀ x ∈ steps ⟨w, .empty, none⟩ calls ss, x.1.Deep w.scanner.height x.2) :
    (∀ s ∈ ss, s.Absorbed) ↔ ∀ x ∈ steps ⟨w, .empty, none⟩ calls ss, x.1.Canonical x.2 := by
  refine forall_trace_iff_of_invariant (I := Sound w.scanner.height blocks)
    (A := fun s c => Within blocks c ∧ s.Deep w.scanner.height c)
    (fun s c s' hs hA hcall => ?_) ?_ ht ?_
  · have h := absorbed_call_iff hinj hs hA.1 hA.2 hcall
    exact ⟨h.1, fun _ => h.2⟩
  · exact sound_empty hw blocks
  · intro x hx
    exact ⟨hwithin _ (of_mem_zip hx).2, hdeep x hx⟩

end

end ChainWatch

/-! ## A chain with a fork -/

namespace Fork

def block (height : ℕ) (parent : SymbolicDigest) (tag : ℕ) : RpcWalletBlock SymbolicDigest where
  kernel :=
    { header := { BlockHeader.genesis .main with height := .nth height, prevBlockDigest := parent }
      body :=
        { transactionKernel := ⟨[], [], [], .coins 0, none, .millis 0, .zero, true⟩
          mutatorSetAccumulator := .empty
          lockFreeMmrAccumulator := .empty
          blockMmrAccumulator := .empty }
      appendix := ⟨[]⟩ }
  proofLeaf := .atom tag

def blocks (height : ℕ) (parent : SymbolicDigest) : List ℕ → List (RpcWalletBlock SymbolicDigest)
  | [] => []
  | tag :: tags =>
    block height parent tag :: blocks (height + 1) (block height parent tag).hash tags

theorem length_blocks (height : ℕ) (parent : SymbolicDigest) (tags : List ℕ) :
    (blocks height parent tags).length = tags.length := by
  induction tags generalizing height parent with
  | nil => rfl
  | cons tag tags ih => rw [blocks, length_cons, length_cons, ih]

theorem isLinked_blocks (height : ℕ) (parent : SymbolicDigest) (tags : List ℕ) :
    IsLinked RpcWalletBlock.hash prevBlockDigest (blocks height parent tags) := by
  induction tags generalizing height parent with
  | nil => exact isChain_nil
  | cons tag tags ih =>
    refine isChain_cons.mpr ⟨fun b hb => ?_, ih _ _⟩
    cases tags with
    | nil => cases hb
    | cons tag' tags =>
      cases hb
      rfl

theorem height_of_getElem?_blocks {height i : ℕ} {parent : SymbolicDigest} {tags : List ℕ}
    {b : RpcWalletBlock SymbolicDigest} (hb : (blocks height parent tags)[i]? = some b) :
    b.kernel.header.height = .nth (i + height) := by
  induction tags generalizing height parent i with
  | nil => cases hb
  | cons tag tags ih =>
    cases i with
    | zero =>
      cases hb
      rw [Nat.zero_add]
      rfl
    | succ i =>
      rw [blocks, getElem?_cons_succ] at hb
      rw [ih hb, Nat.add_right_comm, Nat.add_assoc]

def chain (tags : List ℕ) (hlength : tags.length + walletBatchSize < BFieldElement.modulus) :
    NodeChain SymbolicDigest where
  blocks := blocks 1 .zero tags
  linked := isLinked_blocks 1 .zero tags
  heights _ _ hb := height_of_getElem?_blocks hb
  length_lt := by rwa [length_blocks]

def sync (tags : List ℕ) (hlength : tags.length + walletBatchSize < BFieldElement.modulus) :
    OnlineCall SymbolicDigest :=
  .sync
    { rpc := { SymbolicDigest.idleAnswers with
        height := .ok (chain tags hlength).heightCall
        getBlocks := fun fromHeight toHeight =>
          .ok ((chain tags hlength).getBlocksCall false fromHeight toHeight) }
      fuel := 1
      atHeight := chain tags hlength
      atBlocks := chain tags hlength
      unrestricted := false
      height_eq := rfl
      getBlocks_eq := fun _ _ => rfl }

section

local instance keptOrder : IterOrder := .asKept

def start : ChainWatch SymbolicDigest :=
  ⟨.new SymbolicDigest.entropy (some ⟨1⟩) .main, .empty, none⟩

def extension : List (OnlineCall SymbolicDigest) :=
  [sync [0, 0] (by decide), sync [0, 0, 0] (by decide)]

def replacement : List (OnlineCall SymbolicDigest) :=
  [sync [0, 0, 0] (by decide), sync [0, 0, 1, 1] (by decide)]

/-- The chain grows by a block between two calls. -/
theorem absorbs_extension : ∃ ss, trace ChainWatch.call start extension = some ss ∧
      ss.map (fun s => s.window.recent.length) = [1, 2] ∧ ∀ s ∈ ss, s.Absorbed := by
  have hrun : ∃ ss, trace ChainWatch.call start extension = some ss ∧
      ss.map (fun s => s.window.recent.length) = [1, 2] ∧
        ∀ x ∈ steps start extension ss, x.1.Deep ⟨1⟩ x.2 ∧ x.1.Canonical x.2 := by
    decide +kernel
  have hinj : ∀ a ∈ blocks 1 .zero [0, 0, 0], ∀ b ∈ blocks 1 .zero [0, 0, 0],
      a.hash = b.hash → a = b := by
    decide +kernel
  have hwithin : ∀ c ∈ extension, ChainWatch.Within {b | b ∈ blocks 1 .zero [0, 0, 0]} c := by
    have hshort : ∀ b ∈ blocks 1 .zero [0, 0], b ∈ blocks 1 .zero [0, 0, 0] := by
      decide +kernel
    rw [extension, forall_mem_cons, forall_mem_singleton]
    exact ⟨⟨hshort, hshort⟩, fun b hb => hb, fun b hb => hb⟩
  obtain ⟨ss, hss, hlengths, hsteps⟩ := hrun
  refine ⟨ss, hss, hlengths, ?_⟩
  exact (ChainWatch.absorbs_iff (fun a ha b hb => hinj a ha b hb) rfl hss hwithin
    fun x hx => (hsteps x hx).1).mpr fun x hx => (hsteps x hx).2

/-- No block was confirmed, and the new chain is one block longer; still the wallet does not find
the fork. -/
theorem replacement_not_absorbed : ∃ ss, trace ChainWatch.call start replacement = some ss ∧
      (∀ x ∈ steps start replacement ss, x.1.Deep ⟨1⟩ x.2) ∧ ss.map (fun s => s.last.map (·.2)) =
        [some (.ok []), some (.error (.advance .unrecoverableReorg))] ∧ ∃ s ∈ ss, ¬ s.Absorbed := by
  decide +kernel

end

end Fork

end NyksNode
