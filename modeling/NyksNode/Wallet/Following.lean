import NyksNode.Lib.Trace
import NyksNode.Wallet.ChainScanner

/-!
# Following one chain, and handing over each coin once

The scanner is watched over a run of calls: beside it are the blocks that were confirmed, those in
the window, and the outcomes so far.  `Follower.Tracks` says that the window and the height are
those of the scanner.

After an unrecoverable reorganization the window is empty, and the next batch is not compared with
the last confirmed block.  If no block has been confirmed by then, the scan tip is at genesis once
more, and the coins of the genesis block are handed over again; they are lost if the first batch is
not linked.
-/

namespace NyksNode

open List Option ChainScanner ChainWindow Effect

open RpcWalletBlock (prevBlockDigest)

/-- The scanner, with the blocks that it has confirmed and those in the window, and the calls that
were made. -/
structure Follower (D : Type) where
  scanner : ChainScanner D
  window : ChainWindow (RpcWalletBlock D)
  log : List (List (RpcWalletBlock D) × Except (AdvanceError D) (List (IncomingUtxo D)))

namespace Follower
variable {D : Type}

def new (startHeight : Option BlockHeight) (confirmationDepth : Option ℕ)
    (keys : List (ViewingKey D)) (network : Network) : Follower D :=
  ⟨.new startHeight confirmationDepth keys network, .empty, []⟩

def received : Except (AdvanceError D) (List (IncomingUtxo D)) → List (IncomingUtxo D)
  | .ok utxos => utxos
  | .error _ => []

def returned (f : Follower D) : List (IncomingUtxo D) := f.log.flatMap fun c => received c.2

/-- A batch with a block was passed. -/
def Started (f : Follower D) : Prop := ∃ c ∈ f.log, c.1 ≠ []

instance (f : Follower D) : Decidable f.Started := by
  unfold Started
  infer_instance

variable [DecidableEq D] [Tip5 D] [ConsensusOps D]

/-- The window and the height are those of the scanner. -/
structure Tracks (startHeight : BlockHeight) (f : Follower D) : Prop where
  digests : f.scanner.digests = f.window.recent.map (·.hash)
  height : f.scanner.height = startHeight.addUsize f.window.settled.length

variable [DigestOps D] [NoteOps D] [MmrOps D]

def call (f : Follower D) (batch : List (RpcWalletBlock D)) : Option (Follower D) := do
  let (outcome, scanner) ← (ChainScanner.advance batch).start f.scanner
  some
    { scanner := scanner
      window := f.window.advance RpcWalletBlock.hash prevBlockDigest f.scanner.confirmationDepth
        batch
      log := f.log ++ [(batch, outcome)] }

end Follower

namespace ChainScanner
variable {D : Type} [DecidableEq D] [Tip5 D] [ConsensusOps D] [DigestOps D] [NoteOps D] [MmrOps D]
  {window : ChainWindow (RpcWalletBlock D)} {s s' : ChainScanner D}
  {batch : List (RpcWalletBlock D)} {result : Except (AdvanceError D) (List (IncomingUtxo D))}

/-- What a call does in terms of the blocks: the entries that leave the window belong to the blocks
that are settled, and their coins are handed over, after those of the genesis block if the scan tip
is there. -/
structure Promotes (R : RpcWalletBlock D → D × List (IncomingUtxo D) → Prop)
    (window window' : ChainWindow (RpcWalletBlock D)) (s s' : ChainScanner D)
    (batch : List (RpcWalletBlock D)) (result : Except (AdvanceError D) (List (IncomingUtxo D)))
    (blocks : List (RpcWalletBlock D)) (entries : List (D × List (IncomingUtxo D))) : Prop where
  recent : List.Forall₂ R window'.recent s'.confirmingBlocks
  settled_eq : window'.settled = window.settled ++ blocks
  settled : List.Forall₂ R blocks entries
  height_eq : s'.height = s.height.addUsize blocks.length
  keys_eq : s'.keys = s.keys
  network_eq : s'.network = s.network
  received : (batch = [] ∨ result.isOk = false) ∧ Follower.received result = [] ∧ blocks = [] ∨
    batch ≠ [] ∧ ∃ genesis, (if s.tipHeight = .genesis then scanGenesis s.keys s.network
      else some []) = some genesis ∧ Follower.received result = genesis ++ entries.flatMap (·.2)

theorem exists_promotes {R : RpcWalletBlock D → D × List (IncomingUtxo D) → Prop}
    (hR : ∀ b e, Scans s.keys b e → R b e)
    (hdigests : s.digests = window.recent.map RpcWalletBlock.hash)
    (hentries : List.Forall₂ R window.recent s.confirmingBlocks)
    (h : (advance batch).start s = some (result, s')) :
    ∃ blocks entries, Promotes R window (window.advance RpcWalletBlock.hash prevBlockDigest
      s.confirmationDepth batch) s s' batch result blocks entries := by
  have hheight := (BlockHeight.addUsize_zero s.height).symm
  cases advanced_of_start h with
  | ignored =>
    exact ⟨[], [], hentries, (append_nil _).symm, .nil, hheight, rfl, rfl,
      Or.inl ⟨Or.inl rfl, rfl, rfl⟩⟩
  | lost hpoint =>
    rw [hdigests] at hpoint
    simp only [ChainWindow.advance, hpoint]
    exact ⟨[], [], .nil, (append_nil _).symm, .nil, hheight, rfl, rfl,
      Or.inl ⟨Or.inr rfl, rfl, rfl⟩⟩
  | broken hpoint hscans hlength =>
    rw [hdigests] at hpoint
    simp only [ChainWindow.advance, hpoint, if_neg hlength]
    exact ⟨[], [], rel_append (forall₂_take _ hentries) (hscans.imp hR), (append_nil _).symm, .nil,
      hheight, rfl, rfl, Or.inl ⟨Or.inr rfl, rfl, rfl⟩⟩
  | @confirmed first rest n blocks entries genesis hgenesis hpoint hscans hlength hblocks =>
    rw [hdigests] at hpoint
    have hnew : List.Forall₂ R (window.recent.take n ++
        linked first.prevBlockDigest (first :: rest)) blocks := by
      rw [hblocks]
      exact rel_append (forall₂_take _ hentries) (hscans.imp hR)
    simp only [ChainWindow.advance, hpoint, if_pos hlength, ChainWindow.settle]
    rw [hnew.length_eq]
    refine ⟨_, _, forall₂_drop _ hnew, rfl, forall₂_take _ hnew, ?_, rfl, rfl,
      Or.inr ⟨cons_ne_nil _ _, genesis, hgenesis, rfl⟩⟩
    rw [length_take, hnew.length_eq, Nat.min_eq_left (Nat.sub_le _ _)]

/-- A batch that continues the window is scanned. -/
theorem isOk_of_isLinked (hdigests : s.digests = window.recent.map RpcWalletBlock.hash)
    (hlinked : IsLinked RpcWalletBlock.hash prevBlockDigest
      (window.settled ++ window.recent ++ batch))
    (h : (advance batch).start s = some (result, s')) : result.isOk = true := by
  cases advanced_of_start h with
  | ignored | confirmed => rfl
  | lost hpoint =>
    rw [hdigests, attachPoint_of_isLinked hlinked] at hpoint
    cases hpoint
  | @broken b bs _ _ _ _ _ _ hlength =>
    have hall : linked b.prevBlockDigest (b :: bs) = b :: bs :=
      linkedTake_eq_self_iff.mpr ⟨hlinked.right_of_append, fun x hx => by cases hx; rfl⟩
    exact absurd (congrArg length hall) hlength

end ChainScanner

namespace Follower
variable {D : Type} [DecidableEq D] [Tip5 D] [ConsensusOps D] [DigestOps D] [NoteOps D] [MmrOps D]

variable {f f' : Follower D} {batch : List (RpcWalletBlock D)}

theorem call_eq_some_iff : f.call batch = some f' ↔ ∃ outcome scanner,
      (ChainScanner.advance batch).start f.scanner = some (outcome, scanner) ∧
      f' = ⟨scanner, f.window.advance RpcWalletBlock.hash prevBlockDigest
        f.scanner.confirmationDepth batch, f.log ++ [(batch, outcome)]⟩ := by
  simp only [call, bind_eq_some, Prod.exists, some_inj]
  constructor
  · intro h
    obtain ⟨outcome, scanner, hstart, heq⟩ := h
    exact ⟨outcome, scanner, hstart, heq.symm⟩
  · intro h
    obtain ⟨outcome, scanner, hstart, heq⟩ := h
    exact ⟨outcome, scanner, hstart, heq.symm⟩

omit [DecidableEq D] [DigestOps D] [NoteOps D] [MmrOps D] in
theorem tracks_new (startHeight : Option BlockHeight) (confirmationDepth : Option ℕ)
    (keys : List (ViewingKey D)) (network : Network) :
    (Follower.new startHeight confirmationDepth keys network).Tracks (startHeight.getD .genesis) :=
  ⟨rfl, (BlockHeight.addUsize_zero _).symm⟩

omit [DecidableEq D] [DigestOps D] [NoteOps D] [MmrOps D] in
theorem digests_eq_iff {scanner : ChainScanner D} {bs : List (RpcWalletBlock D)} :
    scanner.digests = bs.map RpcWalletBlock.hash ↔
      List.Forall₂ (fun b e => b.hash = e.1) bs scanner.confirmingBlocks := by
  rw [ChainScanner.digests, eq_comm, ← forall₂_eq_eq_eq, forall₂_map_left_iff,
    forall₂_map_right_iff]

theorem Tracks.call {startHeight : BlockHeight} (h : f.Tracks startHeight)
    (hcall : f.call batch = some f') : f'.Tracks startHeight := by
  obtain ⟨outcome, scanner, hstart, rfl⟩ := call_eq_some_iff.mp hcall
  obtain ⟨blocks, entries, hpromotes⟩ :=
    exists_promotes (fun _ _ hscans => hscans.1.symm) h.digests (digests_eq_iff.mp h.digests) hstart
  refine ⟨digests_eq_iff.mpr hpromotes.recent, ?_⟩
  rw [hpromotes.height_eq, h.height, hpromotes.settled_eq, length_append,
    BlockHeight.addUsize_addUsize]

/-- The confirmed blocks and the window are one chain, at every moment of a run, exactly if no batch
for an empty window leaves a gap to the last confirmed block. -/
theorem follows_one_chain_iff (startHeight : Option BlockHeight) (confirmationDepth : Option ℕ)
    (keys : List (ViewingKey D)) (network : Network) {batches : List (List (RpcWalletBlock D))}
    {fs : List (Follower D)}
    (ht : trace call (new startHeight confirmationDepth keys network) batches = some fs) :
    (∀ f ∈ fs, f.Tracks (startHeight.getD .genesis)) ∧
      ((∀ f ∈ fs, f.window.OneChain RpcWalletBlock.hash prevBlockDigest) ↔
        ∀ x ∈ steps (new startHeight confirmationDepth keys network) batches fs,
          x.1.window.Closed RpcWalletBlock.hash prevBlockDigest x.2) := by
  constructor
  · have htracks := tracks_new startHeight confirmationDepth keys network
    refine forall_trace_of_step (C := fun _ _ => True) ?_ htracks ht fun _ _ => trivial
    intro f batch f' hf _ hcall
    exact hf.call hcall
  · refine forall_trace_iff
      (I := fun f : Follower D => f.window.OneChain RpcWalletBlock.hash prevBlockDigest)
      (C := fun f batch => f.window.Closed RpcWalletBlock.hash prevBlockDigest batch) ?_
      oneChain_empty ht
    intro f batch f' hf hcall
    obtain ⟨outcome, scanner, -, rfl⟩ := call_eq_some_iff.mp hcall
    exact oneChain_advance_iff hf batch

/-! ## Coins -/

def coins (keys : List (ViewingKey D)) (b : RpcWalletBlock D) : List (IncomingUtxo D) :=
  (ChainScanner.scanBlock keys b.hash b.kernel).getD []

def genesisCoins (keys : List (ViewingKey D)) (network : Network) : List (IncomingUtxo D) :=
  (ChainScanner.scanGenesis keys network).getD []

/-- The allocations that the wallet knows are the outputs of the genesis block. -/
def Allocated (D : Type) [DecidableEq D] [Tip5 D] [ConsensusOps D] [DigestOps D] [NoteOps D]
    [MmrOps D] (network : Network) : Prop :=
  ∃ block : Block D, Block.genesis network = some block ∧
    ∃ allocations, Allocations.genesis network = some allocations ∧
      block.kernel.allAdditionRecords block.hash = .ok allocations.additionRecords

/-- The outputs of a block are among its leafs, and its fee is valid. -/
def Readable (b : RpcWalletBlock D) : Prop :=
  b.kernel.body.transactionKernel.outputs.length ≤
      b.kernel.body.mutatorSetAccumulator.aocl.leafCount ∧
    b.kernel.guesserFeeUtxos.isOk = true

omit [MmrOps D] in
theorem exists_scanBlock (keys : List (ViewingKey D)) {b : RpcWalletBlock D} (hb : Readable b) :
    ∃ utxos, scanBlock keys b.hash b.kernel = some utxos := by
  obtain ⟨hlength, hfee⟩ := hb
  rw [scanBlock, scanBlockForUtxos, if_neg hlength.not_gt, scanBlockForGuesserUtxos]
  cases hutxos : b.kernel.guesserFeeUtxos with
  | error e => simp [hutxos, Except.isOk, Except.toBool] at hfee
  | ok utxos => exact ⟨_, rfl⟩

omit [MmrOps D] in
theorem exists_start_scanBatch {blocks : List (RpcWalletBlock D)} (h : ∀ b ∈ blocks, Readable b)
    (parent : D) (s : ChainScanner D) : ∃ x, (scanBatch parent blocks).start s = some x := by
  induction blocks generalizing parent s with
  | nil => exact ⟨_, rfl⟩
  | cons b blocks ih =>
    rw [forall_mem_cons] at h
    rw [scanBatch]
    by_cases hb : b.prevBlockDigest = parent
    · obtain ⟨utxos, hutxos⟩ := exists_scanBlock s.keys h.1
      rw [if_neg (not_not.mpr hb), start_bind, start_read]
      simp only [bind_some, start_bind, start_orPanic, hutxos, map_some, start_update]
      exact ih h.2 _ _
    · rw [if_pos hb]
      exact ⟨_, rfl⟩

/-- A call returns if its blocks can be read and the genesis block is the one of the wallet. -/
theorem exists_call (hallocated : Allocated D f.scanner.network) (h : ∀ b ∈ batch, Readable b) :
    ∃ f', f.call batch = some f' ∧ f'.scanner.network = f.scanner.network := by
  have hstart : ∃ x, (ChainScanner.advance batch).start f.scanner = some x := by
    cases batch with
    | nil => exact ⟨_, rfl⟩
    | cons first rest =>
      have hgenesis : ∃ genesis, (if f.scanner.tipHeight = .genesis then
          scanGenesis f.scanner.keys f.scanner.network else some []) = some genesis := by
        obtain ⟨block, hblock, allocations, hallocations, hadditions⟩ := hallocated
        split
        · simp [scanGenesis, hblock, hallocations, hadditions, Except.toOption]
        · exact ⟨_, rfl⟩
      obtain ⟨genesis, hgenesis⟩ := hgenesis
      rw [ChainScanner.advance, start_bind, start_read]
      simp only [bind_some, start_bind, start_orPanic, hgenesis, map_some, start_reconnect]
      cases attachPoint first.prevBlockDigest f.scanner.digests with
      | none => exact ⟨_, rfl⟩
      | some n =>
        obtain ⟨⟨outcome, s⟩, hscan⟩ := exists_start_scanBatch h first.prevBlockDigest
          (f.scanner.withBlocks (f.scanner.confirmingBlocks.take n))
        simp only [bind_some, hscan]
        cases outcome <;> exact ⟨_, rfl⟩
  obtain ⟨⟨outcome, scanner⟩, hstart⟩ := hstart
  refine ⟨_, call_eq_some_iff.mpr ⟨outcome, scanner, hstart, rfl⟩, ?_⟩
  cases advanced_of_start hstart <;> rfl

/-- If the scan tip is at genesis, this is the first batch with a block, and the batch is linked. -/
def Calm (f : Follower D) (batch : List (RpcWalletBlock D)) : Prop :=
  batch ≠ [] → f.scanner.tipHeight = .genesis →
    ¬ f.Started ∧ IsLinked RpcWalletBlock.hash prevBlockDigest batch

/-- Everything was returned that had to be. -/
structure Delivered (keys : List (ViewingKey D)) (network : Network) (f : Follower D) : Prop where
  keys_eq : f.scanner.keys = keys
  network_eq : f.scanner.network = network
  entries : List.Forall₂ (ChainScanner.Scans keys) f.window.recent f.scanner.confirmingBlocks
  returned_eq : f.returned = (if f.Started then genesisCoins keys network else []) ++
    f.window.settled.flatMap (coins keys)
  fresh : ¬ f.Started → f.scanner.height = .genesis ∧ f.window = .empty

section
omit [DecidableEq D] [Tip5 D] [ConsensusOps D] [DigestOps D] [NoteOps D] [MmrOps D]

variable {outcome : Except (AdvanceError D) (List (IncomingUtxo D))}
  {window : ChainWindow (RpcWalletBlock D)} {scanner : ChainScanner D}

theorem started_append : (⟨scanner, window, f.log ++ [(batch, outcome)]⟩ : Follower D).Started ↔
      f.Started ∨ batch ≠ [] := by
  simp only [Started, mem_append, mem_singleton]
  constructor
  · intro h
    obtain ⟨c, hc, hne⟩ := h
    cases hc with
    | inl hmem => exact Or.inl ⟨c, hmem, hne⟩
    | inr heq => exact Or.inr (by rwa [heq] at hne)
  · intro h
    cases h with
    | inl hstarted =>
      obtain ⟨c, hmem, hne⟩ := hstarted
      exact ⟨c, Or.inl hmem, hne⟩
    | inr hne => exact ⟨_, Or.inr rfl, hne⟩

theorem returned_append : (⟨scanner, window, f.log ++ [(batch, outcome)]⟩ : Follower D).returned =
      f.returned ++ received outcome := by
  simp [returned]

end

omit [MmrOps D] in
theorem flatMap_snd_of_forall₂ {keys : List (ViewingKey D)} {bs : List (RpcWalletBlock D)}
    {entries : List (D × List (IncomingUtxo D))}
    (h : List.Forall₂ (ChainScanner.Scans keys) bs entries) :
    entries.flatMap (·.2) = bs.flatMap (coins keys) := by
  induction h with
  | nil => rfl
  | cons he _ ih => rw [flatMap_cons, flatMap_cons, ih, coins, he.2, getD_some]

/-- Before the first batch the scan tip is at genesis, so that batch is linked and put on an empty
window. -/
theorem Delivered.first {keys : List (ViewingKey D)} {network : Network}
    (h : f.Delivered keys network) (hcalm : f.Calm batch) (hnot : ¬ f.Started)
    (hne : batch ≠ []) : f.scanner.tipHeight = .genesis ∧ f.window = .empty ∧
      IsLinked RpcWalletBlock.hash prevBlockDigest batch := by
  obtain ⟨hheight, hwindow⟩ := h.fresh hnot
  have hempty : f.scanner.confirmingBlocks = [] := by
    have hentries := h.entries
    rw [hwindow] at hentries
    exact forall₂_nil_left_iff.mp hentries
  have htip : f.scanner.tipHeight = .genesis := by
    rw [tipHeight, hheight, hempty]
    rfl
  exact ⟨htip, hwindow, (hcalm hne htip).2⟩

theorem Delivered.call {keys : List (ViewingKey D)} {network : Network}
    (h : f.Delivered keys network) (hcalm : f.Calm batch) (hcall : f.call batch = some f') :
    f'.Delivered keys network := by
  obtain ⟨outcome, scanner, hstart, rfl⟩ := call_eq_some_iff.mp hcall
  have hdigests := digests_eq_iff.mpr (h.entries.imp fun _ _ hscans => hscans.1.symm)
  obtain ⟨blocks, entries, hpromotes⟩ :=
    exists_promotes (fun _ _ hscans => h.keys_eq ▸ hscans) hdigests h.entries hstart
  refine ⟨hpromotes.keys_eq.trans h.keys_eq, hpromotes.network_eq.trans h.network_eq,
    hpromotes.recent, ?_, fun hnot => ?_⟩
  · rw [returned_append, h.returned_eq, hpromotes.settled_eq, flatMap_append,
      ← flatMap_snd_of_forall₂ hpromotes.settled]
    rcases hpromotes.received with ⟨hidle, hnone, rfl⟩ | ⟨hne, genesis, hgenesis, hreceived⟩
    · -- nothing is handed over, and a batch that fails is not the first one
      have hstarted : f.Started ∨ batch = [] := by
        by_contra hnot
        rw [not_or] at hnot
        obtain ⟨-, hwindow, hlinked⟩ := h.first hcalm hnot.1 hnot.2
        have hok := isOk_of_isLinked hdigests (by simpa [hwindow, ChainWindow.empty] using hlinked)
          hstart
        rw [hidle.resolve_left hnot.2] at hok
        cases hok
      cases forall₂_nil_left_iff.mp hpromotes.settled
      rcases hstarted with hstarted | hnil
      · simp [started_append, hstarted, hnone]
      · simp [started_append, hnil, hnone]
    · rw [hreceived, if_pos (started_append.mpr (Or.inr hne))]
      by_cases hstarted : f.Started
      · have htip : f.scanner.tipHeight ≠ .genesis := fun htip => (hcalm hne htip).1 hstarted
        rw [if_neg htip, some_inj] at hgenesis
        rw [if_pos hstarted, ← hgenesis, nil_append, append_assoc]
      · obtain ⟨htip, hwindow, -⟩ := h.first hcalm hstarted hne
        rw [if_pos htip, h.keys_eq, h.network_eq] at hgenesis
        have hsettled : f.window.settled = [] := by rw [hwindow]; rfl
        rw [if_neg hstarted, hsettled, genesisCoins, hgenesis]
        rfl
  · obtain ⟨hfresh, hnil⟩ := not_or.mp (started_append.not.mp hnot)
    cases not_not.mp hnil
    cases hstart
    exact h.fresh hfresh

/-- Calls with blocks that can be read return, if the allocations are those of the genesis block.
If they are calm as well, the coins returned so far are those of the genesis block, once the first
batch was passed, and those of the confirmed blocks, each once and in order. -/
theorem returned_exactly_once (confirmationDepth : Option ℕ) (keys : List (ViewingKey D))
    {network : Network} (hallocated : Allocated D network)
    {batches : List (List (RpcWalletBlock D))}
    (hreadable : ∀ batch ∈ batches, ∀ b ∈ batch, Readable b) :
    ∃ fs, trace call (new none confirmationDepth keys network) batches = some fs ∧
      ((∀ x ∈ steps (new none confirmationDepth keys network) batches fs, x.1.Calm x.2) →
        ∀ f ∈ fs, f.Tracks .genesis ∧
          f.returned = (if f.Started then genesisCoins keys network else []) ++
            f.window.settled.flatMap (coins keys)) := by
  obtain ⟨fs, ht⟩ : ∃ fs, trace call (new none confirmationDepth keys network) batches = some fs :=
    exists_trace (I := fun f => f.scanner.network = network) (fun f hf batch hbatch => by
      obtain ⟨f', hcall, hnetwork⟩ := exists_call (hf ▸ hallocated) (hreadable batch hbatch)
      exact ⟨f', hcall, hnetwork.trans hf⟩) rfl
  refine ⟨fs, ht, fun hcalm f hf => ?_⟩
  have hinvariant := forall_trace_of_step
    (I := fun f : Follower D => f.Tracks .genesis ∧ f.Delivered keys network)
    (C := fun f batch => f.Calm batch)
    (fun f batch f' hf hcalm hcall => ⟨hf.1.call hcall, hf.2.call hcalm hcall⟩)
    ⟨tracks_new none confirmationDepth keys network, rfl, rfl, .nil, rfl, fun _ => ⟨rfl, rfl⟩⟩
    ht hcalm
  exact ⟨(hinvariant f hf).1, (hinvariant f hf).2.returned_eq⟩

end Follower

open Follower

/-! ## A detour -/

namespace Detour

/-- Digests with hexadecimal literals that are the commitments of the allocations of the first
testnet, as in the source. -/
@[reducible] def allocatedOps : DigestOps SymbolicDigest :=
  let records := ((Allocations.genesis (.testnet 0)).map Allocations.additionRecords).getD []
  { (inferInstance : DigestOps SymbolicDigest) with
    ofHex := fun s =>
      match s.toList.head?, records with
      | some 'a', r :: _ => r.canonicalCommitment
      | some '0', _ :: r :: _ => r.canonicalCommitment
      | _, _ => .zero }

def key : ViewingKey SymbolicDigest :=
  let address := ((Allocations.genesis (.testnet 0)).bind fun a => a.entries.head?.map (·.1)).getD
    ⟨.zero, .zero⟩
  ⟨.symmetric, address, .atom 7, [11]⟩

def block (parent : SymbolicDigest) (tag : ℕ) : RpcWalletBlock SymbolicDigest where
  kernel :=
    { header := { BlockHeader.genesis .main with height := ⟨1⟩, prevBlockDigest := parent }
      body :=
        { transactionKernel := ⟨[], [], [], .coins 0, none, .millis 0, .zero, true⟩
          mutatorSetAccumulator := .empty
          lockFreeMmrAccumulator := .empty
          blockMmrAccumulator := .empty }
      appendix := ⟨[]⟩ }
  proofLeaf := .atom tag

def chain (tag : ℕ) : ℕ → SymbolicDigest → List (RpcWalletBlock SymbolicDigest)
  | 0, _ => []
  | n + 1, parent => block parent tag :: chain tag n (block parent tag).hash

def tip (tag : ℕ) : ℕ → SymbolicDigest → SymbolicDigest
  | 0, parent => parent
  | n + 1, parent => tip tag n (block parent tag).hash

end Detour

open Detour

/-- Fourteen blocks, then the next one. -/
theorem follows_one_chain_straight : ∃ fs, trace call (Follower.new (some ⟨1⟩) none [] .main)
        [Detour.chain 0 14 .zero, Detour.chain 0 1 (Detour.tip 0 14 .zero)] = some fs ∧
      ∀ f ∈ fs, f.window.OneChain RpcWalletBlock.hash prevBlockDigest := by
  have hclosed : ∃ fs, trace call (Follower.new (some ⟨1⟩) none [] .main)
      [Detour.chain 0 14 .zero, Detour.chain 0 1 (Detour.tip 0 14 .zero)] = some fs ∧
      ∀ x ∈ steps (Follower.new (some ⟨1⟩) none [] .main)
        [Detour.chain 0 14 .zero, Detour.chain 0 1 (Detour.tip 0 14 .zero)] fs,
        x.1.window.Closed RpcWalletBlock.hash prevBlockDigest x.2 := by
    decide +kernel
  obtain ⟨fs, hfs, hsteps⟩ := hclosed
  exact ⟨fs, hfs, (follows_one_chain_iff (some ⟨1⟩) none [] .main hfs).2.mpr hsteps⟩

/-- After a reorganization that was reported, the scanner goes on with a block that has nothing to
do with the blocks it has confirmed. -/
theorem detour_not_one_chain : ∃ fs, trace call (Follower.new (some ⟨1⟩) none [] .main)
        [Detour.chain 0 14 .zero, Detour.chain 1 1 (.atom 77), Detour.chain 1 1 (.atom 78)] =
          some fs ∧ fs.map (fun f => f.window.settled.length) = [2, 2, 2] ∧
      fs.map (fun f => decide (f.window.OneChain RpcWalletBlock.hash prevBlockDigest)) =
        [true, true, false] := by
  decide +kernel

section

local instance Detour.digestOps : DigestOps SymbolicDigest := Detour.allocatedOps

/-- On the network whose allocations the genesis block has. -/
theorem returned_exactly_once_straight :
    ∃ fs, trace call (Follower.new none none [key] (.testnet 0))
        [Detour.chain 0 14 .zero] = some fs ∧ ∀ f ∈ fs, f.Tracks .genesis ∧ f.returned =
        (if f.Started then genesisCoins [Detour.key] (.testnet 0) else []) ++
          f.window.settled.flatMap (Follower.coins [Detour.key]) := by
  have hallocated : Allocated SymbolicDigest (.testnet 0) := by
    unfold Allocated
    decide +kernel
  have hreadable : ∀ b ∈ Detour.chain 0 14 .zero, Readable b := by
    unfold Readable
    decide +kernel
  obtain ⟨fs, hfs, hreturned⟩ := Follower.returned_exactly_once none [Detour.key] hallocated
    (forall_mem_singleton.mpr hreadable)
  refine ⟨fs, hfs, hreturned ?_⟩
  obtain ⟨f, rest, -, hrest, rfl⟩ := trace_cons_eq_some_iff.mp hfs
  rw [steps_cons, forall_mem_cons]
  refine ⟨fun _ _ => ?_, by simp [steps]⟩
  decide +kernel

/-- A reorganization before a block is confirmed returns the coin of the genesis block twice, and a
first batch that is not linked loses it. -/
theorem detour_returns_genesis_twice_or_never : (genesisCoins [key] (.testnet 0)).length = 1 ∧
    (∃ fs, trace call (Follower.new none none [key] (.testnet 0))
        [Detour.chain 0 1 .zero, Detour.chain 1 1 (.atom 77), Detour.chain 1 1 .zero] = some fs ∧
      fs.map (·.returned) = [genesisCoins [key] (.testnet 0), genesisCoins [key] (.testnet 0),
          genesisCoins [key] (.testnet 0) ++ genesisCoins [key] (.testnet 0)]) ∧
    (∃ fs, trace call (Follower.new none none [key] (.testnet 0))
        [Detour.chain 0 1 .zero ++ Detour.chain 1 1 .zero,
          Detour.chain 0 14 (Detour.tip 0 1 .zero)] = some fs ∧
      fs.map (fun f => (f.window.settled.length, f.returned)) = [(0, []), (3, [])]) := by
  decide +kernel

end

end NyksNode
