import NyksNode.Lib.Effect
import NyksNode.Lib.ChainWindow
import NyksNode.Wallet.BlockScan

/-!
# The chain scanner

The scanner follows the chain in batches.  It keeps the latest blocks, with the coins found in
them, in a window; a block that is deep enough is confirmed, and its coins are handed over.  A batch
whose parent is not in the window is an unrecoverable reorganization, and clears the window.

The window stores digests only.  `Advanced` says what a call does in terms of `attachPoint` and
`linkedTake`.
-/

namespace NyksNode

open List Option BlockHeight Effect

structure RpcWalletBlock (D : Type) where
  kernel : BlockKernel D
  proofLeaf : D
  deriving DecidableEq, Repr

namespace RpcWalletBlock
variable {D : Type}

def hash [Tip5 D] [ConsensusOps D] (b : RpcWalletBlock D) : D :=
  Tip5.hashPair (ConsensusOps.hashVarlen (.digest b.kernel.mastHash)) b.proofLeaf

def prevBlockDigest (b : RpcWalletBlock D) : D := b.kernel.header.prevBlockDigest

end RpcWalletBlock

inductive AdvanceError (D : Type) where
  | unrecoverableReorg
  | chainDiscontinuity (expected got : D)
  deriving DecidableEq, Repr

structure ChainScanner (D : Type) where
  confirmationDepth : ℕ
  height : BlockHeight
  keys : List (ViewingKey D)
  confirmingBlocks : List (D × List (IncomingUtxo D))
  network : Network
  deriving DecidableEq, Repr

/-- Adding a `usize` to a height. -/
def BlockHeight.addUsize (h : BlockHeight) (rhs : ℕ) : BlockHeight := ⟨.new (h.value.val + rhs)⟩

theorem BlockHeight.addUsize_addUsize (h : BlockHeight) (a b : ℕ) :
    (h.addUsize a).addUsize b = h.addUsize (a + b) := by
  simp only [addUsize, BFieldElement.new, Fin.ofNat, BlockHeight.mk.injEq, Fin.mk.injEq]
  rw [Nat.mod_add_mod, Nat.add_assoc]

theorem BlockHeight.addUsize_zero (h : BlockHeight) : h.addUsize 0 = h := by
  ext
  exact Nat.mod_eq_of_lt h.value.isLt

namespace ChainScanner
variable {D : Type}

def new (startHeight : Option BlockHeight) (confirmationDepth : Option ℕ)
    (keys : List (ViewingKey D)) (network : Network) : ChainScanner D where
  confirmationDepth := confirmationDepth.getD 12
  height := startHeight.getD .genesis
  keys := keys
  confirmingBlocks := []
  network := network

def addKey (s : ChainScanner D) (key : ViewingKey D) : ChainScanner D :=
  { s with keys := s.keys ++ [key] }

def tipHeight (s : ChainScanner D) : BlockHeight := s.height.addUsize s.confirmingBlocks.length

section

def digests (s : ChainScanner D) : List D := s.confirmingBlocks.map (·.1)

def withBlocks (s : ChainScanner D) (blocks : List (D × List (IncomingUtxo D))) : ChainScanner D :=
  { s with confirmingBlocks := blocks }

variable [DecidableEq D]

def handleReorg (newParent : D) : Effect (ChainScanner D) (AdvanceError D) Unit := do
  let s ← Effect.read
  match s.confirmingBlocks.findIdx? (fun e => e.1 = newParent) with
  | none => do
    Effect.update fun s => s.withBlocks []
    Effect.attempt (.error .unrecoverableReorg)
  | some pos => Effect.update fun s => s.withBlocks (s.confirmingBlocks.take (pos + 1))

/-- The check at the start of a batch. -/
def reconnect (firstParent : D) : Effect (ChainScanner D) (AdvanceError D) Unit := do
  let s ← Effect.read
  if s.confirmingBlocks.isEmpty ∨ (s.confirmingBlocks.getLast?.any fun e => e.1 = firstParent) then
    pure ()
  else handleReorg firstParent

/-- The loop of `promote_and_cleanup`: the confirmed coins, the new height and what stays. -/
def promoteLoop (depth : ℕ) (height : BlockHeight) : List (D × List (IncomingUtxo D)) →
    List (IncomingUtxo D) × BlockHeight × List (D × List (IncomingUtxo D))
  | [] => ([], height, [])
  | e :: es =>
    if depth < (e :: es).length then
      let r := promoteLoop depth (height.addUsize 1) es
      (e.2 ++ r.1, r.2)
    else ([], height, e :: es)

def promoteAndCleanup : Effect (ChainScanner D) (AdvanceError D) (List (IncomingUtxo D)) := do
  let s ← Effect.read
  let r := promoteLoop s.confirmationDepth s.height s.confirmingBlocks
  Effect.update fun s => { s with height := r.2.1, confirmingBlocks := r.2.2 }
  pure r.1

variable [Tip5 D] [ConsensusOps D] [DigestOps D] [NoteOps D]

/-- The loop over the blocks of a batch. -/
def scanBatch : D → List (RpcWalletBlock D) → Effect (ChainScanner D) (AdvanceError D) Unit
  | _, [] => pure ()
  | expectedParent, block :: blocks =>
    if block.prevBlockDigest ≠ expectedParent then
      Effect.attempt (.error (.chainDiscontinuity expectedParent block.prevBlockDigest))
    else do
      let s ← Effect.read
      let utxos ← Effect.orPanic (scanBlock s.keys block.hash block.kernel)
      Effect.update fun s => s.withBlocks (s.confirmingBlocks ++ [(block.hash, utxos)])
      scanBatch block.hash blocks

def advance [MmrOps D] : List (RpcWalletBlock D) →
    Effect (ChainScanner D) (AdvanceError D) (List (IncomingUtxo D))
  | [] => pure []
  | first :: rest => do
    let s ← Effect.read
    let confirmed ← Effect.orPanic
      (if s.tipHeight = .genesis then scanGenesis s.keys s.network else some [])
    reconnect first.prevBlockDigest
    scanBatch first.prevBlockDigest (first :: rest)
    let promoted ← promoteAndCleanup
    pure (confirmed ++ promoted)

end

/-! ## What a call leads to -/

@[simp] theorem confirmingBlocks_withBlocks (s : ChainScanner D)
    (blocks : List (D × List (IncomingUtxo D))) : (s.withBlocks blocks).confirmingBlocks = blocks :=
  rfl

@[simp] theorem withBlocks_withBlocks (s : ChainScanner D)
    (bs cs : List (D × List (IncomingUtxo D))) :
    (s.withBlocks bs).withBlocks cs = s.withBlocks cs := rfl

theorem promoteLoop_eq (depth : ℕ) (height : BlockHeight) (es : List (D × List (IncomingUtxo D))) :
    promoteLoop depth height es = ((es.take (es.length - depth)).flatMap (·.2),
      height.addUsize (es.length - depth), es.drop (es.length - depth)) := by
  induction es generalizing height with
  | nil => simp [promoteLoop, addUsize_zero]
  | cons e es ih =>
    rw [promoteLoop]
    by_cases hdepth : depth < (e :: es).length
    · have hsucc : (e :: es).length - depth = es.length - depth + 1 := by
        rw [length_cons] at hdepth ⊢
        omega
      rw [if_pos hdepth, ih, hsucc]
      simp [addUsize_addUsize, Nat.add_comm]
    · have hzero : (e :: es).length - depth = 0 := by omega
      rw [if_neg hdepth, hzero]
      simp [addUsize_zero]

variable [DecidableEq D]

theorem findIdx?_eq_idxOf?_digests (s : ChainScanner D) (p : D) :
    s.confirmingBlocks.findIdx? (fun e => e.1 = p) = s.digests.idxOf? p := by
  rw [digests, List.idxOf?, findIdx?_map]
  rfl

theorem start_reconnect (p : D) (s : ChainScanner D) :
    (reconnect p).start s = match attachPoint p s.digests with
      | none => some (.error .unrecoverableReorg, s.withBlocks [])
      | some n => some (.ok (), s.withBlocks (s.confirmingBlocks.take n)) := by
  rw [reconnect, start_bind, start_read]
  simp only [bind_some]
  by_cases hempty : s.confirmingBlocks = []
  · have hdigests : s.digests = [] := by rw [digests, hempty]; rfl
    have hself : s.withBlocks [] = s := by rw [withBlocks, ← hempty]
    simp [hempty, hdigests, attachPoint, hself]
  · have hdigests : s.digests ≠ [] := by simpa [digests] using hempty
    have hlast : (s.confirmingBlocks.getLast?.any fun e => e.1 = p) = true ↔
        s.digests.getLast? = some p := by
      rw [digests, getLast?_map]
      cases s.confirmingBlocks.getLast? <;> simp
    by_cases hp : s.digests.getLast? = some p
    · have hlength : s.confirmingBlocks.take s.digests.length = s.confirmingBlocks := by
        rw [digests, length_map, take_length]
      have hself : s.withBlocks s.confirmingBlocks = s := rfl
      simp [attachPoint, hdigests, hp, hlast.mpr hp, hlength, hself]
    · have hnot : ¬ (s.confirmingBlocks.isEmpty = true ∨
          (s.confirmingBlocks.getLast?.any fun e => e.1 = p) = true) := by
        rw [hlast]
        simp [hempty, hp]
      rw [if_neg hnot, handleReorg, start_bind, start_read]
      simp only [bind_some]
      rw [findIdx?_eq_idxOf?_digests, attachPoint, if_neg hdigests, if_neg hp]
      cases s.digests.idxOf? p with
      | none => rfl
      | some i => rfl

section
variable [Tip5 D] [ConsensusOps D] [DigestOps D] [NoteOps D]

/-- The entry of the window for a block. -/
def Scans (keys : List (ViewingKey D)) (b : RpcWalletBlock D) (e : D × List (IncomingUtxo D)) :
    Prop :=
  e.1 = b.hash ∧ scanBlock keys b.hash b.kernel = some e.2

/-- The blocks of a batch up to the first one that is not linked. -/
abbrev linked (expectedParent : D) (blocks : List (RpcWalletBlock D)) : List (RpcWalletBlock D) :=
  linkedTake RpcWalletBlock.hash RpcWalletBlock.prevBlockDigest expectedParent blocks

/-- The linked blocks of a batch are scanned and put on the window, and the rest is reported. -/
theorem start_scanBatch {expectedParent : D} {blocks : List (RpcWalletBlock D)}
    {s s' : ChainScanner D} {outcome : Except (AdvanceError D) Unit}
    (h : (scanBatch expectedParent blocks).start s = some (outcome, s')) :
    ∃ entries, List.Forall₂ (Scans s.keys) (linked expectedParent blocks) entries ∧
      s' = s.withBlocks (s.confirmingBlocks ++ entries) ∧
      (outcome = .ok () ∧ (linked expectedParent blocks).length = blocks.length ∨
        (∃ expected got, outcome = .error (.chainDiscontinuity expected got)) ∧
          (linked expectedParent blocks).length ≠ blocks.length) := by
  induction blocks generalizing expectedParent s with
  | nil =>
    cases h
    refine ⟨[], .nil, ?_, Or.inl ⟨rfl, rfl⟩⟩
    rw [append_nil]
    rfl
  | cons b blocks ih =>
    rw [scanBatch] at h
    by_cases hb : b.prevBlockDigest = expectedParent
    · rw [if_neg (not_not.mpr hb), start_bind, start_read] at h
      simp only [bind_some, start_bind, start_orPanic] at h
      cases hutxos : scanBlock s.keys b.hash b.kernel with
      | none =>
        rw [hutxos] at h
        cases h
      | some utxos =>
        simp only [hutxos, map_some, bind_some, start_update] at h
        obtain ⟨entries, hentries, hs', hcases⟩ := ih h
        rw [linked, linkedTake, if_pos hb]
        refine ⟨(b.hash, utxos) :: entries, .cons ⟨rfl, hutxos⟩ hentries, ?_, ?_⟩
        · rw [hs']
          simp
        · simpa using hcases
    · rw [if_pos hb] at h
      cases h
      rw [linked, linkedTake, if_neg hb]
      refine ⟨[], .nil, ?_, Or.inr ⟨⟨_, _, rfl⟩, by simp⟩⟩
      rw [append_nil]
      rfl

variable [MmrOps D]

/-- What a call can lead to. -/
inductive Advanced (s : ChainScanner D) : List (RpcWalletBlock D) →
    Except (AdvanceError D) (List (IncomingUtxo D)) → ChainScanner D → Prop
  | ignored : Advanced s [] (.ok []) s
  | lost {first : RpcWalletBlock D} {rest : List (RpcWalletBlock D)}
      (hpoint : attachPoint first.prevBlockDigest s.digests = none) :
      Advanced s (first :: rest) (.error .unrecoverableReorg) (s.withBlocks [])
  /-- The batch is not linked. -/
  | broken {first : RpcWalletBlock D} {rest : List (RpcWalletBlock D)} {n : ℕ}
      {entries : List (D × List (IncomingUtxo D))} {expected got : D}
      (hpoint : attachPoint first.prevBlockDigest s.digests = some n)
      (hentries : List.Forall₂ (Scans s.keys) (linked first.prevBlockDigest (first :: rest))
        entries)
      (hlength : (linked first.prevBlockDigest (first :: rest)).length ≠ (first :: rest).length) :
      Advanced s (first :: rest) (.error (.chainDiscontinuity expected got))
        (s.withBlocks (s.confirmingBlocks.take n ++ entries))
  /-- The batch is scanned, and blocks that are deep enough are confirmed. -/
  | confirmed {first : RpcWalletBlock D} {rest : List (RpcWalletBlock D)} {n : ℕ}
      {blocks : List (D × List (IncomingUtxo D))} {entries : List (D × List (IncomingUtxo D))}
      {genesis : List (IncomingUtxo D)}
      (hgenesis : (if s.tipHeight = .genesis then scanGenesis s.keys s.network else some []) =
        some genesis)
      (hpoint : attachPoint first.prevBlockDigest s.digests = some n)
      (hentries : List.Forall₂ (Scans s.keys) (linked first.prevBlockDigest (first :: rest))
        entries)
      (hlength : (linked first.prevBlockDigest (first :: rest)).length = (first :: rest).length)
      (hblocks : blocks = s.confirmingBlocks.take n ++ entries) : Advanced s (first :: rest)
        (.ok (genesis ++ (blocks.take (blocks.length - s.confirmationDepth)).flatMap (·.2)))
        { s with
          height := s.height.addUsize (blocks.length - s.confirmationDepth)
          confirmingBlocks := blocks.drop (blocks.length - s.confirmationDepth) }

theorem advanced_of_start {batch : List (RpcWalletBlock D)} {s s' : ChainScanner D}
    {outcome : Except (AdvanceError D) (List (IncomingUtxo D))}
    (h : (advance batch).start s = some (outcome, s')) : Advanced s batch outcome s' := by
  cases batch with
  | nil =>
    cases h
    exact .ignored
  | cons first rest =>
    rw [advance, start_bind, start_read] at h
    simp only [bind_some] at h
    rw [start_bind, start_orPanic] at h
    cases hgenesis : (if s.tipHeight = .genesis then scanGenesis s.keys s.network else some []) with
    | none =>
      rw [hgenesis] at h
      cases h
    | some genesis =>
      simp only [hgenesis, map_some, bind_some] at h
      rw [start_bind, start_reconnect] at h
      cases hpoint : attachPoint first.prevBlockDigest s.digests with
      | none =>
        rw [hpoint] at h
        cases h
        exact .lost hpoint
      | some n =>
        simp only [hpoint, bind_some] at h
        rw [start_bind, bind_eq_some_iff] at h
        obtain ⟨⟨scanned, s₁⟩, hscan, h⟩ := h
        obtain ⟨entries, hentries, hs₁, hcases⟩ := start_scanBatch hscan
        rw [withBlocks_withBlocks, confirmingBlocks_withBlocks] at hs₁
        cases hcases with
        | inl hok =>
          obtain ⟨rfl, hlength⟩ := hok
          subst hs₁
          simp only [promoteAndCleanup, start_bind, start_read, bind_some,
            start_update, start_pure, promoteLoop_eq] at h
          cases h
          exact .confirmed hgenesis hpoint hentries hlength rfl
        | inr herror =>
          obtain ⟨⟨expected, got, rfl⟩, hlength⟩ := herror
          subst hs₁
          cases h
          exact .broken hpoint hentries hlength

end

end ChainScanner

end NyksNode
