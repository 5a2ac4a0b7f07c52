import NyksNode.Block.Agreement

/-!
# What holds along a chain

Validation relates a block to the one before it.  Along a chain from the genesis block the
neighbours add up: heights count the blocks, timestamps increase, work accumulates, and the
block mountain range is that of all earlier blocks.

Timestamps are added in the field and compared as integers.  A block less than the
minimum block time away from the modulus can be followed by one with a small timestamp, so
the future-dating limit has to stay away from the modulus by the minimum block time.
-/

namespace NyksNode

open List Option LawfulMmr BFieldElement Fallible

theorem Timestamp.val_add_of_lt {a b : Timestamp} (hlt : a.value.val + b.value.val < modulus) :
    (a + b).value.val = a.value.val + b.value.val := by
  change (a.value + b.value).val = _
  rw [Fin.val_add]
  exact Nat.mod_eq_of_lt hlt

theorem BlockHeight.val_next_of_lt {h : BlockHeight}
    (hlt : h.value.val + 1 < modulus) : h.next.value.val = h.value.val + 1 := by
  change (h.value + 1).val = _
  rw [Fin.val_add]
  exact Nat.mod_eq_of_lt hlt

theorem BlockHeight.val_next_eq_or (h : BlockHeight) :
    h.next.value.val = h.value.val + 1 ∨ h.next.value.val = 0 := by
  by_cases hlt : h.value.val + 1 < modulus
  · exact Or.inl (val_next_of_lt hlt)
  · have hlast : h.value.val + 1 = modulus :=
      le_antisymm h.value.isLt (not_lt.mp hlt)
    refine Or.inr ?_
    change (h.value + 1).val = 0
    rw [Fin.val_add]
    exact (congrArg (· % modulus) hlast).trans (Nat.mod_self _)

theorem Network.minimumBlockTime_pos (network : Network) :
    0 < network.minimumBlockTime.value.val := by
  cases network with
  | main => decide
  | testnetMock => decide
  | regTest => decide
  | testnet i => exact (show 0 < Network.main.minimumBlockTime.value.val by decide)

theorem Network.launchDate_lt (network : Network) :
    network.launchDate.value.val + network.minimumBlockTime.value.val < modulus := by
  cases network with
  | main => decide
  | testnetMock => decide
  | regTest => decide
  | testnet i =>
    exact (show Network.main.launchDate.value.val + Network.main.minimumBlockTime.value.val <
      modulus by decide)

namespace Block
variable {D : Type} [Tip5 D] [MmrOps D] [ConsensusOps D] [DecidableEq D] [DigestOps D]

/-- The header and the block mountain range of a block fit the block before it. -/
structure HeaderFits (B P : Block D) (now : Timestamp) (network : Network) : Prop where
  height_eq : P.header.height.next = B.header.height
  prevBlockDigest_eq : P.hash = B.header.prevBlockDigest
  blockMmr_eq : ∃ path, MmrOps.append P.body.blockMmrAccumulator P.hash =
    some (B.body.blockMmrAccumulator, path)
  minimumBlockTime_le : P.header.timestamp + network.minimumBlockTime ≤ B.header.timestamp
  difficulty_eq : B.expectedDifficulty P network = some B.header.difficulty
  cumulativeProofOfWork_eq :
    B.header.cumulativeProofOfWork = P.header.cumulativeProofOfWork.add B.header.difficulty
  timestamp_lt : B.header.timestamp < now + futuredatingLimit

variable {B P : Block D} {now : Timestamp}

omit [DigestOps D] in
/-- **The checks of a header.** -/
theorem validateHeader_returns_iff {network : Network} :
    (B.validateHeader P now network).Returns () ↔ B.HeaderFits P now network := by
  simp only [validateHeader, returns_bind, returns_ensure, returns_orPanic, decide_eq_true_eq,
    exists_const]
  constructor
  · intro h
    obtain ⟨hheight, hprev, ⟨mmr, path⟩, happend, rfl, htime, _, hexpected, rfl, hwork, hnow⟩ := h
    exact ⟨hheight, hprev, ⟨path, happend⟩, htime, hexpected, hwork, hnow⟩
  · intro h
    obtain ⟨path, happend⟩ := h.blockMmr_eq
    exact ⟨h.height_eq, h.prevBlockDigest_eq, _, happend, rfl, h.minimumBlockTime_le, _,
      h.difficulty_eq, rfl, h.cumulativeProofOfWork_eq, h.timestamp_lt⟩

theorem headerFits_of_validate [MmrIndexing] {network : Network}
    (hB : (B.validate P now network).Returns ()) : B.HeaderFits P now network := by
  simp only [validate, returns_bind] at hB
  obtain ⟨_, hheader, -⟩ := hB
  exact validateHeader_returns_iff.mp hheader

/-! ## Chains -/

/-- Starts with the genesis block, and goes on with valid blocks.  The clock of each validation
stays clear of the modulus by the future-dating limit and the minimum block time. -/
structure ValidChain [MmrIndexing] (network : Network) (chain : List (Block D)) : Prop where
  head_eq : ∃ B, chain[0]? = some B ∧ Block.genesis network = some B
  valid : ∀ i P B, chain[i]? = some P → chain[i + 1]? = some B → ∃ now : Timestamp,
    now.value.val + futuredatingLimit.value.val + network.minimumBlockTime.value.val ≤
      BFieldElement.modulus ∧ (B.validate P now network).Returns ()

/-- What holds of a block of a chain, with the blocks before it. -/
structure Placed [Inhabited D] (network : Network) (before : List (Block D)) (B : Block D) :
    Prop where
  height_eq : B.header.height.value.val = before.length
  length_le : before.length ≤ B.header.timestamp.value.val
  timestamp_lt : B.header.timestamp.value.val + network.minimumBlockTime.value.val <
    BFieldElement.modulus
  work_eq : B.header.cumulativeProofOfWork.toBigUint =
    ((before ++ [B]).tail.map (·.header.difficulty.toBigUint)).sum % 2 ^ 192
  blockMmr_eq : B.body.blockMmrAccumulator = .ofLeafs (before.map (·.hash))

variable {network : Network}

omit [DecidableEq D] in
theorem placed_genesis [Inhabited D] (hB : Block.genesis network = some B) :
    B.Placed network [] := by
  have hfields : B.header = .genesis network ∧ B.body.blockMmrAccumulator = .empty := by
    simp only [Block.genesis, bind_eq_some] at hB
    obtain ⟨_, -, hB⟩ := hB
    rw [← some_inj.mp hB]
    exact ⟨rfl, rfl⟩
  obtain ⟨hheader, hmmr⟩ := hfields
  refine ⟨?_, Nat.zero_le _, ?_, ?_, ?_⟩
  · rw [hheader]
    rfl
  · rw [hheader]
    exact network.launchDate_lt
  · rw [hheader]
    change ProofOfWork.zero.toBigUint = 0 % 2 ^ 192
    decide
  · rw [hmmr]
    exact MmrAccumulator.ofLeafs_nil.symm

omit [DigestOps D] in
/-- **One block.** -/
theorem Placed.next [Inhabited D] [LawfulMmr D] {before : List (Block D)}
    (hP : P.Placed network before) (hB : B.HeaderFits P now network)
    (hnow : now.value.val + futuredatingLimit.value.val + network.minimumBlockTime.value.val ≤
      modulus) : P.header.timestamp.value.val + network.minimumBlockTime.value.val ≤
        B.header.timestamp.value.val ∧ B.Placed network (before ++ [P]) := by
  have hpos := network.minimumBlockTime_pos
  have hmodulus : modulus < u64Bound := by decide
  have htime : P.header.timestamp.value.val + network.minimumBlockTime.value.val ≤
      B.header.timestamp.value.val := by
    rw [← Timestamp.val_add_of_lt hP.timestamp_lt]
    exact hB.minimumBlockTime_le
  have hlimit : B.header.timestamp.value.val < now.value.val + futuredatingLimit.value.val := by
    rw [← Timestamp.val_add_of_lt (by omega)]
    exact hB.timestamp_lt
  have hlength := hP.length_le
  have hlt := hP.timestamp_lt
  refine ⟨htime, ?_, ?_, ?_, ?_, ?_⟩
  · rw [← hB.height_eq, BlockHeight.val_next_of_lt, hP.height_eq, length_append, length_singleton]
    rw [hP.height_eq]
    omega
  · rw [length_append, length_singleton]
    omega
  · omega
  · have hne : before ++ [P] ≠ [] := by simp
    rw [hB.cumulativeProofOfWork_eq, ProofOfWork.toBigUint_add, hP.work_eq,
      tail_append_of_ne_nil hne, map_append, sum_append, Nat.mod_add_mod,
      map_singleton, sum_singleton]
  · obtain ⟨path, happend⟩ := hB.blockMmr_eq
    rw [hP.blockMmr_eq, append_ofLeafs _ _ (by rw [length_map]; omega)] at happend
    rw [← (Prod.mk.inj (some_inj.mp happend)).1, map_append, map_singleton]

variable [MmrIndexing] [Inhabited D] [LawfulMmr D]

/-- **All blocks.** -/
theorem ValidChain.placed {chain : List (Block D)} (hchain : ValidChain network chain) {i : ℕ}
    (hB : chain[i]? = some B) : B.Placed network (chain.take i) := by
  induction i generalizing B with
  | zero =>
    obtain ⟨B₀, hB₀, hgenesis⟩ := hchain.head_eq
    obtain rfl := some_inj.mp (hB₀.symm.trans hB)
    exact placed_genesis hgenesis
  | succ i ih =>
    have hi : i < chain.length := by
      have := (List.getElem?_eq_some_iff.mp hB).1
      omega
    have hP := getElem?_eq_getElem hi
    obtain ⟨now, hnow, hvalid⟩ := hchain.valid i _ B hP hB
    rw [take_add_one, hP]
    exact ((ih hP).next (headerFits_of_validate hvalid) hnow).2

/-- **The chain invariant**: height, timestamp, work and mountain range of the block with `i`
predecessors. -/
theorem chain_invariant {chain : List (Block D)} (hchain : ValidChain network chain) :
    (∀ i B, chain[i]? = some B → B.header.height.value.val = i ∧
      (((chain.take (i + 1)).tail.map (·.header.difficulty.toBigUint)).sum < 2 ^ 192 →
        B.header.cumulativeProofOfWork.toBigUint =
          ((chain.take (i + 1)).tail.map (·.header.difficulty.toBigUint)).sum) ∧
      B.body.blockMmrAccumulator = .ofLeafs ((chain.take i).map (·.hash))) ∧
    ∀ i P B, chain[i]? = some P → chain[i + 1]? = some B →
      P.header.timestamp.value.val + network.minimumBlockTime.value.val ≤
        B.header.timestamp.value.val := by
  constructor
  · intro i B hB
    have hplaced := hchain.placed hB
    have hi := (List.getElem?_eq_some_iff.mp hB).1
    refine ⟨?_, ?_, hplaced.blockMmr_eq⟩
    · rw [hplaced.height_eq, length_take_of_le hi.le]
    · intro hsum
      rw [hplaced.work_eq]
      rw [take_add_one, hB] at hsum ⊢
      exact Nat.mod_eq_of_lt hsum
  · intro i P B hP hB
    obtain ⟨now, hnow, hvalid⟩ := hchain.valid i P B hP hB
    exact ((hchain.placed hP).next (headerFits_of_validate hvalid) hnow).1

end Block

/-! ## A chain that wraps around -/

namespace LateChain

def first : Block SymbolicDigest := (Block.genesis .main).get Block.isSome_genesis

/-- An empty block whose timestamp is the last field element but one. -/
def late : Block SymbolicDigest :=
  first.emptySuccessor first.body.mutatorSetAccumulator (.ofLeafs [first.hash])
    ⟨.new (BFieldElement.modulus - 2)⟩ Network.main.genesisDifficulty

def afterLate : MutatorSetAccumulator SymbolicDigest :=
  late.mutatorSetAccumulatorAfter.unwrap.get (by decide +kernel)

def wrappedTime : Timestamp := ⟨59998⟩

def wrappedDifficulty : Difficulty :=
  (difficultyControl wrappedTime late.header.timestamp late.header.difficulty
    Network.main.targetBlockInterval late.header.height).get (by decide +kernel)

def wrapped : Block SymbolicDigest :=
  late.emptySuccessor afterLate (.ofLeafs [first.hash, late.hash]) wrappedTime wrappedDifficulty

theorem validate_late : let _ := MmrIndexing.reference
    (late.validate first ⟨.new (modulus - 300001)⟩ .main).Returns () := by
  unfold Returns
  decide +kernel

theorem validate_wrapped : let _ := MmrIndexing.reference
    (wrapped.validate late ⟨0⟩ .main).Returns () := by
  unfold Returns
  decide +kernel

def early : Block SymbolicDigest :=
  first.emptySuccessor first.body.mutatorSetAccumulator (.ofLeafs [first.hash])
    (Network.main.launchDate + Network.main.minimumBlockTime) Network.main.genesisDifficulty

theorem validate_early : let _ := MmrIndexing.reference
    (early.validate first (Network.main.launchDate + Network.main.minimumBlockTime)
      .main).Returns () := by
  unfold Returns
  decide +kernel

end LateChain

open LateChain

theorem chain_invariant_early : ∃ _ : MmrIndexing, Block.ValidChain .main [first, early] ∧
      early.header.height.value.val = 1 ∧ early.body.blockMmrAccumulator = .ofLeafs [first.hash] ∧
      first.header.timestamp.value.val + Network.main.minimumBlockTime.value.val ≤
        early.header.timestamp.value.val := by
  let _ := MmrIndexing.reference
  have hchain : Block.ValidChain .main [first, early] := by
    refine ⟨⟨first, rfl, (some_get _).symm⟩, fun i P B hP hB => ?_⟩
    cases i with
    | zero =>
      cases hP
      cases hB
      exact ⟨_, by decide, validate_early⟩
    | succ i => simp at hB
  obtain ⟨hblocks, htimes⟩ := Block.chain_invariant hchain
  obtain ⟨hheight, -, hmmr⟩ := hblocks 1 early rfl
  exact ⟨_, hchain, hheight, hmmr, htimes 0 first early rfl rfl⟩

/-- With the future-dating limit below the modulus, but too close to it, the third block of a chain
has a timestamp before the second one. -/
theorem chain_timestamps_wrap : ∃ (_ : MmrIndexing) (now now' : Timestamp),
      Block.genesis .main = some first ∧
      now.value.val + futuredatingLimit.value.val < BFieldElement.modulus ∧
      (late.validate first now .main).Returns () ∧
      now'.value.val + futuredatingLimit.value.val < BFieldElement.modulus ∧
      (wrapped.validate late now' .main).Returns () ∧
      wrapped.header.timestamp.value.val < late.header.timestamp.value.val := by
  let _ := MmrIndexing.reference
  exact ⟨_, ⟨.new (modulus - 300001)⟩, ⟨0⟩, (some_get _).symm, by decide,
    validate_late, by decide, validate_wrapped, by decide +kernel⟩

end NyksNode
