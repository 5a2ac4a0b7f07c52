import NyksNode.Block.Adjustment
import NyksNode.Block.ChainInvariant
import NyksNode.Block.Confirmable
import NyksNode.Block.ForkChoice
import Mathlib.Algebra.Order.BigOperators.Group.Finset

/-!
# Safety of valid chains

What no valid chain can do, whoever made its blocks: spend a coin twice, mint more than the
subsidies, lose to one of its own blocks, or share a block with another history.
-/

namespace NyksNode.Block

open List Option Fallible MutatorSetUpdate NativeCurrencyAmount LateChain

variable {D : Type} [Tip5 D] [MmrOps D] [DecidableEq D] [DigestOps D]
  [ConsensusOps D] [Inhabited D] [LawfulMmr D] {network : Network} {B : Block D}

/-! ## Spending -/

/-- Valid chains up to a block, with the index sets of all inputs in order. -/
inductive Spends [MmrIndexing] (network : Network) : Block D → List AbsoluteIndexSet → Prop
  | genesis {B : Block D} (hB : Block.genesis network = some B) : Spends network B []
  | next {P B : Block D} {sets : List AbsoluteIndexSet} {inputs : List (RemovalRecord D)}
      {now : Timestamp} (hP : Spends network P sets) (hB : (B.validate P now network).Returns ())
      (hinputs : B.kernel.unpackedInputs.Returns inputs) :
      Spends network B (sets ++ inputs.map (·.absoluteIndices))

section
variable [MmrOps.ReportsPositions D] [Tip5.CollisionFree D] [MmrOps.CollisionFree D] [MmrIndexing]
  {sets : List AbsoluteIndexSet} (h : Spends network B sets)
include h

/-- The filter after a valid chain has the indices of all inputs. -/
theorem Spends.exists_ledger : setsNewIndices 0 sets = true ∧
    ∃ L : Ledger D, L.accumulator = B.body.mutatorSetAccumulator ∧
      L.bits = (sets.flatMap (·.bloomIndices) : List ℕ) := by
  induction h with
  | genesis hB =>
    have hlt : (Ledger.empty : Ledger D).commitments.length +
        (genesisAllocations : List (AdditionRecord D)).length < u64Bound :=
      show 0 + 2 < u64Bound by decide
    obtain ⟨L, hL, -, hbits⟩ := Ledger.empty.exists_foldlM_add hlt
    rw [Ledger.accumulator_empty] at hL
    rw [Block.genesis, hL] at hB
    cases hB
    exact ⟨rfl, L, rfl, hbits⟩
  | @next P B sets inputs now hP hB hinputs ih =>
    obtain ⟨hsets, L, hL, hbits⟩ := ih
    obtain ⟨-, A, inputs', hA, hev⟩ := evolves_of_validate hB
    obtain rfl := hinputs.unique hev.unpacked
    -- the guesser fee of the parent sets no index
    obtain ⟨rs, hrs, -⟩ := returns_bind.mp hA
    rw [returns_mutatorSetAccumulatorAfter_iff (returns_liftExcept.mp hrs), ← hL] at hA
    obtain ⟨L₁, hL₁, -, hbits₁⟩ := applyToAccumulator_eq (u := ⟨[], rs⟩) (by simp) (by simp)
      (lt_of_applyToAccumulator (by simp) (by simp) hA)
    rw [hA, some_inj, Prod.mk.injEq] at hL₁
    obtain rfl := hL₁.1
    have hs : ∀ rr ∈ inputs, L₁.Synced rr := fun _ => hev.synced
    have ho : ∀ rr ∈ inputs, PendingUpdates.Ordinary rr := fun _ => hev.ordinary
    obtain ⟨L₂, hL₂, -, hbits₂⟩ := applyToAccumulator_eq
      (u := ⟨inputs, B.body.transactionKernel.outputs⟩) hs ho
      (lt_of_applyToAccumulator hs ho hev.body_eq)
    rw [hev.body_eq, some_inj, Prod.mk.injEq] at hL₂
    have hold : L₁.bits = (sets.flatMap (·.bloomIndices) : List ℕ) := by simpa [hbits] using hbits₁
    have hnew : setsNewIndices L₁.bits (inputs.map (·.absoluteIndices)) = true := by
      by_contra hnot
      simp [hnot] at hL₂
    refine ⟨?_, L₂, hL₂.1.symm, ?_⟩
    · rw [setsNewIndices_append, hsets, add_zero, ← hold, hnew]
      rfl
    · rw [hbits₂, hold, flatMap_append, flatMap_map, add_comm]
      rfl

/-- **No coin is spent twice.**  Along every valid chain, each input has an index that no input
before it has, in its own block or in an earlier one. -/
theorem spends_setsNewIndices : setsNewIndices 0 sets = true := h.exists_ledger.1

end

/-- Two blocks after the genesis block, with one input each. -/
theorem spends_setsNewIndices_twice : ∃ _ : MmrIndexing,
    ∃ (B : Block SymbolicDigest) (rr rr' : RemovalRecord SymbolicDigest),
      Spends .testnetMock B [rr.absoluteIndices, rr'.absoluteIndices] ∧
        setsNewIndices 0 [rr.absoluteIndices, rr'.absoluteIndices] = true := by
  let _ := MmrIndexing.reference
  let twoThenThrees := recordOfDistances (2 :: replicate 44 3) (by decide)
  let B := Mock.first.spend [zeroThenOnes]
  let B' := (Mock.child [Mock.genesis] B 0).spend [twoThenThrees]
  have hvalid : (B.validate Mock.genesis B.header.timestamp .testnetMock).Returns () ∧
      (B'.validate B B'.header.timestamp .testnetMock).Returns () := by
    unfold Returns
    decide +kernel
  have hinputs : B.kernel.unpackedInputs.Returns [zeroThenOnes] ∧
      B'.kernel.unpackedInputs.Returns [twoThenThrees] := by
    unfold Returns
    decide +kernel
  have h := Spends.next (.next (.genesis (some_get _).symm) hvalid.1 hinputs.1) hvalid.2 hinputs.2
  exact ⟨_, B', _, _, h, spends_setsNewIndices h⟩

/-! ## Minting -/

/-- The coinbases of some blocks together, in the smallest unit. -/
def minted (chain : List (Block D)) : ℤ :=
  (chain.map fun b => (b.body.transactionKernel.coinbase.map (·.nau)).getD 0).sum

def subsidyCoins (height : ℕ) : ℕ :=
  blockSubsidyByGeneration[height / blocksPerGeneration]?.getD 256

omit [Inhabited D] [LawfulMmr D] in
theorem minted_singleton_le [MmrIndexing] {P : Block D} {now : Timestamp}
    (hB : (B.validate P now network).Returns ()) :
    minted [B] ≤ conversionFactor * subsidyCoins B.header.height.value.val := by
  have hsubsidy : (blockSubsidy B.header.height).nau =
      conversionFactor * subsidyCoins B.header.height.value.val := by
    rw [blockSubsidy, subsidyCoins, BlockHeight.getGeneration]
    cases blockSubsidyByGeneration[B.header.height.value.val / blocksPerGeneration]? <;> rfl
  simp only [validate, validateTransaction, validateCoinbase, returns_bind] at hB
  obtain ⟨_, -, _, -, _, -, inputs, -, _, -, _, hcoinbase, -⟩ := hB
  rw [minted, map_singleton, sum_singleton]
  cases hc : B.body.transactionKernel.coinbase with
  | none => exact Int.mul_nonneg (by decide) (Int.natCast_nonneg _)
  | some c =>
    simp only [hc, returns_bind, returns_ensure, decide_eq_true_eq] at hcoinbase
    obtain ⟨_, hle, -⟩ := hcoinbase
    exact hsubsidy ▸ not_lt.mp hle

theorem sum_generations_le {g : ℕ} (hg : 0 < g) (c : ℕ) (l : List ℕ) (n : ℕ) :
    ∑ j ∈ Finset.range n, l[j / g]?.getD c ≤ g * l.sum + c * n := by
  induction l generalizing n with
  | nil => simp [Nat.mul_comm]
  | cons x l ih =>
    calc ∑ j ∈ Finset.range n, (x :: l)[j / g]?.getD c
        ≤ ∑ j ∈ Finset.range (g + n), (x :: l)[j / g]?.getD c :=
          Finset.sum_le_sum_of_subset (Finset.range_mono (Nat.le_add_left n g))
      _ = g * x + ∑ j ∈ Finset.range n, l[j / g]?.getD c := by
          rw [Finset.sum_range_add, Finset.sum_const_nat (m := x), Finset.card_range]
          · simp [Nat.add_div_left _ hg]
          · intro j hj
            simp [Nat.div_eq_of_lt (Finset.mem_range.mp hj)]
      _ ≤ g * (x :: l).sum + c * n := by
          rw [sum_cons, Nat.mul_add, Nat.add_assoc]
          exact Nat.add_le_add_left (ih n) _

section
variable [MmrIndexing] {chain : List (Block D)} (hchain : ValidChain network chain)
include hchain

omit [Inhabited D] [LawfulMmr D] in
theorem ValidChain.genesis_eq (hB : chain[0]? = some B) : B.header = .genesis network ∧
    B.body.transactionKernel.coinbase = some premineMaxSize := by
  obtain ⟨B₀, hB₀, hgenesis⟩ := hchain.head_eq
  obtain rfl := some_inj.mp (hB₀.symm.trans hB)
  simp only [Block.genesis, bind_eq_some, some_inj] at hgenesis
  obtain ⟨_, -, rfl⟩ := hgenesis
  exact ⟨rfl, rfl⟩

omit [Inhabited D] [LawfulMmr D] in
theorem ValidChain.exists_parent {i : ℕ} (hB : chain[i + 1]? = some B) :
    ∃ P now, chain[i]? = some P ∧ (B.validate P now network).Returns () := by
  have hP := getElem?_eq_getElem (Nat.lt_of_succ_lt (List.getElem?_eq_some_iff.mp hB).1)
  obtain ⟨now, -, hvalid⟩ := hchain.valid i _ B hP hB
  exact ⟨_, now, hP, hvalid⟩

theorem ValidChain.minted_take_le {i : ℕ} (hB : chain[i]? = some B) : minted (chain.take (i + 1)) ≤
      conversionFactor * (800000000 + ∑ j ∈ Finset.range (i + 1), subsidyCoins j : ℕ) := by
  induction i generalizing B with
  | zero =>
    rw [take_add_one, hB, minted]
    change (B.body.transactionKernel.coinbase.map (·.nau)).getD 0 + 0 ≤ _
    rw [(hchain.genesis_eq hB).2]
    exact (by decide : premineMaxSize.nau ≤ conversionFactor * (800000000 + 12800))
  | succ i ih =>
    obtain ⟨P, now, hP, hvalid⟩ := hchain.exists_parent hB
    have hle := minted_singleton_le hvalid
    rw [(hchain.placed hB).height_eq,
      length_take_of_le (List.getElem?_eq_some_iff.mp hB).1.le] at hle
    rw [take_add_one, hB, minted, map_append, sum_append, Finset.sum_range_succ, ← Nat.add_assoc,
      Nat.cast_add, Int.mul_add]
    exact Int.add_le_add (ih hP) hle

/-- **The supply is bounded**: by the premine and the subsidies of all generations, together
2,660,495,750 coins, and the tail emission. -/
theorem minted_le : minted chain ≤ (coins (2660495750 + 256 * chain.length)).nau := by
  obtain ⟨B, hB, -⟩ := hchain.head_eq
  have hlength := (List.getElem?_eq_some_iff.mp hB).1
  have hle := hchain.minted_take_le (getElem?_eq_getElem (Nat.sub_one_lt_of_lt hlength))
  rw [Nat.sub_add_cancel hlength, take_length] at hle
  refine hle.trans (Int.mul_le_mul_of_nonneg_left (Int.ofNat_le.mpr ?_) (by decide))
  have hsum := sum_generations_le (by decide : 0 < blocksPerGeneration) 256
    blockSubsidyByGeneration chain.length
  have htotal : blocksPerGeneration * blockSubsidyByGeneration.sum = 1860495750 := by decide
  simp only [subsidyCoins]
  omega

end

/-- Two empty blocks after the genesis block; the second one has two possible timestamps. -/
theorem validChain_mock {delay : ℕ} (hdelay : delay < 2) : let _ := MmrIndexing.reference
    ValidChain .testnetMock [Mock.genesis, Mock.first,
      Mock.child [Mock.genesis] Mock.first delay] := by
  intro _
  have hfirst : (Mock.first.validate Mock.genesis Mock.first.header.timestamp
      .testnetMock).Returns () := by
    unfold Returns
    decide +kernel
  have hsecond : ∀ delay < 2, let B := Mock.child [Mock.genesis] Mock.first delay
      (B.validate Mock.first Mock.second.header.timestamp .testnetMock).Returns () := by
    unfold Returns
    decide +kernel
  refine ⟨⟨Mock.genesis, rfl, (some_get _).symm⟩, fun i P B hP hB => ?_⟩
  match i, hP, hB with
  | 0, hP, hB =>
    cases hP
    cases hB
    exact ⟨_, by decide +kernel, hfirst⟩
  | 1, hP, hB =>
    cases hP
    cases hB
    exact ⟨_, by decide +kernel, hsecond delay hdelay⟩
  | i + 2, _, hB => simp at hB

/-- Two empty blocks after the genesis block. -/
theorem minted_le_mock : ∃ _ : MmrIndexing, ∃ chain : List (Block SymbolicDigest),
    ValidChain .testnetMock chain ∧ chain.length = 3 ∧
      minted chain ≤ (coins (2660495750 + 256 * chain.length)).nau := by
  let _ := MmrIndexing.reference
  have h := validChain_mock Nat.two_pos
  exact ⟨_, _, h, rfl, minted_le h⟩

/-! ## Fork choice -/

theorem genesisDifficulty_pos (network : Network) : 0 < network.genesisDifficulty.toBigUint := by
  cases network with
  | testnet i => exact (by decide : 0 < Network.testnetMock.genesisDifficulty.toBigUint)
  | _ => decide

omit [Tip5 D] [MmrOps D] [DecidableEq D] [DigestOps D] [ConsensusOps D] [Inhabited D]
  [LawfulMmr D] in
theorem expectedDifficulty_pos {P : Block D} {d : Difficulty}
    (hP : 0 < P.header.difficulty.toBigUint) (hd : B.expectedDifficulty P network = some d) :
    0 < d.toBigUint := by
  rw [expectedDifficulty] at hd
  split at hd
  · cases hd
    exact genesisDifficulty_pos network
  · cases hheight : P.header.height.isGenesis with
    | true =>
      rw [difficultyControl, if_pos hheight] at hd
      cases hd
      exact hP
    | false =>
      have htarget : network.targetBlockInterval.value ≠ 0 := by
        cases network with
        | testnet i => exact (by decide : Network.main.targetBlockInterval.value ≠ 0)
        | _ => decide
      cases he : checkedI64 (wrapI64 (B.header.timestamp - P.header.timestamp).value -
          wrapI64 network.targetBlockInterval.value) with
      | none => simp [difficultyControl, hheight, he] at hd
      | some e =>
        obtain ⟨r, hr, hvalue⟩ := difficultyControl_eq hheight htarget he
        rw [hr] at hd
        cases hd
        omega

section
variable [MmrIndexing] {chain : List (Block D)} (hchain : ValidChain network chain)
include hchain

omit [Inhabited D] [LawfulMmr D] in
theorem ValidChain.difficulty_pos {i : ℕ} (hB : chain[i]? = some B) :
    0 < B.header.difficulty.toBigUint := by
  induction i generalizing B with
  | zero =>
    rw [(hchain.genesis_eq hB).1]
    exact genesisDifficulty_pos network
  | succ i ih =>
    obtain ⟨P, now, hP, hvalid⟩ := hchain.exists_parent hB
    exact expectedDifficulty_pos (ih hP) (headerFits_of_validate hvalid).difficulty_eq

/-- Work grows from block to block, as long as it fits its word. -/
theorem ValidChain.work_lt {P : Block D}
    (hwork : (chain.tail.map (·.header.difficulty.toBigUint)).sum < 2 ^ 192) {i j : ℕ}
    (hij : i < j) (hP : chain[i]? = some P) (hB : chain[j]? = some B) :
    P.header.cumulativeProofOfWork.toBigUint < B.header.cumulativeProofOfWork.toBigUint := by
  have hmono : ∀ {l l' : List (Block D)}, l <+ l' → (l.map (·.header.difficulty.toBigUint)).sum ≤
      (l'.map (·.header.difficulty.toBigUint)).sum := fun h =>
    (h.map _).sum_le_sum fun _ _ => Nat.zero_le _
  have htake : ∀ {k C}, chain[k]? = some C → chain.take k ++ [C] = chain.take (k + 1) := by
    intro k C hC
    rw [take_add_one, hC]
    rfl
  have hlt : ∀ k, ((chain.take k).tail.map (·.header.difficulty.toBigUint)).sum < 2 ^ 192 :=
    fun k => (hmono (take_sublist k chain).tail).trans_lt hwork
  have hne : chain.take j ≠ [] := by
    intro hnil
    rcases take_eq_nil_iff.mp hnil with rfl | rfl
    · exact Nat.not_lt_zero i hij
    · cases hB
  have hi := hmono (take_sublist_take_left (l := chain) (show i + 1 ≤ j from hij)).tail
  have hpos := hchain.difficulty_pos hB
  rw [(hchain.placed hP).work_eq, (hchain.placed hB).work_eq, htake hP, htake hB,
    Nat.mod_eq_of_lt (hlt _), Nat.mod_eq_of_lt (hlt _), ← htake hB, tail_append_of_ne_nil hne,
    map_append, sum_append, map_singleton, sum_singleton]
  omega

/-- **The higher block wins.**  A valid chain is followed to its end and never back, as long as its
work fits its word. -/
theorem forkChoiceRule_eq_higher {P : Block D}
    (hwork : (chain.tail.map (·.header.difficulty.toBigUint)).sum < 2 ^ 192) {i j : ℕ}
    (hij : i ≤ j) (hP : chain[i]? = some P) (hB : chain[j]? = some B) :
    forkChoiceRule P B = B ∧ forkChoiceRule B P = B := by
  rcases hij.lt_or_eq with hlt | rfl
  · have hless := hchain.work_lt hwork hlt hP hB
    have hheight : P.header.height ≠ B.header.height := by
      intro heq
      have h := (hchain.placed hP).height_eq
      rw [heq, (hchain.placed hB).height_eq, length_take, length_take] at h
      have hj := (List.getElem?_eq_some_iff.mp hB).1
      omega
    rw [forkChoiceRule, if_pos hheight, forkChoiceRule, if_pos hheight.symm, if_neg, if_pos]
    · exact ⟨rfl, rfl⟩
    · exact ProofOfWork.le_iff.mpr hless.le
    · rw [ProofOfWork.le_iff]
      exact hless.not_ge
  · obtain rfl := some_inj.mp (hP.symm.trans hB)
    rw [forkChoiceRule, if_neg (not_not.mpr rfl), ite_self]
    exact ⟨rfl, rfl⟩

end

theorem forkChoiceRule_eq_higher_mock : ∃ _ : MmrIndexing,
    ValidChain .testnetMock [Mock.genesis, Mock.first, Mock.second] ∧
      forkChoiceRule Mock.first Mock.second = Mock.second ∧
      forkChoiceRule Mock.second Mock.first = Mock.second := by
  let _ := MmrIndexing.reference
  have h := validChain_mock Nat.two_pos
  exact ⟨_, h, forkChoiceRule_eq_higher (i := 1) (j := 2) h
    (by decide +kernel) (by decide) rfl rfl⟩

/-! ## History -/

omit [DigestOps D] [ConsensusOps D] in
theorem ofLeafs_injective [Tip5.CollisionFree D] :
    Function.Injective (MmrAccumulator.ofLeafs : List D → MmrAccumulator D) := by
  have hmem : ∀ {ls ms : List D}, MmrAccumulator.ofLeafs ls = MmrAccumulator.ofLeafs ms →
      ∀ (i : ℕ) d, ls[i]? = some d → ms[i]? = some d := by
    intro ls ms h i d hd
    have hverify := verify_ofLeafs_iff.mpr ⟨hd, rfl⟩
    rw [h] at hverify
    exact (verify_ofLeafs_iff.mp hverify).1
  exact fun ls ms h =>
    List.ext_getElem? fun i => Option.ext fun d => ⟨hmem h i d, hmem h.symm i d⟩

/-- **A block fixes its history.**  Two valid chains with a block in common have the same blocks
before it, by their digests. -/
theorem history_unique [Tip5.CollisionFree D] [MmrIndexing] {network' : Network}
    {chain chain' : List (Block D)} (hchain : ValidChain network chain)
    (hchain' : ValidChain network' chain') {i j : ℕ} (hB : chain[i]? = some B)
    (hB' : chain'[j]? = some B) :
    (chain.take (i + 1)).map (·.hash) = (chain'.take (j + 1)).map (·.hash) := by
  have hbefore := (hchain.placed hB).blockMmr_eq.symm.trans (hchain'.placed hB').blockMmr_eq
  rw [take_add_one, hB, take_add_one, hB', map_append, map_append, ofLeafs_injective hbefore]

/-- Two chains that part after their second block. -/
theorem history_unique_mock : ∃ _ : MmrIndexing, ∃ chain chain' : List (Block SymbolicDigest),
    ValidChain .testnetMock chain ∧ ValidChain .testnetMock chain' ∧ chain[2]? ≠ chain'[2]? ∧
      (chain.take 2).map (·.hash) = (chain'.take 2).map (·.hash) := by
  let _ := MmrIndexing.reference
  have h := validChain_mock Nat.two_pos
  have h' := validChain_mock Nat.one_lt_two
  exact ⟨_, _, _, h, h', by decide +kernel, history_unique (i := 1) (j := 1) h h' rfl rfl⟩

end NyksNode.Block
