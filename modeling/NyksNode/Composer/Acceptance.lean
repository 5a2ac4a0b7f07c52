import NyksNode.Block.ChainInvariant
import NyksNode.Block.Confirmable
import NyksNode.Composer.Pipeline
import NyksNode.Packing.Validated
import NyksNode.Wallet.UtxoPool

/-!
# What the composer submits

Header, body and transaction of a composed block come from three places, and validation recomputes
each field by its own rules.  The body always fits the tip, and the transaction always fits the
body.  But the timestamp is a clock reading that nothing compares with the tip, and the template of
the header does not know about resets of the difficulty.
-/

namespace NyksNode

open Option NativeCurrencyAmount MutatorSetUpdate Block Fallible
open PendingUpdates (Ordinary)

section
variable {D : Type} [Tip5 D] [DecidableEq D] [MmrOps D] [MmrIndexing] [ConsensusOps D]
  [DigestOps D]

/-! ## Checks -/

namespace Block

/-- The checks of `validate`, except for those on the proof, the size and the counts. -/
structure PassesChecks (B P : Block D) (now : Timestamp) (network : Network) : Prop where
  header : (B.validateHeader P now network).Returns ()
  mutatorSet : ∃ inputs, (B.validateMutatorSet P).Returns inputs
  timestamp : B.body.transactionKernel.timestamp ≤ B.header.timestamp
  coinbase : B.validateCoinbase.Returns ()
  fee : B.body.transactionKernel.fee.isNegative = false

/-- The checks on the counts of inputs, outputs and announcements. -/
structure CountsFit (B : Block D) (rules : ConsensusRuleSet) : Prop where
  inputs : ∀ inputs, B.kernel.unpackedInputs.Returns inputs → inputs.length ≤ rules.maxNumInputs
  outputs : B.body.transactionKernel.outputs.length ≤ rules.maxNumOutputs
  announcements : B.body.transactionKernel.announcements.length ≤ rules.maxNumAnnouncements

/-- **All checks of a block.** -/
theorem validate_returns_iff {B P : Block D} {now : Timestamp} {network : Network} :
    (B.validate P now network).Returns () ↔
      B.PassesChecks P now network ∧ B.validateBlockProof network = .ok () ∧
      B.size ≤ (ConsensusRuleSet.inferFrom network B.header.height).maxBlockSize ∧
      B.CountsFit (.inferFrom network B.header.height) := by
  simp only [validate, validateTransaction, returns_bind, returns_ensure, returns_liftExcept,
    decide_eq_true_eq, exists_const, Bool.not_eq_true]
  constructor
  · intro h
    obtain ⟨_, hheader, _, hproof, hsize, inputs, hms, htime, _, hcoinbase, hfee, hin, hout,
      hann⟩ := h
    refine ⟨⟨hheader, ⟨inputs, hms⟩, htime, hcoinbase, hfee⟩, hproof, hsize, ?_, hout, hann⟩
    intro inputs' hinputs'
    obtain ⟨A, -, hev⟩ := evolves_of_validateMutatorSet hms
    rwa [hinputs'.unique hev.unpacked]
  · intro h
    obtain ⟨⟨hheader, ⟨inputs, hms⟩, htime, hcoinbase, hfee⟩, hproof, hsize, hcounts⟩ := h
    obtain ⟨A, -, hev⟩ := evolves_of_validateMutatorSet hms
    exact ⟨(), hheader, (), hproof, hsize, inputs, hms, htime, (), hcoinbase, hfee,
      hcounts.inputs _ hev.unpacked, hcounts.outputs, hcounts.announcements⟩

end Block

/-! ## The transaction -/

namespace MergeWitness
variable {σ : Type} [ShuffleRng σ] {seed : Vector (Fin 256) 32}

/-- What a merged kernel has from its two parts. -/
structure Merges (left right k : TransactionKernel D) : Prop where
  right_fee : right.fee.isNegative = false
  right_coinbase : right.coinbase = none
  inputs : k.inputs.Perm (left.inputs ++ right.inputs)
  fee : k.fee.nau = left.fee.nau + right.fee.nau
  coinbase : k.coinbase = left.coinbase
  timestamp : k.timestamp = .max left.timestamp right.timestamp
  mutatorSetHash : k.mutatorSetHash = left.mutatorSetHash

omit [Tip5 D] [MmrOps D] [MmrIndexing] [ConsensusOps D] [DigestOps D] in
theorem merges_of_newKernel {left right k : TransactionKernel D}
    (h : newKernel σ left right seed = some k) : Merges left right k := by
  rw [newKernel] at h
  split_ifs at h with hhash hfee hcoinbase
  rw [bind_eq_some] at h
  obtain ⟨fee, hadd, hk⟩ := h
  cases hk
  exact ⟨Bool.eq_false_iff.mpr hfee, not_isSome_iff_eq_none.mp hcoinbase,
    ShuffleRng.shuffle_perm _ _, add_eq_some hadd, rfl, rfl, rfl⟩

end MergeWitness

namespace TransactionProver
variable [WalletOps D]

omit [DecidableEq D] [MmrIndexing] [DigestOps D] in
/-- The coinbase transaction has no inputs, and leaves the guesser what it does not spend. -/
theorem prepareCoinbaseTransaction_eq_some {args : Args D} {tip : Block D} {timestamp : Timestamp}
    {A : MutatorSetAccumulator D} {k : TransactionKernel D}
    (h : prepareCoinbaseTransaction args tip timestamp A = some k) :
    k.inputs = [] ∧ k.fee.isNegative = false ∧
      k.coinbase = some (blockSubsidy tip.header.height.next) ∧ k.timestamp = timestamp ∧
      k.mutatorSetHash = A.hash := by
  simp only [prepareCoinbaseTransaction, bind_eq_some, some_inj] at h
  obtain ⟨outputs, -, total, -, fee, hfee, rfl⟩ := h
  exact ⟨rfl, isNegative_of_checkedSub hfee, rfl, rfl, rfl⟩

variable [ProverOps D] {c : Circumstances D} {A : MutatorSetAccumulator D}

omit [MmrIndexing] [ConsensusOps D] [DigestOps D] [WalletOps D] [ProverOps D] in
theorem mem_of_findMempoolMerger {txs : List (Option (Transaction D))} {tx : Transaction D}
    (h : findMempoolMerger A txs = some tx) :
    some tx ∈ txs ∧ tx.kernel.mutatorSetHash = A.hash := by
  obtain ⟨entry, hentry, hfilter⟩ := List.exists_of_findSome?_eq_some h
  obtain ⟨rfl, hok⟩ := filter_eq_some_iff.mp hfilter
  exact ⟨hentry, (of_decide_eq_true hok).2⟩

omit [MmrIndexing] in
theorem prepareMergeTransaction_cases :
    (some (prepareMergeTransaction c A) ∈ c.mempool ++ c.mempoolAfterNop ∧
      (prepareMergeTransaction c A).kernel.mutatorSetHash = A.hash) ∨
    prepareMergeTransaction c A = prepareNopTransaction c.nopTime A := by
  rw [prepareMergeTransaction]
  cases hfirst : findMempoolMerger A c.mempool with
  | some tx =>
    have hmem := mem_of_findMempoolMerger hfirst
    exact .inl ⟨List.mem_append_left _ hmem.1, hmem.2⟩
  | none =>
    cases hsecond : findMempoolMerger A c.mempoolAfterNop with
    | some tx =>
      have hmem := mem_of_findMempoolMerger hsecond
      exact .inl ⟨List.mem_append_right _ hmem.1, hmem.2⟩
    | none => exact .inr rfl

/-- What the kernel of a block transaction is made of. -/
structure Prepares (c : Circumstances D) (A : MutatorSetAccumulator D)
    (k : TransactionKernel D) : Prop where
  inputs : ∃ inputs, inputs.Perm (prepareMergeTransaction c A).kernel.inputs ∧
    RemovalRecordList.pack inputs = some k.inputs
  fee : k.fee.isNegative = false
  coinbase : k.coinbase = some (blockSubsidy c.tip.header.height.next)
  timestamp : k.timestamp = .max c.coinbaseTime (prepareMergeTransaction c A).kernel.timestamp
  mutatorSetHash : k.mutatorSetHash = A.hash

variable {σ : Type} [ShuffleRng σ]

theorem prepares_of_prepareBlockTransaction {args : Args D} {k : TransactionKernel D}
    (h : prepareBlockTransaction σ args c = some k) :
    ∃ A, c.tip.mutatorSetAccumulatorAfter.Returns A ∧ Prepares c A k := by
  simp only [prepareBlockTransaction, MergeWitness.newBlockTransactionKernel, bind_eq_some,
    unwrap_eq_some_iff, ite_none_right_eq_some, some_inj] at h
  obtain ⟨A, hA, left, hleft, -, merged, hmerged, packed, hpacked, rfl⟩ := h
  obtain ⟨hinputs, hfee, hcoinbase, htimestamp, hhash⟩ := prepareCoinbaseTransaction_eq_some hleft
  have hmerges := MergeWitness.merges_of_newKernel hmerged
  refine ⟨A, hA, ⟨merged.inputs, ?_, hpacked⟩, ?_, ?_, ?_, ?_⟩
  · have hperm := hmerges.inputs
    rwa [hinputs, List.nil_append] at hperm
  · rw [isNegative_eq_false_iff] at hfee ⊢
    have hright := isNegative_eq_false_iff.mp hmerges.right_fee
    change 0 ≤ merged.fee.nau
    rw [hmerges.fee]
    exact Int.add_nonneg hfee hright
  · exact hmerges.coinbase.trans hcoinbase
  · rw [← htimestamp]
    exact hmerges.timestamp
  · exact hmerges.mutatorSetHash.trans hhash

end TransactionProver

open TransactionProver

/-! ## Transactions of the mempool -/

/-- A transaction that a node accepts, with inputs as they are made: the dictionaries are sorted,
and each input has an index that is not set and that no other input has. -/
structure TransactionKernel.Mineable (k : TransactionKernel D) (A : MutatorSetAccumulator D)
    (now : Timestamp) : Prop where
  confirmable : (k.isConfirmableRelativeTo A).Returns ()
  sorted : ∀ rr ∈ k.inputs, rr.targetChunks.allChunkIndices.Pairwise (· < ·)
  indices : ∀ rr ∈ k.inputs, ∀ i ∈ rr.absoluteIndices.toArray, i < 2 ^ 76
  own_index : ∀ before rr after, k.inputs = before ++ rr :: after →
    SetsNewIndex A (before ++ after) rr
  timestamp_lt : k.timestamp < now + futuredatingLimit

namespace TransactionKernel.Mineable
variable {k : TransactionKernel D} {A : MutatorSetAccumulator D} {now : Timestamp}
  {inputs : List (RemovalRecord D)}

section
omit [MmrIndexing] [ConsensusOps D] [DigestOps D] [DecidableEq D]

theorem canRemove (h : k.Mineable A now) {rr : RemovalRecord D} (hrr : rr ∈ k.inputs) :
    A.canRemove rr = some true :=
  ((isConfirmableRelativeTo_returns_iff k A).mp h.confirmable).2 rr hrr

theorem setsNewIndex (h : k.Mineable A now) (hperm : inputs.Perm k.inputs)
    {before after : List (RemovalRecord D)} {rr : RemovalRecord D}
    (hsplit : inputs = before ++ rr :: after) : SetsNewIndex A before rr := by
  have hmem : rr ∈ k.inputs := hperm.subset (by simp [hsplit])
  obtain ⟨b, a, hk⟩ := List.append_of_mem hmem
  obtain ⟨i, hi, habsent, hothers⟩ := h.own_index b rr a hk
  rw [hsplit, hk] at hperm
  have hrest : (before ++ after).Perm (b ++ a) :=
    (List.perm_middle.symm.trans (hperm.trans List.perm_middle)).cons_inv
  exact ⟨i, hi, habsent, fun rr' hrr' => hothers rr' (hrest.subset (List.mem_append_left _ hrr'))⟩

theorem nodup (h : k.Mineable A now) (hperm : inputs.Perm k.inputs) :
    (inputs.map fun rr => rr.absoluteIndices.toArray).Nodup := by
  refine List.pairwise_map.mpr (pairwise_of_forall_append fun before rr after hsplit rr' hrr' => ?_)
  obtain ⟨i, hi, -, hbefore⟩ := h.setsNewIndex hperm hsplit
  intro heq
  exact hbefore rr' hrr' (heq ▸ hi)

end

end TransactionKernel.Mineable

omit [DecidableEq D] [MmrIndexing] [ConsensusOps D] [DigestOps D] in
theorem TransactionKernel.mineable_of_nil {k : TransactionKernel D} {A : MutatorSetAccumulator D}
    {now : Timestamp} (hinputs : k.inputs = [])
    (htimestamp : k.timestamp < now + futuredatingLimit) : k.Mineable A now where
  confirmable := (isConfirmableRelativeTo_returns_iff k A).mpr (by simp [hinputs])
  sorted := by simp [hinputs]
  indices := by simp [hinputs]
  own_index := by simp [hinputs]
  timestamp_lt := htimestamp

/-! ## The block -/

/-- Header and body of a composed block, by its transaction. -/
structure BlockProver.Composes (network : Network) (tip : Block D) (k : TransactionKernel D)
    (A : MutatorSetAccumulator D) (inputs : List (RemovalRecord D)) (B : Block D) : Prop where
  kernel_eq : B.body.transactionKernel = k
  unpacks : RemovalRecordList.tryUnpack k.inputs = some (.ok inputs)
  applies : MutatorSetUpdate.applyToAccumulatorUnsafe ⟨inputs, k.outputs⟩ A =
    some B.body.mutatorSetAccumulator
  blockMmr : ∃ path, MmrOps.append tip.body.blockMmrAccumulator tip.hash =
    some (B.body.blockMmrAccumulator, path)
  height_eq : B.header.height = tip.header.height.next
  prevBlockDigest_eq : B.header.prevBlockDigest = tip.hash
  timestamp_eq : B.header.timestamp = k.timestamp
  difficulty_eq : difficultyControl k.timestamp tip.header.timestamp tip.header.difficulty
    network.targetBlockInterval tip.header.height = some B.header.difficulty
  work_eq : B.header.cumulativeProofOfWork =
    tip.header.cumulativeProofOfWork.add B.header.difficulty

theorem BlockProver.composes_of_composeBlock [ProverOps D] {network : Network} {tip B : Block D}
    {k : TransactionKernel D} {A : MutatorSetAccumulator D}
    (hA : tip.mutatorSetAccumulatorAfter.Returns A)
    (h : composeBlock network tip k k.timestamp = some B) :
    ∃ inputs, Composes network tip k A inputs B := by
  rw [composeBlock] at h
  simp only at h
  split_ifs at h with hverify hmerge
  simp only [BlockPrimitiveWitness.body, BlockHeader.templateHeader, bind_eq_bind,
    unwrap_eq_some_iff.mpr hA, bind_some, bind_eq_some_iff, some_inj, ite_none_left_eq_some] at h
  obtain ⟨body, ⟨-, unpacked, hunpacked, inputs, hinputs, msa, hmsa, ⟨mmr, path⟩, happend, rfl⟩,
    header, ⟨difficulty, hdifficulty, rfl⟩, rfl⟩ := h
  cases unpacked with
  | error e => cases hinputs
  | ok inputs' =>
    cases hinputs
    exact ⟨inputs, rfl, hunpacked, hmsa, ⟨path, happend⟩, rfl, rfl, rfl, hdifficulty, rfl⟩

namespace BlockProver.Composes
variable {network : Network} {tip B : Block D} {k : TransactionKernel D}
  {A : MutatorSetAccumulator D} {inputs : List (RemovalRecord D)} {now : Timestamp}

omit [DecidableEq D] [DigestOps D] in
/-- **The header** fits the tip if its timestamp does. -/
theorem headerFits_iff (h : Composes network tip k A inputs B)
    (hnow : k.timestamp < now + futuredatingLimit) : B.HeaderFits tip now network ↔
      tip.header.timestamp + network.minimumBlockTime ≤ k.timestamp ∧
      (Block.shouldResetDifficulty network k.timestamp tip.header.timestamp = true →
        difficultyControl k.timestamp tip.header.timestamp tip.header.difficulty
          network.targetBlockInterval tip.header.height = some network.genesisDifficulty) := by
  have hexpected : B.expectedDifficulty tip network = some B.header.difficulty ↔
      (shouldResetDifficulty network k.timestamp tip.header.timestamp = true →
        difficultyControl k.timestamp tip.header.timestamp tip.header.difficulty
          network.targetBlockInterval tip.header.height = some network.genesisDifficulty) := by
    rw [expectedDifficulty, h.timestamp_eq, h.difficulty_eq]
    by_cases hreset : shouldResetDifficulty network k.timestamp tip.header.timestamp = true
    · rw [if_pos hreset]
      exact ⟨fun heq _ => heq.symm, fun heq => (heq hreset).symm⟩
    · rw [if_neg hreset]
      exact ⟨fun _ htrue => absurd htrue hreset, fun _ => rfl⟩
  constructor
  · intro hfits
    exact ⟨h.timestamp_eq ▸ hfits.minimumBlockTime_le, hexpected.mp hfits.difficulty_eq⟩
  · intro hfits
    exact ⟨h.height_eq.symm, h.prevBlockDigest_eq.symm, h.blockMmr, h.timestamp_eq ▸ hfits.1,
      hexpected.mpr hfits.2, h.work_eq, h.timestamp_eq ▸ hnow⟩

omit [DigestOps D] [DecidableEq D] in
theorem unpackedInputs (h : Composes network tip k A inputs B) :
    B.kernel.unpackedInputs.Returns inputs := by
  simp only [BlockKernel.unpackedInputs, returns_bind, returns_orPanic]
  refine ⟨.ok inputs, ?_, returns_pure.mpr rfl⟩
  rw [← h.unpacks, ← h.kernel_eq]
  rfl

variable [Inhabited D] [LawfulMmr D] [MmrOps.ReportsPositions D] [Tip5.CollisionFree D]

omit [DigestOps D] in
/-- **The body** fits the tip if its inputs can be removed in turn. -/
theorem validateMutatorSet (h : Composes network tip k A inputs B) (hA : A.WellFormed)
    (hafter : tip.mutatorSetAccumulatorAfter.Returns A) (hhash : k.mutatorSetHash = A.hash)
    {tx : TransactionKernel D} (htx : tx.Mineable A now) (hperm : inputs.Perm tx.inputs) :
    (B.validateMutatorSet tip).Returns inputs := by
  obtain ⟨L, rfl⟩ := hA
  have hcan : ∀ rr ∈ inputs, L.accumulator.canRemove rr = some true :=
    fun rr hrr => htx.canRemove (hperm.subset hrr)
  have hs : ∀ rr ∈ inputs, L.Synced rr := fun rr hrr => Ledger.synced_of_canRemove (hcan rr hrr)
  have hord : ∀ rr ∈ inputs, Ordinary rr := ordinary_of_tryUnpack h.unpacks
  obtain ⟨⟨A', outcome⟩, happly, hbody⟩ := map_eq_some_iff.mp h.applies
  have hlt := lt_of_applyToAccumulator (u := ⟨inputs, k.outputs⟩) hs hord happly
  obtain ⟨L', happly', -⟩ :=
    applyToAccumulator_eq (u := ⟨inputs, k.outputs⟩) hs hord hlt
  have hnew : setsNewIndices L.bits (inputs.map (·.absoluteIndices)) = true := by
    refine (setsNewIndices_iff hord).mpr fun before rr after hsplit => ?_
    have hrr : rr ∈ inputs := by simp [hsplit]
    exact (setsNewIndex_iff (hs rr hrr) (hord rr hrr)).mp (htx.setsNewIndex hperm hsplit)
  rw [hnew, if_pos rfl, happly] at happly'
  cases happly'
  have hdedup : (inputs.map fun rr => rr.absoluteIndices.toArray).dedup.length = inputs.length := by
    rw [(htx.nodup hperm).dedup, List.length_map]
  simp only [validateMutatorSet, returns_bind, returns_ensure, returns_orPanic, returns_forM,
    returns_pure, decide_eq_true_eq]
  refine ⟨inputs, h.unpackedInputs, L.accumulator, hafter, (), fun rr hrr => ?_, (), ?_, (), hdedup,
    (L'.accumulator, .ok ()), ?_, (), rfl, (), ?_, rfl⟩
  · exact ⟨true, hcan rr hrr, rfl⟩
  · rw [h.kernel_eq, hhash]
  · rw [h.kernel_eq]
    exact happly
  · exact congrArg _ hbody

end BlockProver.Composes

/-! ## The pipeline -/

namespace Circumstances
variable [WalletOps D] [ProverOps D]

/-- The timestamp of the block: the later one of the clock reading and the merged transaction. -/
def blockTimestamp (c : Circumstances D) (A : MutatorSetAccumulator D) : Timestamp :=
  .max c.coinbaseTime (TransactionProver.prepareMergeTransaction c A).kernel.timestamp

/-- What nothing in the composer sees to: the minimum block time has passed, and if the difficulty
is to be reset, it comes out as that of the genesis block anyway. -/
structure Timely (c : Circumstances D) (network : Network) (A : MutatorSetAccumulator D) :
    Prop where
  minimumBlockTime_le : c.tip.header.timestamp + network.minimumBlockTime ≤ c.blockTimestamp A
  difficulty_eq : Block.shouldResetDifficulty network (c.blockTimestamp A)
      c.tip.header.timestamp = true →
    difficultyControl (c.blockTimestamp A) c.tip.header.timestamp c.tip.header.difficulty
      network.targetBlockInterval c.tip.header.height = some network.genesisDifficulty

/-- The node has a valid tip, the clocks of composer and node agree, and the transactions of the
mempool that are in step with the tip can be in a block. -/
structure Honest (c : Circumstances D) (network : Network) (A : MutatorSetAccumulator D)
    (now : Timestamp) : Prop where
  onChain : c.tip.OnChain network
  after : c.tip.mutatorSetAccumulatorAfter.Returns A
  coinbaseTime_lt : c.coinbaseTime < now + futuredatingLimit
  nopTime_lt : c.nopTime < now + futuredatingLimit
  mineable : ∀ tx, some tx ∈ c.mempool ++ c.mempoolAfterNop →
    tx.kernel.mutatorSetHash = A.hash → tx.kernel.Mineable A now

variable {c : Circumstances D} {network : Network} {A : MutatorSetAccumulator D} {now : Timestamp}

theorem Honest.mineable_merge (h : c.Honest network A now) :
    (prepareMergeTransaction c A).kernel.Mineable A now := by
  cases prepareMergeTransaction_cases (c := c) (A := A) with
  | inl hmempool => exact h.mineable _ hmempool.1 hmempool.2
  | inr hnop =>
    rw [hnop]
    exact TransactionKernel.mineable_of_nil rfl h.nopTime_lt

theorem Honest.blockTimestamp_lt (h : c.Honest network A now) :
    c.blockTimestamp A < now + futuredatingLimit := by
  rw [blockTimestamp, Timestamp.max]
  split
  · exact h.mineable_merge.timestamp_lt
  · exact h.coinbaseTime_lt

end Circumstances

namespace BlockBuilder
variable [WalletOps D] [ProverOps D] {σ : Type} [ShuffleRng σ] {args : Args D}
  {c : Circumstances D} {A : MutatorSetAccumulator D} {B : Block D} {now : Timestamp}

theorem composes_of_runPipeline (hA : c.tip.mutatorSetAccumulatorAfter.Returns A)
    (h : runPipeline σ args c = some B) : ∃ k inputs, TransactionProver.Prepares c A k ∧
      BlockProver.Composes args.network c.tip k A inputs B := by
  rw [runPipeline, bind_eq_some] at h
  obtain ⟨k, hk, hB⟩ := h
  obtain ⟨A', hA', hprepares⟩ := prepares_of_prepareBlockTransaction hk
  obtain rfl := hA.unique hA'
  obtain ⟨inputs, hcomposes⟩ := BlockProver.composes_of_composeBlock hA hB
  exact ⟨k, inputs, hprepares, hcomposes⟩

variable [Inhabited D] [LawfulMmr D] [MmrOps.ReportsPositions D] [Tip5.CollisionFree D]

theorem perm_inputs (hbody : c.tip.body.mutatorSetAccumulator.WellFormed)
    (hA : c.tip.mutatorSetAccumulatorAfter.Returns A) {k : TransactionKernel D}
    {inputs : List (RemovalRecord D)} (hprepares : TransactionProver.Prepares c A k)
    (hcomposes : BlockProver.Composes args.network c.tip k A inputs B)
    (htx : (prepareMergeTransaction c A).kernel.Mineable A now) :
    inputs.Perm (prepareMergeTransaction c A).kernel.inputs := by
  obtain ⟨L, rfl⟩ := wellFormed_after hbody hA
  obtain ⟨merged, hperm, hpack⟩ := hprepares.inputs
  have hmem : ∀ rr ∈ merged, rr ∈ (prepareMergeTransaction c L.accumulator).kernel.inputs :=
    fun rr hrr => hperm.subset hrr
  have hvalid : ∀ rr ∈ merged, rr.validate L.accumulator = true := fun rr hrr =>
    (Ledger.validate_accumulator_iff L rr).mpr
      (Ledger.synced_of_canRemove (htx.canRemove (hmem rr hrr)))
  have heq := eq_of_tryUnpack_of_validate (A := L.accumulator) L.length_lt
    L.length_inactiveLeafs hvalid (fun rr hrr => htx.sorted rr (hmem rr hrr))
    (fun rr hrr => htx.indices rr (hmem rr hrr)) hpack hcomposes.unpacks
  rw [heq]
  exact hperm

variable [MmrOps.CollisionFree D]

/-- **What the composer submits** passes all checks exactly if it is timely. -/
theorem composed_block_passes_iff (hc : c.Honest args.network A now)
    (h : runPipeline σ args c = some B) :
    B.PassesChecks c.tip now args.network ↔ c.Timely args.network A := by
  obtain ⟨k, inputs, hprepares, hcomposes⟩ := composes_of_runPipeline hc.after h
  have hbody := hc.onChain.wellFormed
  have htx := hc.mineable_merge
  have hk : k.timestamp = c.blockTimestamp A := hprepares.timestamp
  have hheader : (B.validateHeader c.tip now args.network).Returns () ↔
      c.Timely args.network A := by
    rw [validateHeader_returns_iff, hcomposes.headerFits_iff (hk ▸ hc.blockTimestamp_lt), hk]
    exact ⟨fun h => ⟨h.1, h.2⟩, fun h => ⟨h.1, h.2⟩⟩
  refine ⟨fun hpasses => hheader.mp hpasses.header, fun htimely => ?_⟩
  have hperm := perm_inputs hbody hc.after hprepares hcomposes htx
  refine ⟨hheader.mpr htimely, ⟨inputs, ?_⟩, ?_, ?_, ?_⟩
  · exact hcomposes.validateMutatorSet (wellFormed_after hbody hc.after) hc.after
      hprepares.mutatorSetHash htx hperm
  · rw [hcomposes.kernel_eq, hcomposes.timestamp_eq]
    exact Nat.le_refl _
  · simp only [validateCoinbase, hcomposes.kernel_eq, hprepares.coinbase,
      hcomposes.height_eq, returns_bind, returns_ensure, decide_eq_true_eq]
    exact ⟨(), Int.lt_irrefl _, by simp [isNegative_blockSubsidy]⟩
  · rw [hcomposes.kernel_eq]
    exact hprepares.fee

end BlockBuilder

end

/-! ## On top of the genesis block -/

namespace FirstBlock

local instance indexing : MmrIndexing := .reference

local instance prover : ProverOps SymbolicDigest := ⟨fun _ => ⟨[]⟩⟩

local instance inOrder : ShuffleRng Unit := ⟨fun _ => (), fun l _ => (l, ()), fun l _ => .refl l⟩

def tip : Block SymbolicDigest := (Block.genesis .main).get isSome_genesis

def afterTip : MutatorSetAccumulator SymbolicDigest :=
  tip.mutatorSetAccumulatorAfter.unwrap.getD .empty

def circumstances (clock : Timestamp) (mempool : List (Option (Transaction SymbolicDigest))) :
    Circumstances SymbolicDigest where
  tip := tip
  coinbaseTime := clock
  mempool := mempool
  nopTime := clock
  mempoolAfterNop := []
  shuffleSeed := .replicate 32 0

def args : Args SymbolicDigest where
  address := ⟨.zero, .zero⟩
  network := .main
  guesserFeeFraction := .ofNat 1

theorem honest_circumstances {clock : Timestamp}
    {mempool : List (Option (Transaction SymbolicDigest))}
    (hclock : clock < clock + futuredatingLimit)
    (hmempool : ∀ tx, some tx ∈ mempool → tx.kernel.Mineable afterTip clock) :
    (circumstances clock mempool).Honest .main afterTip clock where
  onChain := .genesis (some_get isSome_genesis).symm
  after := by
    change tip.mutatorSetAccumulatorAfter.run = some (.ok afterTip)
    decide +kernel
  coinbaseTime_lt := hclock
  nopTime_lt := hclock
  mineable tx htx _ := hmempool tx (by simpa [circumstances] using htx)

def late : Timestamp := .millis 1784905260000

/-- A transaction of the mempool, with an input and an output. -/
def spending : Transaction SymbolicDigest where
  kernel := ⟨[zeroThenOnes], [⟨.atom 4⟩], [], ⟨1⟩, none, late, afterTip.hash, false⟩
  proof := .singleProof ⟨[]⟩

theorem mineable_spending : spending.kernel.Mineable afterTip late where
  confirmable := by
    unfold Returns
    decide +kernel
  sorted := by decide +kernel
  indices := by decide +kernel
  own_index before rr after hsplit := by
    obtain ⟨rfl, rfl, rfl⟩ : before = [] ∧ rr = zeroThenOnes ∧ after = [] := by
      simpa [spending, List.append_eq_singleton_iff] using hsplit.symm
    unfold SetsNewIndex
    decide +kernel
  timestamp_lt := by decide +kernel

def busy : Circumstances SymbolicDigest := circumstances late [some spending]

theorem timely_busy : busy.Timely .main afterTip where
  minimumBlockTime_le := by decide +kernel
  difficulty_eq hreset := absurd hreset (by decide +kernel)

/-- A block with a transaction of the mempool, a minute after its tip. -/
theorem busy_passes : ∃ B, busy.Honest .main afterTip late ∧
      BlockBuilder.runPipeline Unit args busy = some B ∧
      B.body.transactionKernel.inputs.length = 1 ∧ B.PassesChecks tip late .main := by
  have hrun : ∃ B, BlockBuilder.runPipeline Unit args busy = some B ∧
      B.body.transactionKernel.inputs.length = 1 := by
    decide +kernel
  have hhonest : busy.Honest .main afterTip late :=
    honest_circumstances (by decide +kernel) fun tx htx => by
      obtain rfl : tx = spending := by simpa using htx
      exact mineable_spending
  obtain ⟨B, hB, hinputs⟩ := hrun
  exact ⟨B, hhonest, hB, hinputs,
    (BlockBuilder.composed_block_passes_iff hhonest hB).mpr timely_busy⟩

def early : Timestamp := .millis 1784905200001

/-- A millisecond after its tip, a block is built all the same, and does not pass. -/
theorem early_not_passes : ∃ A B, (circumstances early []).Honest .main A early ∧
      BlockBuilder.runPipeline Unit args (circumstances early []) = some B ∧
      ¬ B.PassesChecks tip early .main := by
  have hrun : ∃ B, BlockBuilder.runPipeline Unit args (circumstances early []) = some B ∧
      ¬ tip.header.timestamp + Network.main.minimumBlockTime ≤ B.header.timestamp := by
    decide +kernel
  obtain ⟨B, hB, hearly⟩ := hrun
  refine ⟨_, B, honest_circumstances (by decide +kernel) (by simp), hB, fun hpasses => hearly ?_⟩
  exact (validateHeader_returns_iff.mp hpasses.header).minimumBlockTime_le

end FirstBlock

end NyksNode
