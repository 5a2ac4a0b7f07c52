import NyksNode.Block.Successor

/-!
# Blocks and the mutator set

A block says twice what it does to the mutator set: its body holds the accumulator after
the transaction, to which the guesser fee is added, and its update lists all inputs and
outputs, guesser fee included.  Validation compares the body with the transaction
only.  On a valid chain the two agree.
-/

namespace NyksNode

open List Option MutatorSetAccumulator Tip5.CollisionFree MutatorSetUpdate RemovalRecordList

open Fallible
open PendingUpdates (Ordinary)

variable {D : Type}

/-! ## Unpacked records -/

section
variable [MmrIndexing]

theorem keys_of_restoreRecord {n start : ℕ} {chunks : AssocMap ℕ Chunk}
    {s : AssocMap (ℕ × ℕ) D} {indexSet : AbsoluteIndexSet} {rr : RemovalRecord D}
    (hrr : restoreRecord n start chunks s indexSet = some rr) :
    rr.absoluteIndices = indexSet ∧ rr.targetChunks.allChunkIndices.Nodup := by
  simp only [restoreRecord, bind_eq_some, some_inj] at hrr
  obtain ⟨keys, hkeys, entries, hentries, rfl⟩ := hrr
  refine ⟨rfl, ?_⟩
  have hmap : entries.map (·.1) = keys := by
    refine (forall₂_eq_eq_eq ▸ forall₂_map_left_iff.mpr ?_ : entries.map (·.1) = keys)
    refine (forall₂_of_mapM hentries).flip.imp fun e c he => ?_
    simp only [restoreEntry, bind_eq_some, some_inj] at he
    obtain ⟨_, -, _, -, _, -, _, -, rfl⟩ := he
    rfl
  have hnodup : keys.Nodup := by
    obtain ⟨is, -, rfl⟩ := map_eq_some_iff.mp hkeys
    exact nodup_ascending is
  rw [ChunkDictionary.allChunkIndices, ChunkDictionary.new,
    ((perm_insertionSort _ entries).map (·.1)).nodup_iff, hmap]
  exact hnodup

variable {rrs packed : List (RemovalRecord D)} {l : RemovalRecordList D}

/-- Restored records have the index sets of the list, and each key once. -/
theorem keys_of_convertToVec [Tip5 D] (hrrs : l.convertToVec = some rrs) :
    ∀ rr ∈ rrs, rr.absoluteIndices ∈ l.indexSets ∧ rr.targetChunks.allChunkIndices.Nodup := by
  rw [convertToVec] at hrrs
  simp only [bind_eq_bind, ite_none_left_eq_some, bind_eq_some_iff] at hrrs
  obtain ⟨-, _, -, _, -, _, -, -, _, -, hmap⟩ := hrrs
  intro rr hrr
  obtain ⟨indexSet, hmem, hrestore⟩ := exists_of_mem_mapM hmap hrr
  obtain ⟨rfl, hnodup⟩ := keys_of_restoreRecord hrestore
  exact ⟨hmem, hnodup⟩

/-- A list that was decoded has the index sets of the records, all of them below `2 ^ 76`. -/
theorem indexSets_of_decodeFromVec (hl : decodeFromVec packed = some (.ok l)) :
    ∀ set ∈ l.indexSets, ∀ i ∈ set.toArray, i < 2 ^ 76 := by
  simp only [decodeFromVec, bind_eq_bind, bind_eq_some_iff] at hl
  obtain ⟨r, -, hl⟩ := hl
  cases r with
  | error e => simp at hl
  | ok s =>
    simp only [observedChunkIndicesFromIndexSets] at hl
    split_ifs at hl with hlt
    · simp only [bind_eq_some_iff] at hl
      obtain ⟨n, -, v, -, hl⟩ := hl
      cases v with
      | error e => simp at hl
      | ok =>
        simp only [some_inj, Except.ok.injEq] at hl
        subst hl
        intro set hset i hi
        have hi' : i / chunkSize < u64Bound :=
          hlt _ (mem_map_of_mem (mem_flatMap.mpr ⟨set, hset, hi⟩))
        rw [Nat.div_lt_iff_lt_mul (by decide)] at hi'
        exact hi'.trans_eq (by norm_num [u64Bound, chunkSize])
    · simp at hl

/-- **Unpacked records are ordinary**: no key is repeated, and no index is narrowed. -/
theorem ordinary_of_tryUnpack [Tip5 D]
    (hrrs : tryUnpack packed = some (.ok rrs)) : ∀ rr ∈ rrs, Ordinary rr := by
  simp only [tryUnpack, bind_eq_some] at hrrs
  obtain ⟨r, hdecode, hconvert⟩ := hrrs
  cases r with
  | error e => simp at hconvert
  | ok l =>
    simp only [map_eq_some_iff, Except.ok.injEq, exists_eq_right] at hconvert
    intro rr hrr
    obtain ⟨hmem, hnodup⟩ := keys_of_convertToVec hconvert rr hrr
    exact ⟨hnodup, indexSets_of_decodeFromVec hdecode _ hmem⟩

end

/-! ## Chains -/

section
variable [Tip5 D] [MmrOps D] [Tip5.CollisionFree D] [MmrOps.CollisionFree D]

theorem MutatorSetAccumulator.hash_injective :
    Function.Injective (MutatorSetAccumulator.hash : MutatorSetAccumulator D → D) := by
  intro A B hAB
  simp only [hash] at hAB
  obtain ⟨hmmrs, hactive⟩ := hashPair_injective hAB
  obtain ⟨haocl, hinactive⟩ := hashPair_injective hmmrs
  obtain ⟨hwindow, -⟩ := hashPair_injective hactive
  ext1
  · exact MmrOps.CollisionFree.bagPeaks_injective haocl
  · exact MmrOps.CollisionFree.bagPeaks_injective hinactive
  · exact ActiveWindow.ext (hashActiveWindow_injective hwindow)

end

variable [Tip5 D] [MmrOps D] [MmrIndexing] [DecidableEq D] [DigestOps D] [ConsensusOps D]

namespace Block

/-- What validation says about the mutator set: the inputs unpack and can be removed, and the
transaction leads to the accumulator in the body. -/
structure Evolves (B : Block D) (A : MutatorSetAccumulator D) (inputs : List (RemovalRecord D)) :
    Prop where
  unpacked : B.kernel.unpackedInputs.Returns inputs
  canRemove : ∀ rr ∈ inputs, A.canRemove rr = some true
  body_hash : ∃ A' : MutatorSetAccumulator D,
    MutatorSetUpdate.applyToAccumulator ⟨inputs, B.body.transactionKernel.outputs⟩ A =
      some (A', .ok ()) ∧ A'.hash = B.body.mutatorSetAccumulator.hash

variable {B : Block D} {inputs : List (RemovalRecord D)}

omit [DigestOps D] in
theorem evolves_of_validateMutatorSet {P : Block D} (h : (B.validateMutatorSet P).Returns inputs) :
    ∃ A, P.mutatorSetAccumulatorAfter.Returns A ∧ B.Evolves A inputs := by
  simp only [validateMutatorSet, returns_bind, returns_ensure, returns_orPanic, returns_forM,
    returns_pure] at h
  obtain ⟨inputs, hunpacked, A, hA, _, hcan, _, -, _, -, ⟨A', r⟩, hA', _, hr, _, hhash, rfl⟩ := h
  refine ⟨A, hA, hunpacked, fun rr hrr => ?_, A', ?_, of_decide_eq_true hhash⟩
  · obtain ⟨b, hb, _, rfl⟩ := hcan rr hrr
    exact hb
  · cases r with
    | error e => cases hr
    | ok => exact hA'

omit [Tip5 D] [MmrOps D] [MmrIndexing] [DecidableEq D] [DigestOps D] [ConsensusOps D] in
theorem fee_of_validateTransaction {rules : ConsensusRuleSet}
    (h : (B.validateTransaction rules inputs).Returns ()) :
    B.body.transactionKernel.fee.isNegative = false := by
  simp only [validateTransaction, returns_bind, returns_ensure] at h
  obtain ⟨_, -, _, -, _, hfee, -⟩ := h
  simpa using hfee

theorem evolves_of_validate {P : Block D} {now : Timestamp} {network : Network}
    (hB : (B.validate P now network).Returns ()) : B.body.transactionKernel.fee.isNegative = false ∧
      ∃ A inputs, P.mutatorSetAccumulatorAfter.Returns A ∧ B.Evolves A inputs := by
  simp only [validate, returns_bind] at hB
  obtain ⟨_, -, _, -, _, -, inputs, hms, htx⟩ := hB
  obtain ⟨A, hA, hev⟩ := evolves_of_validateMutatorSet hms
  exact ⟨fee_of_validateTransaction htx, A, inputs, hA, hev⟩

/-- The blocks of the valid chains of a network. -/
inductive OnChain (network : Network) : Block D → Prop
  | genesis {B : Block D} (hB : Block.genesis network = some B) : OnChain network B
  | next {P B : Block D} {now : Timestamp} (hP : OnChain network P)
      (hB : (B.validate P now network).Returns ()) : OnChain network B

omit [MmrOps D] [MmrIndexing] [DecidableEq D] [DigestOps D] in
/-- A fee that is not negative leaves no error for the guesser fee. -/
theorem exists_guesserFeeAdditionRecords (hfee : B.body.transactionKernel.fee.isNegative = false) :
    ∃ rs, B.guesserFeeAdditionRecords = .ok rs := by
  have hreward : B.kernel.body.totalGuesserReward = .ok B.body.transactionKernel.fee := by
    rw [BlockBody.totalGuesserReward, if_neg]
    · rfl
    · exact Bool.eq_false_iff.mp hfee
  rw [guesserFeeAdditionRecords, BlockKernel.guesserFeeAdditionRecords, BlockKernel.guesserFeeUtxos,
    hreward]
  split
  · exact ⟨_, rfl⟩
  · exact ⟨_, rfl⟩

omit [MmrIndexing] [DecidableEq D] [DigestOps D] in
theorem returns_mutatorSetAccumulatorAfter_iff {rs : List (AdditionRecord D)}
    (hrs : B.guesserFeeAdditionRecords = .ok rs) (A : MutatorSetAccumulator D) :
    B.mutatorSetAccumulatorAfter.Returns A ↔
      MutatorSetUpdate.applyToAccumulator ⟨[], rs⟩ B.body.mutatorSetAccumulator =
        some (A, .ok ()) := by
  simp only [mutatorSetAccumulatorAfter, hrs, returns_bind, returns_liftExcept, returns_orPanic,
    Except.ok.injEq, exists_eq_left', BlockBody.mutatorSetAccumulatorAfter, bind_eq_some,
    Prod.exists]
  constructor
  · rintro ⟨A', r, hA', hr⟩
    cases r with
    | error e => cases hr
    | ok => rwa [← some_inj.mp hr]
  · intro hA
    exact ⟨A, .ok (), hA, rfl⟩

omit [MmrOps D] [DecidableEq D] [DigestOps D] in
theorem returns_mutatorSetUpdate {rs : List (AdditionRecord D)}
    (hrs : B.guesserFeeAdditionRecords = .ok rs)
    (hinputs : B.kernel.unpackedInputs.Returns inputs) :
    B.mutatorSetUpdate.Returns ⟨inputs, B.body.transactionKernel.outputs ++ rs⟩ := by
  have hall : B.kernel.allAdditionRecords B.hash =
      .ok (B.body.transactionKernel.outputs ++ rs) := by
    rw [BlockKernel.allAdditionRecords,
      show B.kernel.guesserFeeAdditionRecords B.hash = .ok rs from hrs]
    rfl
  simp only [mutatorSetUpdate, BlockKernel.mutatorSetUpdate, hall, returns_bind,
    returns_liftExcept, returns_pure]
  exact ⟨_, rfl, inputs, hinputs, rfl⟩

section
variable [Inhabited D] [LawfulMmr D] [Tip5.CollisionFree D]

omit [DigestOps D] [ConsensusOps D] in
/-- The inputs of a block that evolves an accumulator are in step with it. -/
theorem Evolves.synced {B : Block D} {L : Ledger D} {inputs : List (RemovalRecord D)}
    (hB : B.Evolves L.accumulator inputs) {rr : RemovalRecord D} (hrr : rr ∈ inputs) :
    L.Synced rr :=
  Ledger.synced_of_canRemove (hB.canRemove rr hrr)

end

variable {A : MutatorSetAccumulator D}

section
omit [DecidableEq D] [DigestOps D] [ConsensusOps D]

/-- The inputs of a block that evolves an accumulator come from a packed list. -/
theorem Evolves.ordinary (hB : B.Evolves A inputs) {rr : RemovalRecord D} (hrr : rr ∈ inputs) :
    Ordinary rr := by
  have hunpacked := hB.unpacked
  simp only [BlockKernel.unpackedInputs, returns_bind, returns_orPanic] at hunpacked
  obtain ⟨r, hr, hinputs⟩ := hunpacked
  cases r with
  | error e => exact absurd hinputs returns_throw
  | ok rrs =>
    obtain rfl := returns_pure.mp hinputs
    exact ordinary_of_tryUnpack hr rr hrr

/-- The accumulator in the body of a valid block is the one its transaction leads to. -/
theorem Evolves.body_eq [Tip5.CollisionFree D] [MmrOps.CollisionFree D] (hB : B.Evolves A inputs) :
    MutatorSetUpdate.applyToAccumulator ⟨inputs, B.body.transactionKernel.outputs⟩ A =
      some (B.body.mutatorSetAccumulator, .ok ()) := by
  obtain ⟨A', hA', hhash⟩ := hB.body_hash
  rwa [← hash_injective hhash]

end

variable [Inhabited D] [LawfulMmr D] [MmrOps.ReportsPositions D] [Tip5.CollisionFree D]

omit [MmrIndexing] [DigestOps D] in
/-- The accumulator after a block is well-formed if the one in its body is. -/
theorem wellFormed_after (hbody : B.body.mutatorSetAccumulator.WellFormed)
    (hA : B.mutatorSetAccumulatorAfter.Returns A) : A.WellFormed := by
  obtain ⟨rs, hrs, -⟩ := returns_bind.mp hA
  rw [returns_mutatorSetAccumulatorAfter_iff (returns_liftExcept.mp hrs)] at hA
  obtain ⟨L, hL⟩ := hbody
  rw [← hL] at hA
  exact wellFormed_of_applyToAccumulator (u := ⟨[], rs⟩) (forall_mem_nil _) (forall_mem_nil _) hA

variable [MmrOps.CollisionFree D]

/-- **Along a chain** the accumulators are those of ledgers. -/
theorem OnChain.wellFormed {network : Network} (hB : B.OnChain network) :
    B.body.mutatorSetAccumulator.WellFormed := by
  induction hB with
  | genesis hB =>
    simp only [Block.genesis, bind_eq_some, some_inj] at hB
    obtain ⟨A, hA, rfl⟩ := hB
    exact wellFormed_of_foldlM_add ⟨Ledger.empty, Ledger.accumulator_empty⟩ hA
  | next _ hB ih =>
    obtain ⟨-, A, inputs, hA, hev⟩ := evolves_of_validate hB
    obtain ⟨L, rfl⟩ := wellFormed_after ih hA
    exact wellFormed_of_applyToAccumulator (fun _ => hev.synced)
      (fun _ => hev.ordinary) hev.body_eq

/-- **Blocks and updates agree** on a valid chain, unless the leaf count overflows its word. -/
theorem validated_update_agrees {network : Network} {P B : Block D} {now : Timestamp}
    {A : MutatorSetAccumulator D} (hP : P.OnChain network)
    (hA : P.mutatorSetAccumulatorAfter.Returns A) (hB : (B.validate P now network).Returns ()) :
    ∃ u, B.mutatorSetUpdate.Returns u ∧ (∀ A', u.applyToAccumulator A = some (A', .ok ()) ↔
        B.mutatorSetAccumulatorAfter.Returns A') ∧
      (A.aocl.leafCount + u.additions.length < u64Bound →
        ∃ A', u.applyToAccumulator A = some (A', .ok ()) ∧
          B.mutatorSetAccumulatorAfter.Returns A') := by
  obtain ⟨hfee, A₀, inputs, hA₀, hev⟩ := evolves_of_validate hB
  obtain rfl := hA.unique hA₀
  obtain ⟨rs, hrs⟩ := exists_guesserFeeAdditionRecords hfee
  obtain ⟨L, rfl⟩ := wellFormed_after hP.wellFormed hA
  have hagree : ∀ A', applyToAccumulator
      ⟨inputs, B.body.transactionKernel.outputs ++ rs⟩ L.accumulator = some (A', .ok ()) ↔
        B.mutatorSetAccumulatorAfter.Returns A' := by
    intro A'
    rw [applyToAccumulator_append (fun _ => hev.synced) (fun _ => hev.ordinary)
      hev.body_eq, returns_mutatorSetAccumulatorAfter_iff hrs]
  refine ⟨_, returns_mutatorSetUpdate hrs hev.unpacked, hagree, fun hlt => ?_⟩
  obtain ⟨A', hA'⟩ := exists_applyToAccumulator_append (fun _ => hev.synced)
    (fun _ => hev.ordinary) hev.body_eq hlt
  exact ⟨A', hA', (hagree A').mp hA'⟩

end Block

open Block

omit [MmrIndexing] in
/-- The first block after the genesis block, with one input. -/
theorem validated_update_agrees_spending :
    ∃ (_ : MmrIndexing) (P B : Block SymbolicDigest) (A : MutatorSetAccumulator SymbolicDigest)
      (now : Timestamp), P.OnChain .testnetMock ∧ P.mutatorSetAccumulatorAfter.Returns A ∧
      (B.validate P now .testnetMock).Returns () ∧ ∃ u, B.mutatorSetUpdate.Returns u ∧
        u.removals = [zeroThenOnes] ∧ ∃ A', u.applyToAccumulator A = some (A', .ok ()) ∧
            B.mutatorSetAccumulatorAfter.Returns A' := by
  let _ := MmrIndexing.reference
  let B := Mock.first.spend [zeroThenOnes]
  have hB : (B.validate Mock.genesis B.header.timestamp .testnetMock).Returns () := by
    unfold Returns
    decide +kernel
  have hrun : ∃ A, Mock.genesis.mutatorSetAccumulatorAfter.Returns A ∧ ∃ u,
      B.mutatorSetUpdate.Returns u ∧ u.removals = [zeroThenOnes] ∧
        A.aocl.leafCount + u.additions.length < u64Bound := by
    decide +kernel
  obtain ⟨A, hA, u, hu, hremovals, hlt⟩ := hrun
  have hP : Mock.genesis.OnChain .testnetMock := .genesis (some_get _).symm
  obtain ⟨u', hu', -, happly⟩ := validated_update_agrees hP hA hB
  obtain rfl := hu.unique hu'
  exact ⟨_, _, B, A, _, hP, hA, hB, u, hu, hremovals, happly hlt⟩

omit [MmrIndexing] in
/-- A block that is not on a valid chain can claim seven leafs and three inactive chunks.  The fee
of the next block then slides the window, and the chunk of an input is missing. -/
theorem crooked_update_panics :
    ∃ (_ : MmrIndexing) (P B : Block SymbolicDigest) (A : MutatorSetAccumulator SymbolicDigest)
      (now : Timestamp), P.mutatorSetAccumulatorAfter.Returns A ∧
      (B.validate P now .testnetMock).Returns () ∧ ∃ u, B.mutatorSetUpdate.Returns u ∧
        u.applyToAccumulator A = none := by
  let _ := MmrIndexing.reference
  let body := { Mock.first.body with
    mutatorSetAccumulator := ⟨.ofLeafs (replicate 7 .zero), .ofLeafs (replicate 3 .zero), .new⟩ }
  let P := { Mock.first with kernel := { Mock.first.kernel with body := body } }
  let B := (Mock.child [Mock.genesis] P 0).spend [zeroThenOnes]
  have hB : (B.validate P B.header.timestamp .testnetMock).Returns () := by
    unfold Returns
    decide +kernel
  have hrun : ∃ A, P.mutatorSetAccumulatorAfter.Returns A ∧ ∃ u, B.mutatorSetUpdate.Returns u ∧
      u.applyToAccumulator A = none := by
    decide +kernel
  obtain ⟨A, hA, hu⟩ := hrun
  exact ⟨_, P, B, A, _, hA, hB, hu⟩

end NyksNode
