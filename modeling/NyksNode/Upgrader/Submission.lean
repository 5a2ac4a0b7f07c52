import NyksNode.Archival.Reorganization
import NyksNode.Block.Witnesses
import NyksNode.Upgrader.Pipeline

/-!
# Submitting while the tip changes

The updater brings a transaction up to date with the tip that it is told, and the gobbling
transaction is for the tip that was asked for before.  If the mutator set has changed in between,
the two transactions cannot be merged, and the merger panics.
-/

namespace NyksNode

open BFieldElement MergeWitness

open Option Effect Answers Completes NativeCurrencyAmount ArchivalState.Forks

open Fallible
open PendingUpdates (Ordinary)

variable {D : Type}

/-! ## Calls -/

namespace Answers
variable {α : Type} {P E : UpgraderState D → Prop} {Q : α → UpgraderState D → Prop}

theorem start_call_bind {β : Type} (answer : ℕ → α) (f : α → Effect (UpgraderState D) Unit β)
    (st : UpgraderState D) : start (call answer >>= f) st =
      start (f (answer st.calls)) { st with calls := st.calls + 1 } :=
  start_bind_of_ok rfl

theorem completes_call {answer : ℕ → α}
    (h : ∀ st, P st → Q (answer st.calls) { st with calls := st.calls + 1 }) :
    Completes P (call answer) Q E :=
  fun st hst => Or.inl ⟨answer st.calls, _, rfl, h st hst⟩

theorem completes_callOrGiveUp {answer : ℕ → Option α}
    (hok : ∀ st a, P st → answer st.calls = some a → Q a { st with calls := st.calls + 1 })
    (herror : ∀ st, P st → E { st with calls := st.calls + 1 }) :
    Completes P (callOrGiveUp answer) Q E := by
  refine bind (Q := fun r st => ∃ st₀, P st₀ ∧ answer st₀.calls = r ∧
    st = { st₀ with calls := st₀.calls + 1 }) ?_ fun r => attempt ?_ ?_
  · exact completes_call fun st hst => ⟨st, hst, rfl, rfl⟩
  · intro st a h ha
    obtain ⟨st₀, hst₀, hr, rfl⟩ := h
    cases r with
    | none => cases ha
    | some _ =>
      cases ha
      exact hok st₀ a hst₀ hr
  · intro st h
    obtain ⟨st₀, hst₀, -, rfl⟩ := h
    exact herror st₀ hst₀

end Answers

section Updater
variable [Tip5 D] [MmrOps D] [Inhabited D] [DecidableEq D] [LawfulMmr D]
  [MmrOps.ReportsPositions D] [Tip5.CollisionFree D]
variable {L L' L₁ : Ledger D} {u : MutatorSetUpdate D} {rrs : List (RemovalRecord D)}

/-! ## Blocks and inputs -/

/-- A valid update moves the records of others from one ledger to the next. -/
theorem Ledger.Extends.exists_apply (hu : L.Extends L' u)
    (hnew : MutatorSetUpdate.setsNewIndices L.bits (u.removals.map (·.absoluteIndices)) = true)
    (hrrs : ∀ rr ∈ rrs, L.Synced rr ∧ Ordinary rr) :
    ∃ p, u.applyToAccumulatorAndRecords L.accumulator rrs [] = some (p, .ok ()) ∧
      p.accumulator = L'.accumulator ∧ (∀ rr ∈ p.removalRecords, L'.Synced rr ∧ Ordinary rr) ∧
      p.removalRecords.map (·.absoluteIndices) = rrs.map (·.absoluteIndices) := by
  have hlt := L'.length_lt
  rw [hu.commitments, List.length_append, List.length_map] at hlt
  have hitems : ∀ it ∈ ([] : List (AuthenticatedItem D)),
      L.Tracks it.item it.msMembershipProof := by
    simp
  obtain ⟨L₁, p, happly, hp, hrecords, -, hcommitments, hbits⟩ :=
    MutatorSetUpdate.exists_applyToAccumulatorAndRecords hu.synced hu.ordinary hlt hrrs hitems
  have hsame : L₁ = L' := by
    refine Ledger.ext (hcommitments.trans hu.commitments.symm) ?_
    rw [hbits, hu.bits]
    congr 2
    refine List.flatMap_congr fun rr hrr => ?_
    exact AbsoluteIndexSet.bloomIndices_of_lt (hu.ordinary rr hrr).2
  subst hsame
  exact ⟨p, by rw [happly, if_pos hnew], hp.inStep.accumulator_eq, hp.records, hrecords⟩

namespace Updater
variable [ConsensusOps D] [MmrIndexing] {bs : List (Block D)} {B : Block D}

/-- Some blocks lead from one ledger to another, with the records of others in step. -/
def BlocksLead (L₁ : Ledger D) (bs : List (Block D)) (L : Ledger D) : Prop :=
  ∀ rrs : List (RemovalRecord D), (∀ rr ∈ rrs, L₁.Synced rr ∧ Ordinary rr) →
    ∃ rrs', (∀ st, start (bs.foldlM applyBlock (L₁.accumulator, rrs)) st =
        some (.ok (L.accumulator, rrs'), st)) ∧
      (∀ rr ∈ rrs', L.Synced rr ∧ Ordinary rr) ∧
      rrs'.map (·.absoluteIndices) = rrs.map (·.absoluteIndices)

omit [MmrOps.ReportsPositions D] [Tip5.CollisionFree D] [LawfulMmr D] [DecidableEq D] in
theorem BlocksLead.nil : BlocksLead L [] L :=
  fun rrs hrrs => ⟨rrs, fun _ => rfl, hrrs, rfl⟩

omit [Inhabited D] [DecidableEq D] [LawfulMmr D] [MmrOps.ReportsPositions D]
  [Tip5.CollisionFree D] in
theorem start_applyBlock {A : MutatorSetAccumulator D} {p : MutatorSetUpdate.Progress D}
    (hu : B.mutatorSetUpdate.Returns u)
    (happly : u.applyToAccumulatorAndRecords A rrs [] = some (p, .ok ())) (st : UpgraderState D) :
    start (applyBlock (A, rrs) B) st = some (.ok (p.accumulator, p.removalRecords), st) := by
  have hrun : B.mutatorSetUpdate.run = some (.ok u) := hu
  simp [applyBlock, hrun, happly, orPanic_some, Except.mapError, attempt_ok,
    Except.toOption, pure_bind, start_pure]

theorem BlocksLead.concat (h : BlocksLead L₁ bs L) (hu : B.mutatorSetUpdate.Returns u)
    (hext : L.Extends L' u)
    (hnew : MutatorSetUpdate.setsNewIndices L.bits (u.removals.map (·.absoluteIndices)) = true) :
    BlocksLead L₁ (bs ++ [B]) L' := by
  intro rrs hrrs
  obtain ⟨rrs₁, hrun, hrrs₁, hsame₁⟩ := h rrs hrrs
  obtain ⟨p, happly, hacc, hrecords, hsame⟩ := hext.exists_apply hnew hrrs₁
  refine ⟨p.removalRecords, fun st => ?_, hrecords, hsame.trans hsame₁⟩
  rw [List.foldlM_append, start_bind_of_ok (hrun st), List.foldlM_cons,
    start_bind_of_ok (start_applyBlock hu happly st), hacc]
  rfl

end Updater

end Updater

/-! ## Honest nodes -/

section Nodes
variable [Tip5 D] [DecidableEq D] [ConsensusOps D] [MmrOps D]

/-- A node that stores the blocks of an archival state. -/
structure Answers.Honest (env : Answers D) (s : ArchivalState D) : Prop where
  /-- The node has computed the mutator set after its tip. -/
  after : ∀ i, ∃ A, (env.tip i).mutatorSetAccumulatorAfter.Returns A
  tip : ∀ i, s.getBlock (env.tip i).hash = some (env.tip i)
  getBlock : ∀ i d B, env.getBlock i d = .ok (some B) → s.getBlock d = some B
  genesis : ∀ i B, env.getBlock i s.genesisBlock.header.prevBlockDigest ≠ .ok (some B)

/-- The inputs of a kernel are valid for the mutator set that it names. -/
def TransactionKernel.InputsValid (k : TransactionKernel D) (s : ArchivalState D) : Prop :=
  ∀ B A, s.getBlock B.hash = some B → B.mutatorSetAccumulatorAfter.Returns A →
    A.hash = k.mutatorSetHash → ∀ rr ∈ k.inputs, rr.validate A = true ∧ Ordinary rr

/-- A transaction from the mempool of the node, with a single proof. -/
structure Transaction.Upgradable (tx : Transaction D) (s : ArchivalState D) : Prop where
  isSingleProof : tx.proof.isSingleProof = true
  coinbase : tx.kernel.coinbase = none
  fee : 0 ≤ tx.kernel.fee.nau ∧ tx.kernel.fee.nau < 2 ^ 127
  inputs : tx.kernel.InputsValid s

end Nodes

/-! ## Gobbling transactions -/

namespace Gobbler
variable {output : TxOutput D} {c : List (D × Transaction D)}

/-- A transaction that only pays the upgrader, with a negative fee. -/
structure Gobbling (output : TxOutput D) (tx : Transaction D) : Prop where
  isSingleProof : tx.proof.isSingleProof = true
  inputs : tx.kernel.inputs = []
  coinbase : tx.kernel.coinbase = none
  fee : output.amount.neg = some tx.kernel.fee

/-- The cache has gobbling transactions, under the hashes of their mutator sets. -/
def Sound (output : TxOutput D) (cache : List (D × Transaction D)) : Prop :=
  ∀ e ∈ cache, e.2.kernel.mutatorSetHash = e.1 ∧ Gobbling output e.2

section Cache
variable [DecidableEq D]

theorem Sound.cacheInsert (h : Sound output c) {tx : Transaction D} (htx : Gobbling output tx) :
    Sound output (Gobbler.cacheInsert c tx.kernel.mutatorSetHash tx) := by
  intro e he
  cases List.mem_cons.mp (List.mem_of_mem_take he) with
  | inl heq => exact heq ▸ ⟨rfl, htx⟩
  | inr hmem => exact h e (List.mem_of_mem_filter hmem)

theorem Sound.cacheLookup (h : Sound output c) {hash : D} {tx : Transaction D}
    (hfind : Gobbler.cacheLookup c hash = some tx) :
    tx.kernel.mutatorSetHash = hash ∧ Gobbling output tx := by
  rw [Gobbler.cacheLookup, map_eq_some_iff] at hfind
  obtain ⟨e, he, rfl⟩ := hfind
  have hhash : e.1 = hash := by simpa using List.find?_some he
  obtain ⟨hkey, hgobbling⟩ := h e (List.mem_of_find?_eq_some he)
  exact ⟨hkey.trans hhash, hgobbling⟩

end Cache

end Gobbler

section Gobbling
variable [Tip5 D] [ConsensusOps D] [MmrOps D]
variable {env : Answers D} {output : TxOutput D} {n : ℕ} {c : List (D × Transaction D)}
  {A : MutatorSetAccumulator D}

/-- A kernel is brought up to date with the tip of a call. -/
structure Updater.KeptUp (env : Answers D) (n : ℕ) (k k' : TransactionKernel D) : Prop where
  mutatorSetHash : ∃ A, (env.tip n).mutatorSetAccumulatorAfter.Returns A ∧
    k'.mutatorSetHash = A.hash
  indexSets : k'.indexSets = k.indexSets
  coinbase : k'.coinbase = k.coinbase
  fee : k'.fee = k.fee

namespace Gobbler

theorem Gobbling.keptUp {tx tx' : Transaction D} (h : Gobbling output tx)
    (hkept : Updater.KeptUp env n tx.kernel tx'.kernel) (hproof : tx'.proof.isSingleProof = true) :
    Gobbling output tx' := by
  refine ⟨hproof, ?_, hkept.coinbase.trans h.coinbase, hkept.fee ▸ h.fee⟩
  have hsets := hkept.indexSets
  rw [TransactionKernel.indexSets, TransactionKernel.indexSets, h.inputs, List.map_nil] at hsets
  exact List.map_eq_nil_iff.mp hsets

theorem buildFromScratch_completes [DigestOps D] [WalletOps D]
    (houtput : output.amount.neg.isSome = true) :
    Completes (fun st => st.cache = c) (buildFromScratch env output A)
      (fun tx st => (tx.kernel.mutatorSetHash = A.hash ∧ Gobbling output tx) ∧ st.cache = c)
      (fun st => st.cache = c) := by
  obtain ⟨fee, hfee⟩ := isSome_iff_exists.mp houtput
  rw [buildFromScratch, hfee, orPanic_some, pure_bind]
  refine bind (Q := fun _ st => st.cache = c) ?_ fun timestamp => ?_
  · exact completes_call fun _ hst => hst
  refine bind (Q := fun _ st => st.cache = c) ?_ fun proof => ?_
  · exact completes_callOrGiveUp (fun _ _ hst _ => hst) fun _ hst => hst
  · exact pure fun st hst => ⟨⟨rfl, rfl, rfl, rfl, hfee⟩, hst⟩

end Gobbler

end Gobbling

/-! ## The walk from the tip -/

section Walk
variable [Tip5 D] [Inhabited D] [DecidableEq D] [ConsensusOps D] [MmrNodeIndexing] [MmrOps D]
  [LawfulMmr D] [DigestOps D] [MmrOps.ReportsPositions D] [Tip5.CollisionFree D]
  [MmrOps.CollisionFree D]
variable {s : ArchivalState D} {network : Network} {env : Answers D} {fuel n : ℕ}
  {c : List (D × Transaction D)}

namespace ArchivalState
variable {L : Ledger D} {m : List D} {p d : D}

open MutatorSetUpdate

/-- A block over its parent: the ledgers of both, and the update between them. -/
theorem ValidTree.exists_step (hs : s.ValidTree network) (hp : s.Chain p m)
    (hlink : s.link d = some (m.length, p)) {B : Block D} (hB : s.getBlock d = some B)
    (hL : s.ChainLedger (m ++ [d]) L) : ∃ P L₀ u, s.getBlock p = some P ∧ s.ChainLedger m L₀ ∧
      P.mutatorSetAccumulatorAfter.Returns L₀.accumulator ∧ B.mutatorSetUpdate.Returns u ∧
      L₀.Extends L u ∧
      MutatorSetUpdate.setsNewIndices L₀.bits (u.removals.map (·.absoluteIndices)) = true := by
  have hheight := hlink
  rw [link, hB, map_some, some_inj, Prod.mk.injEq] at hheight
  have hne : d ≠ s.genesisBlock.hash := by
    intro hg
    rw [hg, getBlock_genesis hs.tree, some_inj] at hB
    have hzero := hs.tree.genesis_height
    rw [hB, hheight.1] at hzero
    exact hp.length_pos.ne' hzero
  obtain ⟨P, hP⟩ := Chain.exists_block hp
  obtain ⟨now, hvalid⟩ := hs.valid d B P hB hne (by rw [hheight.2, hP])
  obtain ⟨hfee, A₀, inputs, hA₀, hev⟩ := Block.evolves_of_validate hvalid
  obtain ⟨L₀, hL₀, rfl⟩ := hs.exists_ledger hp hP hA₀
  obtain ⟨L₀', u, hL₀', hupdate, hu⟩ := ChainLedger.concat_iff.mp hL
  obtain rfl := hL₀.unique hL₀'
  have hu' : B.mutatorSetUpdate.Returns u := by simpa [storedUpdate, hB] using hupdate
  -- validation has made the removals on the accumulator after the parent
  obtain ⟨rs, hrs⟩ := Block.exists_guesserFeeAdditionRecords hfee
  obtain rfl := (Block.returns_mutatorSetUpdate hrs hev.unpacked).unique hu'
  have happly := hev.body_eq
  obtain ⟨L₂, hL₂, -⟩ := applyToAccumulator_eq
    (u := ⟨inputs, B.body.transactionKernel.outputs⟩) (fun _ => hev.synced) (fun _ => hev.ordinary)
    (lt_of_applyToAccumulator (fun _ => hev.synced) (fun _ => hev.ordinary) happly)
  refine ⟨P, L₀, _, hP, hL₀, hA₀, hu', hu, ?_⟩
  rw [happly, some_inj, Prod.mk.injEq] at hL₂
  by_contra hnot
  rw [if_neg hnot] at hL₂
  cases hL₂.2

end ArchivalState

namespace Updater

/-- **The walk** ends, at the latest with the genesis block.  If it finds the mutator set, the
blocks after it lead to the block where the walk has begun. -/
theorem findOldMsa_completes (hs : s.ValidTree network) (henv : env.Honest s) {d oldHash : D}
    {l : List D} {B : Block D} {L : Ledger D} (hl : s.Chain d l) (hB : s.getBlock d = some B)
    (hL : s.ChainLedger l L) (hA : B.mutatorSetAccumulatorAfter.Returns L.accumulator)
    (hfuel : l.length ≤ fuel) (after : List (Block D)) :
    Completes (fun st => st.cache = c) (findOldMsa env oldHash fuel B after)
      (fun x st => (∃ L₁ bs P, x = (L₁.accumulator, bs ++ after) ∧ L₁.accumulator.hash = oldHash ∧
        BlocksLead L₁ bs L ∧ s.getBlock P.hash = some P ∧
        P.mutatorSetAccumulatorAfter.Returns L₁.accumulator) ∧ st.cache = c)
      (fun st => st.cache = c) := by
  induction fuel generalizing d l B L after with
  | zero => exact absurd hl.length_pos (by omega)
  | succ fuel ih =>
    rw [findOldMsa, unwrap_eq_some_iff.mpr hA, orPanic_some, pure_bind]
    by_cases hhash : L.accumulator.hash = oldHash
    · rw [if_pos hhash]
      refine pure fun st hst => ⟨⟨L, [], B, rfl, hhash, .nil, ?_, hA⟩, hst⟩
      rw [hs.tree.hash_of_getBlock hB, hB]
    rw [if_neg hhash]
    refine bind (Q := fun block st =>
      (∃ i, env.getBlock i B.header.prevBlockDigest = .ok (some block)) ∧ st.cache = c) ?_ ?_
    · refine completes_callOrGiveUp ?_ fun st hst => hst
      exact fun st block hst hanswer => ⟨⟨_, toOption_join_eq_some.mp hanswer⟩, hst⟩
    intro block
    refine of_fact fun hanswer => ?_
    obtain ⟨i, hanswer⟩ := hanswer
    cases hl.root_or_next with
    | inl hroot =>
      rw [hroot.1, ArchivalState.getBlock_genesis hs.tree, some_inj] at hB
      exact absurd (hB ▸ hanswer) (henv.genesis i block)
    | inr hnext =>
      obtain ⟨p, m, hp, hlink, rfl⟩ := hnext
      obtain ⟨P, L₀, u, hP, hL₀, hA₀, hu, hext, hnew⟩ := hs.exists_step hp hlink hB hL
      have hprev : B.header.prevBlockDigest = p := by
        rw [ArchivalState.link, hB, map_some, some_inj, Prod.mk.injEq] at hlink
        exact hlink.2
      have hblock := henv.getBlock i _ _ hanswer
      rw [hprev, hP] at hblock
      cases hblock
      rw [List.length_append, List.length_singleton] at hfuel
      refine (ih hp hP hL₀ hA₀ (by omega) (B :: after)).mono (fun _ h => h) ?_ fun _ h => h
      intro x st h
      obtain ⟨⟨L₁, bs, P', rfl, hold, hleads, hP', hafter⟩, hst⟩ := h
      refine ⟨⟨L₁, bs ++ [B], P', ?_, hold, hleads.concat hu hext hnew, hP', hafter⟩, hst⟩
      rw [List.append_assoc, List.singleton_append]

/-! ## Bringing a transaction up to date -/

section
variable (hs : s.ValidTree network) (henv : env.Honest s) (hfuel : BFieldElement.modulus ≤ fuel)
include hs henv hfuel

theorem updateKernelAndProof_completes {k : TransactionKernel D} (hk : k.InputsValid s)
    (proof : NyksProof) :
    Completes (fun st => st.calls = n ∧ st.cache = c) (updateKernelAndProof env fuel k proof)
      (fun x st => KeptUp env n k x.1 ∧ st.cache = c) (fun st => st.cache = c) := by
  refine bind (Q := fun B st => B = env.tip n ∧ st.cache = c) ?_ fun B => ?_
  · exact completes_call fun st hst => ⟨by rw [hst.1], hst.2⟩
  refine of_fact fun hB => ?_
  subst hB
  obtain ⟨l, hl, hlength⟩ := hs.tree.exists_chain (henv.tip n)
  obtain ⟨A, hA⟩ := henv.after n
  obtain ⟨L, hL, rfl⟩ := hs.exists_ledger hl (henv.tip n) hA
  rw [unwrap_eq_some_iff.mpr hA, orPanic_some, pure_bind]
  by_cases hhash : L.accumulator.hash = k.mutatorSetHash
  · rw [if_pos hhash]
    exact pure fun st hst => ⟨⟨⟨_, hA, hhash.symm⟩, rfl, rfl, rfl⟩, hst⟩
  rw [if_neg hhash]
  have hheight : (env.tip n).header.height.value.val < modulus :=
    (env.tip n).header.height.value.isLt
  refine bind (findOldMsa_completes hs henv hl (henv.tip n) hL hA (by omega) [])
    fun x => ?_
  refine of_fact fun hx => ?_
  obtain ⟨L₁, bs, P, rfl, hold, hleads, hP, hafter⟩ := hx
  obtain ⟨inputs, hrun, -, hsame⟩ := hleads k.inputs fun rr hrr => by
    obtain ⟨hvalid, hord⟩ := hk P _ hP hafter hold rr hrr
    exact ⟨(Ledger.validate_accumulator_iff L₁ rr).mp hvalid, hord⟩
  rw [List.append_nil]
  refine bind (Q := fun y st => y = (L.accumulator, inputs) ∧ st.cache = c) ?_ ?_
  · exact fun st hst => Or.inl ⟨_, st, hrun st, rfl, hst⟩
  intro y
  refine of_fact fun hy => ?_
  subst hy
  refine bind (Q := fun _ st => st.cache = c) ?_ ?_
  · exact completes_callOrGiveUp (fun _ _ hst _ => hst) fun _ hst => hst
  · exact fun _ => pure fun st hst => ⟨⟨⟨_, hA, rfl⟩, hsame, rfl, rfl⟩, hst⟩

/-- **The updater** never panics. -/
theorem syncTransaction_completes {tx : Transaction D}
    (hproof : tx.proof.isSingleProof = true) (htx : tx.kernel.InputsValid s) :
    Completes (fun st => st.calls = n ∧ st.cache = c) (syncTransaction env fuel tx)
      (fun tx' st => (KeptUp env n tx.kernel tx'.kernel ∧ tx'.proof.isSingleProof = true) ∧
        st.cache = c) (fun st => st.cache = c) := by
  obtain ⟨kernel, proof⟩ := tx
  cases proof with
  | proofCollection _ => cases hproof
  | singleProof proof =>
    rw [syncTransaction, TransactionProof.asSingleProof, orPanic_some, pure_bind]
    refine bind (updateKernelAndProof_completes hs henv hfuel htx proof) fun x => ?_
    exact pure fun st hst => ⟨⟨hst.1, rfl⟩, hst.2⟩

end

end Updater

/-! ## Finding a gobbling transaction -/

namespace Gobbler
variable {output : TxOutput D} {A : MutatorSetAccumulator D}

theorem updateMostRecent_completes (hs : s.ValidTree network) (henv : env.Honest s)
    (hfuel : modulus ≤ fuel) (hc : Sound output c) (hash : D) :
    Completes (fun st => st.cache = c) (updateMostRecent env fuel hash)
      (fun r st => (∀ tx ∈ r, tx.kernel.mutatorSetHash = hash ∧ Gobbling output tx) ∧
        st.cache = c) (fun st => st.cache = c) := by
  intro st hst
  rw [updateMostRecent, start_read_bind, hst]
  cases hhead : c.head? with
  | none => exact Or.inl ⟨none, st, rfl, by simp, hst⟩
  | some e =>
    have hgobbling := (hc e (List.mem_of_head? hhead)).2
    have hvalid : e.2.kernel.InputsValid s := by
      intro B A hB hA hhash rr hrr
      rw [hgobbling.inputs] at hrr
      cases hrr
    have hsync := Updater.syncTransaction_completes (n := st.calls) (c := c) hs henv hfuel
      hgobbling.isSingleProof hvalid
    refine bind (P := fun t => t.calls = st.calls ∧ t.cache = c)
      (Q := fun r t => (∀ tx ∈ r, Gobbling output tx) ∧ t.cache = c)
      (hsync.outcome ?_ ?_) (fun r => pure ?_) st ⟨rfl, hst⟩
    · intro tx t h
      refine ⟨fun tx' htx' => ?_, h.2⟩
      cases htx'
      exact hgobbling.keptUp h.1.1 h.1.2
    · exact fun t h => ⟨fun tx htx => (nomatch htx), h⟩
    · intro t h
      refine ⟨fun tx htx => ?_, h.2⟩
      obtain ⟨hr, hhash⟩ := mem_filter_iff.mp htx
      exact ⟨of_decide_eq_true hhash, h.1 tx hr⟩

/-- **The gobbling transaction** is for the mutator set that was asked for, whatever the tip is by
now. -/
theorem fetchGobbler_completes [WalletOps D] (hs : s.ValidTree network) (henv : env.Honest s)
    (hfuel : modulus ≤ fuel) (houtput : output.amount.neg.isSome = true) :
    Completes (fun st => Sound output st.cache) (fetchGobbler env fuel output A)
      (fun tx st => (tx.kernel.mutatorSetHash = A.hash ∧ Gobbling output tx) ∧
        Sound output st.cache) (fun st => Sound output st.cache) := by
  intro st hst
  rw [fetchGobbler, start_read_bind]
  cases hfind : cacheLookup st.cache A.hash with
  | some tx => exact Or.inl ⟨tx, st, rfl, hst.cacheLookup hfind, hst⟩
  | none =>
    have hsound : ∀ t : UpgraderState D, t.cache = st.cache → Sound output t.cache :=
      fun t ht => ht ▸ hst
    have hupdate := updateMostRecent_completes hs henv hfuel (hsound st rfl) A.hash
    refine bind (P := fun t => t.cache = st.cache)
      (hupdate.mono (fun _ h => h) (fun _ _ h => h) hsound)
      (fun r => bind (Q := fun tx t => (tx.kernel.mutatorSetHash = A.hash ∧
        Gobbling output tx) ∧ t.cache = st.cache) ?_ fun tx => ?_) st rfl
    · refine of_fact fun hr => ?_
      cases r with
      | none =>
        exact (buildFromScratch_completes houtput).mono (fun _ h => h) (fun _ _ h => h) hsound
      | some tx => exact pure fun t ht => ⟨hr tx rfl, ht⟩
    · refine of_fact fun htx => ?_
      refine bind (Q := fun _ t => Sound output t.cache) (update ?_) ?_
      · intro t ht
        rw [← htx.1, ht]
        exact hst.cacheInsert htx.2
      · exact fun _ => pure fun t ht => ⟨htx, ht⟩

end Gobbler

end Walk

/-! ## Merging -/

/-- **The merger** of a gobbling transaction panics if the other one is for another mutator set. -/
theorem MergeWitness.isSome_fromTransactions_iff [DecidableEq D] (σ : Type) [ShuffleRng σ]
    (seed : Vector (Fin 256) 32) {output : TxOutput D} {g tx : Transaction D}
    (hg : Gobbler.Gobbling output g) (houtput : 0 ≤ output.amount.nau)
    (hproof : tx.proof.isSingleProof = true) (hcoinbase : tx.kernel.coinbase = none)
    (hfee : 0 ≤ tx.kernel.fee.nau ∧ tx.kernel.fee.nau < 2 ^ 127) :
    (fromTransactions σ g tx seed).isSome = true ↔
      g.kernel.mutatorSetHash = tx.kernel.mutatorSetHash := by
  have hpositive : tx.kernel.fee.isNegative = false :=
    isNegative_eq_false_iff.mpr hfee.1
  -- the fees have opposite signs, so their sum does not overflow
  have hadd : (g.kernel.fee.add tx.kernel.fee).isSome = true := by
    have hneg := hg.fee
    rw [neg, checkedI128, ite_none_right_eq_some, some_inj] at hneg
    rw [add, checkedI128, if_pos]
    · rfl
    · have hgobbled : g.kernel.fee.nau = -output.amount.nau := by rw [← hneg.2]
      omega
  obtain ⟨fee, hadd⟩ := isSome_iff_exists.mp hadd
  by_cases hhash : g.kernel.mutatorSetHash = tx.kernel.mutatorSetHash
  · simp [fromTransactions, newKernel, hg.isSingleProof, hproof, hg.coinbase, hcoinbase, hhash,
      hpositive, hadd]
  · simp [fromTransactions, newKernel, hhash]

/-! ## Submission -/

section Submission
variable [Tip5 D] [DecidableEq D] [ConsensusOps D] [MmrOps D] [DigestOps D] [WalletOps D]

def Block.SameSetAfter (B B' : Block D) : Prop :=
  ∃ A, B.mutatorSetAccumulatorAfter.Returns A ∧ B'.mutatorSetAccumulatorAfter.Returns A

variable [MmrIndexing] (env : Answers D) (fuel : ℕ) (output : TxOutput D)

/-- Both transactions are there to be merged: the updater has brought one up to date, and the
gobbler has found or made the other. -/
def HalvesMade (tx : Transaction D) (st : UpgraderState D) : Prop :=
  ∃ A synced st₁ g st₂, (env.tip st.calls).mutatorSetAccumulatorAfter.Returns A ∧
    start (Updater.syncTransaction env fuel tx) { st with calls := st.calls + 1 } =
      some (.ok synced, st₁) ∧
    start (Gobbler.fetchGobbler env fuel output A) st₁ = some (.ok g, st₂)

variable (σ : Type) [ShuffleRng σ] (s : ArchivalState D)

/-- The states of an upgrader that has submitted transactions, and made other calls in between. -/
inductive Reached : UpgraderState D → Prop
  | start (n : ℕ) : Reached ⟨n, []⟩
  | wait {st : UpgraderState D} (h : Reached st) (n : ℕ) : Reached { st with calls := n }
  | submit {st st' : UpgraderState D} {tx : Transaction D} {r : Except Unit Submission}
      (h : Reached st) (htx : tx.Upgradable s)
      (hrun : start (submitUpgradedTransaction env fuel output σ tx) st = some (r, st')) :
      Reached st'

end Submission

section Steps
variable [Tip5 D] [DecidableEq D] [ConsensusOps D] [MmrOps D] [DigestOps D] [WalletOps D]
  [MmrIndexing]
variable {env : Answers D} {fuel : ℕ} {output : TxOutput D} {σ : Type} [ShuffleRng σ]
  {st st₁ st₂ : UpgraderState D} {tx synced g : Transaction D} {A : MutatorSetAccumulator D}

theorem submit_of_not_synced (hA : (env.tip st.calls).mutatorSetAccumulatorAfter.Returns A)
    (hsync : start (Updater.syncTransaction env fuel tx) { st with calls := st.calls + 1 } =
      some (.error (), st₁)) :
    start (submitUpgradedTransaction env fuel output σ tx) st = some (.ok .notSynced, st₁) := by
  rw [submitUpgradedTransaction, start_call_bind, unwrap_eq_some_iff.mpr hA,
    orPanic_some, pure_bind, start_outcome_bind hsync]
  rfl

variable (hA : (env.tip st.calls).mutatorSetAccumulatorAfter.Returns A)
  (hsync : start (Updater.syncTransaction env fuel tx) { st with calls := st.calls + 1 } =
    some (.ok synced, st₁))
include hA hsync

theorem submit_of_not_fetched
    (hfetch : start (Gobbler.fetchGobbler env fuel output A) st₁ = some (.error (), st₂)) :
    start (submitUpgradedTransaction env fuel output σ tx) st = some (.ok .notGobbled, st₂) := by
  have hgobble : start (Gobbler.gobble env fuel output σ synced A) st₁ = some (.error (), st₂) :=
    start_bind_of_error hfetch
  rw [submitUpgradedTransaction, start_call_bind, unwrap_eq_some_iff.mpr hA,
    orPanic_some, pure_bind, start_outcome_bind hsync]
  exact start_outcome_bind hgobble

theorem submit_of_not_merged
    (hfetch : start (Gobbler.fetchGobbler env fuel output A) st₁ = some (.ok g, st₂))
    (hmerge : MergeWitness.fromTransactions σ g synced (.replicate 32 0) = none) :
    start (submitUpgradedTransaction env fuel output σ tx) st = none := by
  have hgobble : start (Gobbler.gobble env fuel output σ synced A) st₁ = none := by
    rw [Gobbler.gobble, start_bind_of_ok hfetch, hmerge, start_orPanic_bind]
    rfl
  rw [submitUpgradedTransaction, start_call_bind, unwrap_eq_some_iff.mpr hA,
    orPanic_some, pure_bind, start_outcome_bind hsync]
  change start (outcome _ >>= _) st₁ = none
  rw [start_bind, start_outcome, hgobble]
  rfl

theorem submit_of_merged {k : TransactionKernel D}
    (hfetch : start (Gobbler.fetchGobbler env fuel output A) st₁ = some (.ok g, st₂))
    (hmerge : MergeWitness.fromTransactions σ g synced (.replicate 32 0) = some k) :
    ∃ r st', start (submitUpgradedTransaction env fuel output σ tx) st = some (r, st') ∧
      st'.cache = st₂.cache := by
  have hprove : Completes (fun t => t.cache = st₂.cache) (do
      let proof ← callOrGiveUp fun i => env.proveSpProgram i (singleProofClaim k)
      pure (⟨k, .singleProof proof⟩ : Transaction D))
      (fun _ t => t.cache = st₂.cache) (fun t => t.cache = st₂.cache) := by
    refine bind (Q := fun _ t => t.cache = st₂.cache) ?_ ?_
    · exact completes_callOrGiveUp (fun _ _ ht _ => ht) fun _ ht => ht
    · exact fun _ => pure fun _ ht => ht
  have hgobble : start (Gobbler.gobble env fuel output σ synced A) st₁ = start (do
      let proof ← callOrGiveUp fun i => env.proveSpProgram i (singleProofClaim k)
      pure (⟨k, .singleProof proof⟩ : Transaction D)) st₂ := by
    rw [Gobbler.gobble, start_bind_of_ok hfetch, hmerge, orPanic_some, pure_bind]
  rw [submitUpgradedTransaction, start_call_bind, unwrap_eq_some_iff.mpr hA,
    orPanic_some, pure_bind, start_outcome_bind hsync]
  change ∃ r st', start (outcome _ >>= _) st₁ = some (r, st') ∧ _
  cases hprove st₂ rfl with
  | inl hok =>
    obtain ⟨gobbled, st₃, hrun, hcache⟩ := hok
    rw [start_outcome_bind (hgobble.trans hrun)]
    exact ⟨_, _, rfl, hcache⟩
  | inr herror =>
    obtain ⟨e, st₃, hrun, hcache⟩ := herror
    rw [start_outcome_bind (hgobble.trans hrun)]
    exact ⟨_, _, rfl, hcache⟩

end Steps

section Returns
variable [Tip5 D] [Inhabited D] [DecidableEq D] [ConsensusOps D] [MmrNodeIndexing] [MmrOps D]
  [LawfulMmr D] [DigestOps D] [MmrOps.ReportsPositions D] [Tip5.CollisionFree D]
  [MmrOps.CollisionFree D] [WalletOps D]
variable {s : ArchivalState D} {network : Network} {env : Answers D} {fuel : ℕ}
  {output : TxOutput D} {σ : Type} [ShuffleRng σ] {st : UpgraderState D} {tx : Transaction D}

section
variable (hs : s.ValidTree network) (henv : env.Honest s) (hfuel : BFieldElement.modulus ≤ fuel)
  (houtput : 0 ≤ output.amount.nau ∧ output.amount.nau < 2 ^ 127)
include hs henv hfuel houtput

/-- **One submission.**  Either it returns, with a sound cache, or the two transactions are for
different mutator sets. -/
theorem submit_cases (hst : Gobbler.Sound output st.cache) (htx : tx.Upgradable s) :
    (∃ r st', start (submitUpgradedTransaction env fuel output σ tx) st = some (r, st') ∧
      Gobbler.Sound output st'.cache ∧ (HalvesMade env fuel output tx st →
        (env.tip st.calls).SameSetAfter (env.tip (st.calls + 1)))) ∨
    (start (submitUpgradedTransaction env fuel output σ tx) st = none ∧
      HalvesMade env fuel output tx st ∧
      ¬ (env.tip st.calls).SameSetAfter (env.tip (st.calls + 1))) := by
  obtain ⟨A, hA⟩ := henv.after st.calls
  have hneg : output.amount.neg.isSome = true := by
    rw [neg, checkedI128, if_pos]
    · rfl
    · omega
  cases Updater.syncTransaction_completes hs henv hfuel htx.isSingleProof htx.inputs
      { st with calls := st.calls + 1 } ⟨rfl, rfl⟩ with
  | inr herror =>
    obtain ⟨_, st₁, hsync, hcache⟩ := herror
    refine Or.inl ⟨_, st₁, submit_of_not_synced hA hsync, hcache ▸ hst, fun hmade => ?_⟩
    obtain ⟨_, _, _, _, _, _, hsync', _⟩ := hmade
    cases hsync.symm.trans hsync'
  | inl hok =>
    obtain ⟨synced, st₁, hsync, ⟨hkept, hproof⟩, hcache⟩ := hok
    have hsound₁ : Gobbler.Sound output st₁.cache := by
      rw [hcache]
      exact hst
    cases Gobbler.fetchGobbler_completes (A := A) hs henv hfuel hneg st₁ hsound₁ with
    | inr herror =>
      obtain ⟨_, st₂, hfetch, hsound⟩ := herror
      refine Or.inl ⟨_, st₂, submit_of_not_fetched hA hsync hfetch, hsound, fun hmade => ?_⟩
      obtain ⟨A', _, _, _, _, hA', hsync', hfetch'⟩ := hmade
      cases hA.unique hA'
      cases hsync.symm.trans hsync'
      cases hfetch.symm.trans hfetch'
    | inl hok =>
      obtain ⟨g, st₂, hfetch, ⟨hhash, hgobbling⟩, hsound⟩ := hok
      have hmade : HalvesMade env fuel output tx st := ⟨A, _, _, _, _, hA, hsync, hfetch⟩
      have hmerge := isSome_fromTransactions_iff σ (.replicate 32 0) hgobbling
        houtput.1 hproof (hkept.coinbase.trans htx.coinbase) (hkept.fee ▸ htx.fee)
      obtain ⟨A', hA', hhash'⟩ := hkept.mutatorSetHash
      rw [hhash, hhash'] at hmerge
      cases hresult : fromTransactions σ g synced (.replicate 32 0) with
      | none =>
        refine Or.inr ⟨submit_of_not_merged hA hsync hfetch hresult, hmade, fun hsame => ?_⟩
        obtain ⟨A'', hA₁, hA₂⟩ := hsame
        rw [hresult, hA.unique hA₁, hA'.unique hA₂] at hmerge
        exact absurd (hmerge.mpr rfl) (by simp)
      | some k =>
        obtain ⟨r, st', hrun, hcache'⟩ := submit_of_merged hA hsync hfetch hresult
        refine Or.inl ⟨r, st', hrun, hcache' ▸ hsound, fun _ => ⟨A, hA, ?_⟩⟩
        rw [hresult, isSome_some, eq_self_iff_true, true_iff] at hmerge
        rwa [MutatorSetAccumulator.hash_injective hmerge]

theorem Reached.sound (hst : Reached env fuel output σ s st) : Gobbler.Sound output st.cache := by
  induction hst with
  | start n => exact fun e he => (nomatch he)
  | wait _ _ ih => exact ih
  | submit _ htx hrun ih =>
    cases submit_cases (σ := σ) hs henv hfuel houtput ih htx with
    | inl hreturns =>
      obtain ⟨_, _, hrun', hsound, -⟩ := hreturns
      cases hrun.symm.trans hrun'
      exact hsound
    | inr hpanics => cases hrun.symm.trans hpanics.1

end

/-- **When a submission returns.**  It panics exactly if there are two transactions to be merged,
and the updater is told of a tip with another mutator set. -/
theorem submitUpgradedTransaction_returns_iff (hs : s.ValidTree network) (henv : env.Honest s)
    (hfuel : BFieldElement.modulus ≤ fuel)
    (houtput : 0 ≤ output.amount.nau ∧ output.amount.nau < 2 ^ 127)
    (hst : Reached env fuel output σ s st) (htx : tx.Upgradable s) :
    (start (submitUpgradedTransaction env fuel output σ tx) st).isSome = true ↔
      (HalvesMade env fuel output tx st →
        (env.tip st.calls).SameSetAfter (env.tip (st.calls + 1))) := by
  cases submit_cases (σ := σ) hs henv hfuel houtput (hst.sound hs henv hfuel houtput) htx with
  | inl hreturns =>
    obtain ⟨r, st', hrun, -, hsame⟩ := hreturns
    rw [hrun, isSome_some]
    exact iff_of_true rfl hsame
  | inr hpanics =>
    obtain ⟨hrun, hmade, hnot⟩ := hpanics
    rw [hrun, isSome_none]
    exact iff_of_false Bool.false_ne_true fun h => hnot (h hmade)

end Returns

/-! ## A new tip between two calls -/

namespace TipMoves

open ArchivalState (Forks.genesis Forks.emptyLeft Forks.emptyState)

local instance noShuffle : ShuffleRng Unit := ⟨fun _ => (), fun l _ => (l, ()), fun l _ => .refl l⟩

def stored : ArchivalState SymbolicDigest := Forks.emptyState ⟨.newEmpty, Forks.genesis.hash⟩ .new

def reporting (tip : ℕ → Block SymbolicDigest) : Answers SymbolicDigest where
  tip := tip
  getBlock _ d := .ok (stored.getBlock d)
  submitTransaction _ _ := .ok ()
  proveSpProgram _ _ := some ⟨[]⟩
  now _ := ⟨0⟩

def extending : Answers SymbolicDigest :=
  reporting fun i => if i = 0 then Forks.genesis else Forks.emptyLeft

def output : TxOutput SymbolicDigest := ⟨⟨1⟩, none, .atom 0, ⟨.atom 1, .atom 2⟩⟩

/-- A transaction with one input, for the mutator set after the genesis block. -/
def upgraded : Transaction SymbolicDigest :=
  ⟨⟨[zeroThenOnes], [], [], ⟨1⟩, none, ⟨0⟩, Forks.genesis.body.mutatorSetAccumulator.hash, false⟩,
    .singleProof ⟨[]⟩⟩

theorem upgradable : upgraded.Upgradable stored where
  isSingleProof := rfl
  coinbase := rfl
  fee := by decide
  inputs _ _ _ _ hhash rr hrr := by
    rw [MutatorSetAccumulator.hash_injective hhash, List.mem_singleton.mp hrr]
    unfold Ordinary
    decide +kernel

theorem honest {tip : ℕ → Block SymbolicDigest}
    (htip : ∀ i, tip i = Forks.genesis ∨ tip i = Forks.emptyLeft) :
    (reporting tip).Honest stored where
  after i := by
    change ∃ A, (tip i).mutatorSetAccumulatorAfter.Returns A
    cases htip i with
    | inl h => exact ⟨_, h ▸ returns_after_genesis⟩
    | inr h =>
      obtain ⟨A, hA, -⟩ := exists_after emptyLeft (by simp)
      exact ⟨A, h ▸ hA⟩
  tip i := by
    change stored.getBlock (tip i).hash = some (tip i)
    refine ArchivalState.getBlock_of_mem rfl nodup_hash ?_
    exact (htip i).elim (fun h => h ▸ List.mem_cons_self) fun h => by simp [h]
  getBlock i d B hB := Except.ok.inj hB
  genesis i B := by
    have hnone : stored.getBlock stored.genesisBlock.header.prevBlockDigest = none := by
      decide +kernel
    change Except.ok (stored.getBlock _) ≠ _
    rw [hnone]
    simp

end TipMoves

open TipMoves

theorem submitUpgradedTransaction_returns_quiet :
    ∃ (_ : MmrNodeIndexing) (_ : ShuffleRng Unit) (r : Except Unit Submission)
      (st : UpgraderState SymbolicDigest),
      start (submitUpgradedTransaction (TipMoves.reporting fun _ => ArchivalState.Forks.emptyLeft)
        BFieldElement.modulus TipMoves.output Unit TipMoves.upgraded) ⟨0, []⟩ = some (r, st) := by
  let _ := MmrNodeIndexing.reference
  let _ := noShuffle
  obtain ⟨A, hA, -⟩ := exists_after emptyLeft (by simp)
  have houtput : 0 ≤ output.amount.nau ∧ output.amount.nau < 2 ^ 127 := by decide
  have hreturns := (submitUpgradedTransaction_returns_iff (σ := Unit)
    (validTree _ _) (honest fun _ => Or.inr rfl) le_rfl houtput
    (.start 0) upgradable).mpr fun _ => ⟨A, hA, hA⟩
  obtain ⟨x, hx⟩ := isSome_iff_exists.mp hreturns
  exact ⟨_, _, x.1, x.2, hx⟩

/-- The tip is extended after it was asked for: the gobbling transaction is for the genesis block,
and the other one for the block after it. -/
theorem submission_panics :
    ∃ (_ : MmrNodeIndexing) (_ : ShuffleRng Unit) (env : Answers SymbolicDigest)
      (synced g : Transaction SymbolicDigest) (st₁ st₂ : UpgraderState SymbolicDigest),
      TipMoves.stored.ValidTree .main ∧ env.Honest TipMoves.stored ∧
      TipMoves.upgraded.Upgradable TipMoves.stored ∧
      start (Updater.syncTransaction env BFieldElement.modulus TipMoves.upgraded) ⟨1, []⟩ =
        some (.ok synced, st₁) ∧
      start (Gobbler.fetchGobbler env BFieldElement.modulus TipMoves.output
        ArchivalState.Forks.genesis.body.mutatorSetAccumulator) st₁ = some (.ok g, st₂) ∧
      g.kernel.mutatorSetHash ≠ synced.kernel.mutatorSetHash ∧
      start (submitUpgradedTransaction env BFieldElement.modulus TipMoves.output Unit
        TipMoves.upgraded) ⟨0, []⟩ = none := by
  let _ := MmrNodeIndexing.reference
  let _ := noShuffle
  have hdiffer : ∃ synced st₁, start (Updater.syncTransaction extending modulus upgraded) ⟨1, []⟩ =
      some (.ok synced, st₁) ∧ ∃ g st₂, start (Gobbler.fetchGobbler extending modulus output
        genesis.body.mutatorSetAccumulator) st₁ = some (.ok g, st₂) ∧
        g.kernel.mutatorSetHash ≠ synced.kernel.mutatorSetHash := by
    decide +kernel
  obtain ⟨synced, st₁, hsync, g, st₂, hfetch, hne⟩ := hdiffer
  refine ⟨.reference, noShuffle, extending, synced, g, st₁, st₂, validTree _ _, ?_,
    upgradable, hsync, hfetch, hne, ?_⟩
  · refine honest fun i => ?_
    by_cases hi : i = 0
    · exact Or.inl (if_pos hi)
    · exact Or.inr (if_neg hi)
  · refine isNone_iff_eq_none.mp ?_
    decide +kernel

end NyksNode
