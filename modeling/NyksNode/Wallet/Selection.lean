import NyksNode.Wallet.UtxoPool

/-!
# What a selection leaves behind

Restored proofs change the paths and chunks of a coin's proof and nothing that identifies the coin.
So a round of the selection moves coins from the pool to the list of invalidated ones and changes
nothing else, and a round that does not return moves at least one.
-/

namespace NyksNode

open List Option AssocMap Fallible MonitoredUtxo NativeCurrencyAmount MsMembershipProof UtxoKey

/-! ## Coins -/

/-- The coins differ at most in the paths and chunks of their proofs, and in their status. -/
structure MonitoredUtxo.SameCoin {D : Type} (u v : MonitoredUtxo D) : Prop where
  utxo : u.utxo = v.utxo
  senderRandomness : u.membershipProof.senderRandomness = v.membershipProof.senderRandomness
  receiverPreimage : u.membershipProof.receiverPreimage = v.membershipProof.receiverPreimage
  aoclLeafIndex : u.membershipProof.aoclLeafIndex = v.membershipProof.aoclLeafIndex

namespace MonitoredUtxo.SameCoin
variable {D : Type} {u v w : MonitoredUtxo D}

theorem refl (u : MonitoredUtxo D) : u.SameCoin u := ⟨rfl, rfl, rfl, rfl⟩

theorem trans (h : u.SameCoin v) (h' : v.SameCoin w) : u.SameCoin w :=
  ⟨h.utxo.trans h'.utxo, h.senderRandomness.trans h'.senderRandomness,
    h.receiverPreimage.trans h'.receiverPreimage, h.aoclLeafIndex.trans h'.aoclLeafIndex⟩

theorem of_extract {p : RpcMsMembershipProofPrivacyPreserving D} {mp : MsMembershipProof D}
    (h : p.extractMsMembershipProof u.membershipProof.aoclLeafIndex
      u.membershipProof.senderRandomness u.membershipProof.receiverPreimage = some mp) :
    u.SameCoin { u with membershipProof := mp } := by
  obtain ⟨path, -, rfl⟩ := map_eq_some_iff.mp h
  exact ⟨rfl, rfl, rfl, rfl⟩

variable [Tip5 D] [ConsensusOps D]

theorem indices_eq (h : u.SameCoin v) : u.indices = v.indices := by
  rw [indices, indices, mutatorSetItem, mutatorSetItem, computeIndices,
    computeIndices, h.utxo, h.senderRandomness, h.receiverPreimage, h.aoclLeafIndex]

theorem key_eq (h : u.SameCoin v) : new u = .new v := by
  rw [UtxoKey.new, UtxoKey.new, additionRecord, additionRecord,
    mutatorSetItem, mutatorSetItem, MsMembershipProof.additionRecord,
    MsMembershipProof.additionRecord, h.utxo, h.senderRandomness, h.receiverPreimage,
    h.aoclLeafIndex]

end MonitoredUtxo.SameCoin

namespace UtxoPool
variable {D : Type} [DecidableEq D] [Tip5 D] [ConsensusOps D]

/-! ## Pool and index -/

/-- The pool and the index hold the same coins. -/
structure InStep (pool : UtxoPool D) : Prop where
  key_eq : ∀ {k u}, pool.utxos.get? k = some u → UtxoKey.new u = k
  indexed : ∀ {k u}, pool.utxos.get? k = some u → pool.index.get? u.indices = some k
  pooled : ∀ {s k}, pool.index.get? s = some k → ∃ u, pool.utxos.get? k = some u ∧ u.indices = s

theorem inStep_new : (new : UtxoPool D).InStep := by
  constructor
  · intro k u h
    cases h
  · intro k u h
    cases h
  · intro s k h
    cases h

variable {u : MonitoredUtxo D}

/-- A coin is inserted whose key and indices are either both new or both those of one coin. -/
theorem InStep.insertUtxo {pool : UtxoPool D} (h : pool.InStep)
    (hu : ∀ {k v}, pool.utxos.get? k = some v → (v.indices = u.indices ↔ k = .new u)) :
    (pool.insertUtxo u).InStep := by
  constructor
  · intro k v hv
    exact of_get?_insert hv rfl fun _ => h.key_eq
  · intro k v hv
    rw [UtxoPool.insertUtxo, get?_insert]
    refine of_get?_insert hv (if_pos rfl) fun hk hv => ?_
    rw [if_neg (mt (hu hv).mp hk)]
    exact h.indexed hv
  · intro s k hs
    simp only [UtxoPool.insertUtxo, get?_insert]
    refine of_get?_insert hs ⟨u, if_pos rfl, rfl⟩ fun hsu hs => ?_
    obtain ⟨v, hv, hvs⟩ := h.pooled hs
    have hk : k ≠ .new u := fun hk => hsu (hvs.symm.trans ((hu hv).mpr hk))
    exact ⟨v, by rw [if_neg hk, hv], hvs⟩

variable {k : UtxoKey D} {v : MonitoredUtxo D}

section
variable {pool : UtxoPool D} (h : pool.InStep) (hu : pool.utxos.get? k = some u)
include h hu

theorem InStep.put (huv : u.SameCoin v) : InStep { pool with utxos := pool.utxos.put k v } := by
  constructor
  · intro k' w hw
    exact of_get?_put hw (huv.key_eq.symm.trans (h.key_eq hu)) fun _ => h.key_eq
  · intro k' w hw
    exact of_get?_put hw (huv.indices_eq ▸ h.indexed hu) fun _ => h.indexed
  · intro s k' hs
    obtain ⟨w, hw, hws⟩ := h.pooled hs
    simp only [get?_put]
    by_cases hk : k' = k
    · rw [hk, hu, some_inj] at hw
      refine ⟨v, if_pos hk, ?_⟩
      rw [← huv.indices_eq, hw, hws]
    · exact ⟨w, by rw [if_neg hk, hw], hws⟩

theorem InStep.erase : InStep ⟨pool.utxos.erase k, pool.index.erase u.indices⟩ := by
  constructor
  · intro k' w hw
    exact h.key_eq (get?_erase_eq_some.mp hw).2
  · intro k' w hw
    obtain ⟨hk, hw⟩ := get?_erase_eq_some.mp hw
    refine get?_erase_eq_some.mpr ⟨?_, h.indexed hw⟩
    intro heq
    have hindex := h.indexed hw
    rw [heq, h.indexed hu, some_inj] at hindex
    exact hk hindex.symm
  · intro s k' hs
    obtain ⟨hsu, hs⟩ := get?_erase_eq_some.mp hs
    obtain ⟨w, hw, hws⟩ := h.pooled hs
    refine ⟨w, get?_erase_eq_some.mpr ⟨?_, hw⟩, hws⟩
    intro hk
    rw [hk, hu, some_inj] at hw
    exact hsu (hws.symm.trans (congrArg _ hw.symm))

end

/-! ## What rounds keep -/

/-- The pool and the invalidated coins, after some rounds: every coin of the first pool is in one of
them, once. -/
structure Evolves (pool₀ pool : UtxoPool D) (invalidated : List (UtxoKey D × MonitoredUtxo D)) :
    Prop where
  inStep : pool.InStep
  kept : ∀ {k u}, pool.utxos.get? k = some u → ∃ u₀, pool₀.utxos.get? k = some u₀ ∧ u₀.SameCoin u
  keys_perm : pool₀.utxos.keys.Perm (pool.utxos.keys ++ invalidated.map (·.1))
  invalidated : ∀ e ∈ invalidated, e.2.status = .spentInUnknownBlock ∧
    ∃ u₀, pool₀.utxos.get? e.1 = some u₀ ∧ u₀.SameCoin e.2

variable {pool₀ pool pool' : UtxoPool D}
  {invalidated invalidated' : List (UtxoKey D × MonitoredUtxo D)}

theorem evolves_refl (h : pool₀.InStep) : Evolves pool₀ pool₀ [] where
  inStep := h
  kept := fun hu => ⟨_, hu, .refl _⟩
  keys_perm := by simp
  invalidated := by simp

section
variable (h : Evolves pool₀ pool invalidated)
include h

theorem Evolves.put (hu : pool.utxos.get? k = some u)
    (huv : u.SameCoin v) : Evolves pool₀ { pool with utxos := pool.utxos.put k v } invalidated where
  inStep := h.inStep.put hu huv
  kept := by
    intro k' w hw
    obtain ⟨u₀, hu₀, hsame⟩ := h.kept hu
    exact of_get?_put hw ⟨u₀, hu₀, hsame.trans huv⟩ fun _ => h.kept
  keys_perm := by
    have hk : k ∈ pool.utxos.keys := by
      rw [AssocMap.mem_keys, hu]
      rfl
    rw [keys_put, if_pos hk]
    exact h.keys_perm
  invalidated := h.invalidated

theorem Evolves.erase (hu : pool.utxos.get? k = some u) :
    Evolves pool₀ ⟨pool.utxos.erase k, pool.index.erase u.indices⟩
      (invalidated ++ [(k, { u with status := .spentInUnknownBlock })]) where
  inStep := h.inStep.erase hu
  kept := by
    intro k' w hw
    exact h.kept (get?_erase_eq_some.mp hw).2
  keys_perm := by
    have hk : k ∈ pool.utxos.keys := by
      rw [AssocMap.mem_keys, hu]
      rfl
    refine h.keys_perm.trans ((cons_keys_erase_perm hk).symm.append_right _ |>.trans ?_)
    rw [map_append, ← append_assoc]
    exact (perm_append_singleton k _).symm
  invalidated := by
    intro e he
    rw [mem_append, mem_singleton] at he
    cases he with
    | inl he => exact h.invalidated e he
    | inr he =>
      obtain ⟨u₀, hu₀, hsame⟩ := h.kept hu
      rw [he]
      exact ⟨rfl, u₀, hu₀, ⟨hsame.utxo, hsame.senderRandomness, hsame.receiverPreimage,
        hsame.aoclLeafIndex⟩⟩

theorem Evolves.length_eq : pool₀.utxos.length = pool.utxos.length + invalidated.length := by
  rw [← length_keys, h.keys_perm.length_eq, length_append, length_keys, length_map]

theorem Evolves.utxo_eq (h' : Evolves pool₀ pool' invalidated')
    (hu : pool.utxos.get? k = some u) (hv : pool'.utxos.get? k = some v) : u.utxo = v.utxo := by
  obtain ⟨u₀, hu₀, hsame⟩ := h.kept hu
  obtain ⟨v₀, hv₀, hsame'⟩ := h'.kept hv
  rw [hu₀, some_inj] at hv₀
  rw [← hsame.utxo, hv₀, hsame'.utxo]

theorem map_utxo_eq (h' : Evolves pool₀ pool' invalidated') {us : List (MonitoredUtxo D)}
    {picked : List (UtxoKey D × MonitoredUtxo D)} (hkeys : us.map UtxoKey.new = picked.map (·.1))
    (hus : ∀ u ∈ us, pool'.utxos.get? (.new u) = some u)
    (hpicked : ∀ e ∈ picked, pool.utxos.get? e.1 = some e.2) :
    us.map (·.utxo) = picked.map (·.2.utxo) := by
  induction us generalizing picked with
  | nil =>
    cases picked with
    | nil => rfl
    | cons e picked => cases hkeys
  | cons u us ih =>
    cases picked with
    | nil => cases hkeys
    | cons e picked =>
      rw [map_cons, map_cons, cons.injEq] at hkeys
      rw [forall_mem_cons] at hus hpicked
      have hutxo : e.2.utxo = u.utxo := h.utxo_eq h' hpicked.1 (hkeys.1 ▸ hus.1)
      rw [map_cons, map_cons, ih hkeys.2 hus.2 hpicked.2, hutxo]

theorem Evolves.evict {spent : List (UtxoKey D)}
    (hevict : (spent.foldlM UtxoPool.evict (pool, invalidated)).Returns (pool', invalidated')) :
    Evolves pool₀ pool' invalidated' ∧ invalidated'.length = invalidated.length + spent.length := by
  induction spent generalizing pool invalidated with
  | nil =>
    cases returns_pure.mp hevict
    exact ⟨h, rfl⟩
  | cons k spent ih =>
    rw [returns_foldlM_cons] at hevict
    obtain ⟨⟨pool₁, invalidated₁⟩, hk, hrest⟩ := hevict
    simp only [evict, returns_bind, returns_orElse, returns_pure, Prod.mk.injEq] at hk
    obtain ⟨u, hu, rfl, rfl⟩ := hk
    obtain ⟨hevolves, hlength⟩ := ih (h.erase hu) hrest
    refine ⟨hevolves, ?_⟩
    rw [hlength, length_append]
    simp only [length_cons, length_nil]
    omega

end

section Refreshing
variable [MmrOps D]

/-- The state of the loop over the candidates, once those with the given keys were looked at. -/
structure Refreshes (pool₀ : UtxoPool D) (invalidated : List (UtxoKey D × MonitoredUtxo D))
    (msa : MutatorSetAccumulator D) (done : List (UtxoKey D))
    (s : UtxoPool D × List (MonitoredUtxo D) × List (UtxoKey D)) : Prop where
  evolves : Evolves pool₀ s.1 invalidated
  sublist : (s.2.1.map UtxoKey.new).Sublist done
  all_of_spent_eq_nil : s.2.2 = [] → s.2.1.map UtxoKey.new = done
  selected : ∀ u ∈ s.2.1, s.1.utxos.get? (.new u) = some u ∧
    msa.verify u.mutatorSetItem u.membershipProof = some true

section
variable {msa : MutatorSetAccumulator D} {done : List (UtxoKey D)}
  {s s' : UtxoPool D × List (MonitoredUtxo D) × List (UtxoKey D)}

theorem Refreshes.step {c : UtxoKey D × RpcMsMembershipProofPrivacyPreserving D}
    (h : Refreshes pool₀ invalidated msa done s) (hc : c.1 ∉ done)
    (hstep : (refreshCandidate msa s c).Returns s') :
    Refreshes pool₀ invalidated msa (done ++ [c.1]) s' := by
  simp only [refreshCandidate, returns_bind, returns_orElse] at hstep
  obtain ⟨u, hu, mp, hmp, valid, hvalid, hstep⟩ := hstep
  have hkey := h.evolves.inStep.key_eq hu
  cases valid with
  | false =>
    rw [if_neg Bool.false_ne_true, returns_pure] at hstep
    subst hstep
    refine ⟨h.evolves, h.sublist.trans (sublist_append_left _ _), ?_, h.selected⟩
    intro hnil
    exact absurd hnil (append_ne_nil_of_right_ne_nil _ (cons_ne_nil _ _))
  | true =>
    rw [if_pos rfl, returns_pure] at hstep
    subst hstep
    have hsame := MonitoredUtxo.SameCoin.of_extract hmp
    have hmap : (s.2.1 ++ [{ u with membershipProof := mp }]).map UtxoKey.new =
        s.2.1.map UtxoKey.new ++ [c.1] := by
      rw [map_append, map_singleton, ← hsame.key_eq, hkey]
    refine ⟨h.evolves.put hu hsame, ?_, ?_, ?_⟩
    · rw [hmap]
      exact h.sublist.append_right _
    · intro hnil
      rw [hmap, h.all_of_spent_eq_nil hnil]
    · intro v hv
      rw [mem_append, mem_singleton] at hv
      simp only [get?_put]
      cases hv with
      | inl hv =>
        have hne : UtxoKey.new v ≠ c.1 := by
          intro heq
          exact hc (heq ▸ h.sublist.subset (mem_map_of_mem hv))
        rw [if_neg hne]
        exact h.selected v hv
      | inr hv =>
        rw [hv, ← hsame.key_eq, hkey, if_pos rfl]
        exact ⟨rfl, hvalid⟩

theorem Refreshes.foldlM {cs : List (UtxoKey D × RpcMsMembershipProofPrivacyPreserving D)}
    (h : Refreshes pool₀ invalidated msa done s) (hnd : (done ++ cs.map (·.1)).Nodup)
    (hloop : (cs.foldlM (refreshCandidate msa) s).Returns s') :
    Refreshes pool₀ invalidated msa (done ++ cs.map (·.1)) s' := by
  induction cs generalizing done s with
  | nil =>
    cases returns_pure.mp hloop
    simpa using h
  | cons c cs ih =>
    rw [returns_foldlM_cons] at hloop
    obtain ⟨t, ht, hrest⟩ := hloop
    have hsplit : done ++ (c :: cs).map (·.1) = (done ++ [c.1]) ++ cs.map (·.1) := by simp
    rw [hsplit] at hnd ⊢
    have hc : c.1 ∉ done := by
      have hfirst := hnd.of_append_left
      rw [nodup_append] at hfirst
      intro hmem
      exact hfirst.2.2 _ hmem _ mem_cons_self rfl
    exact ih (h.step hc ht) hnd hrest

end

end Refreshing

/-! ## The candidates -/

section Candidates
variable [CoinOps D] [WalletOps D] {amount total : NativeCurrencyAmount} {timestamp : Timestamp}
  {exclude : Option (List (UtxoKey D))} {picked : List (UtxoKey D × MonitoredUtxo D)}

omit [Tip5 D] [WalletOps D] in
theorem sum_of_foldlM_addCoin {start : NativeCurrencyAmount}
    (h : picked.foldlM addCoin start = some total) :
    ∃ amounts, (picked.map (·.2.utxo)).mapM (·.getNativeCurrencyAmount) = some amounts ∧
      total.nau = start.nau + (amounts.map (·.nau)).sum := by
  induction picked generalizing start with
  | nil =>
    cases h
    exact ⟨[], rfl, by simp⟩
  | cons e picked ih =>
    rw [foldlM_cons_eq_some] at h
    obtain ⟨next, hnext, h⟩ := h
    obtain ⟨a, ha, hadd⟩ := bind_eq_some_iff.mp hnext
    obtain ⟨amounts, hamounts, hsum⟩ := ih h
    refine ⟨a :: amounts, ?_, ?_⟩
    · rw [map_cons, mapM_cons, ha, hamounts]
      rfl
    · rw [hsum, add_eq_some hadd, map_cons, sum_cons, add_assoc]

/-- The candidates are distinct coins of the pool that are not passed over. -/
structure Picks (pool : UtxoPool D) (timestamp : Timestamp) (exclude : Option (List (UtxoKey D)))
    (picked : List (UtxoKey D × MonitoredUtxo D)) : Prop where
  nodup : (picked.map (·.1)).Nodup
  pooled : ∀ e ∈ picked, pool.utxos.get? e.1 = some e.2
  not_excluded : ∀ e ∈ picked, ∀ keys ∈ exclude, e.1 ∉ keys
  spendable : ∀ e ∈ picked, e.2.utxo.canSpendAt timestamp = true

omit [Tip5 D] in
theorem picks_of_candidates [IterOrder]
    (h : pool.candidates amount timestamp exclude = some (picked, total)) :
    Picks pool timestamp exclude picked ∧
      ∃ amounts, (picked.map (·.2.utxo)).mapM (·.getNativeCurrencyAmount) = some amounts ∧
        total.nau = (amounts.map (·.nau)).sum := by
  obtain ⟨hsub, hskip, hfold⟩ := pickUntil_eq_some h
  have hmem : ∀ e ∈ picked, e ∈ pool.utxos.entries := fun e he =>
    IterOrder.mem_iter.mp (hsub.subset he)
  constructor
  · constructor
    · have hnodup : ((IterOrder.iter pool.utxos.entries).map (·.1)).Nodup :=
        ((IterOrder.iter_perm _).map _).nodup_iff.mpr pool.utxos.nodup_keys
      exact hnodup.sublist (hsub.map _)
    · intro e he
      exact get?_eq_some_iff.mpr (hmem e he)
    · intro e he keys hkeys hin
      have hpass := hskip e he
      rw [passesOver, Bool.or_eq_false_iff] at hpass
      rw [mem_def.mp hkeys] at hpass
      simp [hin] at hpass
    · intro e he
      have hpass := hskip e he
      rw [passesOver, Bool.or_eq_false_iff] at hpass
      simpa using hpass.2
  · obtain ⟨amounts, hamounts, hsum⟩ := sum_of_foldlM_addCoin hfold
    refine ⟨amounts, hamounts, ?_⟩
    rw [hsum, zero, zero_add]

end Candidates

/-! ## Restored proofs -/

/-- The node answers with one proof for each index set. -/
def OneProofEach (server : ProofServer D) : Prop :=
  ∀ request sets snapshot, server request sets = .ok snapshot →
    snapshot.membershipProofs.length = sets.length

section Restored
omit [Tip5 D] [ConsensusOps D]
variable {server : ProofServer D}

variable {snapshots : List (RpcMsMembershipSnapshot D)} {chunks : List (List AbsoluteIndexSet)}
  {request : ℕ}

omit [DecidableEq D] in
theorem requestChunks_cons_eq_ok {chunk : List AbsoluteIndexSet}
    (h : requestChunks server request (chunk :: chunks) = .ok snapshots) :
    ∃ snapshot rest, server request chunk = .ok snapshot ∧
      requestChunks server (request + 1) chunks = .ok rest ∧ snapshots = snapshot :: rest := by
  rw [requestChunks] at h
  cases hfirst : server request chunk with
  | error e => simp [hfirst] at h
  | ok snapshot =>
    cases hrest : requestChunks server (request + 1) chunks with
    | error e => simp [hfirst, hrest] at h
    | ok rest =>
      rw [hfirst, hrest] at h
      cases h
      exact ⟨snapshot, rest, rfl, rfl, rfl⟩

omit [DecidableEq D] in
theorem length_of_requestChunks (hserver : OneProofEach server)
    (h : requestChunks server request chunks = .ok snapshots) : snapshots.length = chunks.length ∧
      (snapshots.flatMap (·.membershipProofs)).length = chunks.flatten.length := by
  induction chunks generalizing request snapshots with
  | nil =>
    cases h
    exact ⟨rfl, rfl⟩
  | cons chunk chunks ih =>
    obtain ⟨snapshot, rest, hfirst, hrest, rfl⟩ := requestChunks_cons_eq_ok h
    obtain ⟨hlength, hproofs⟩ := ih hrest
    constructor
    · rw [length_cons, length_cons, hlength]
    · rw [flatMap_cons, length_append, hproofs, flatten_cons, length_append, hserver _ _ _ hfirst]

theorem length_of_restoreProofs (hserver : OneProofEach server) {sets : List AbsoluteIndexSet}
    {fuel request' : ℕ} {proofs : List (RpcMsMembershipProofPrivacyPreserving D)}
    {msa : MutatorSetAccumulator D}
    (h : (restoreProofs server sets fuel request).Returns (proofs, msa, request')) :
    proofs.length = sets.length := by
  induction fuel generalizing request with
  | zero => exact absurd h not_returns_unfinished
  | succ fuel ih =>
    rw [restoreProofs, returns_bind] at h
    obtain ⟨snapshots, hsnapshots, h⟩ := h
    rw [returns_liftExcept] at hsnapshots
    obtain ⟨-, hproofs⟩ := length_of_requestChunks hserver hsnapshots
    rw [flatten_batches (by decide)] at hproofs
    cases snapshots with
    | nil => exact absurd h returns_throw
    | cons first rest =>
      rw [getLast?_cons] at h
      simp only at h
      by_cases hchanged : ((first :: rest).any fun s => s.syncedHash ≠ first.syncedHash) = true
      · rw [if_pos hchanged] at h
        exact ih h
      · rw [if_neg hchanged, returns_pure, Prod.mk.injEq] at h
        rw [← h.1, hproofs]

end Restored

/-! ## Selections -/

section Selections
variable [CoinOps D] [WalletOps D] [MmrOps D]

structure Selects (pool₀ : UtxoPool D) (amount : NativeCurrencyAmount) (timestamp : Timestamp)
    (exclude : Option (List (UtxoKey D))) (selection : UtxosSelection D) (pool : UtxoPool D) :
    Prop where
  /-- Every coin of the first pool is still there or was invalidated, once, and the index is that of
  the pool. -/
  evolves : Evolves pool₀ pool selection.invalidatedUtxos
  distinct : (selection.utxos.map UtxoKey.new).Nodup
  pooled : ∀ u ∈ selection.utxos, pool.utxos.get? (.new u) = some u
  not_excluded : ∀ u ∈ selection.utxos, ∀ keys ∈ exclude, UtxoKey.new u ∉ keys
  spendable : ∀ u ∈ selection.utxos, u.utxo.canSpendAt timestamp = true
  verifies : ∀ u ∈ selection.utxos,
    selection.msa.verify u.mutatorSetItem u.membershipProof = some true
  balance : ∃ amounts,
    (selection.utxos.map (·.utxo)).mapM (·.getNativeCurrencyAmount) = some amounts ∧
      (amounts.map (·.nau)).sum = amount.nau + selection.change.nau

variable [IterOrder] {server : ProofServer D} {amount : NativeCurrencyAmount}
  {timestamp : Timestamp} {exclude : Option (List (UtxoKey D))} {fuel request request' : ℕ}
  {selection : UtxosSelection D}

/-- How a round went: the candidates, what was looked at of them, and the outcome. -/
theorem cases_of_selectRound {r : Round D} (h : Evolves pool₀ pool invalidated)
    (hround : (selectRound server amount timestamp exclude fuel pool invalidated request).Returns
      r) :
    ∃ picked amounts change done msa, ∃ s : UtxoPool D × List (MonitoredUtxo D) × List (UtxoKey D),
      Picks pool timestamp exclude picked ∧
      (picked.map (·.2.utxo)).mapM (·.getNativeCurrencyAmount) = some amounts ∧
      (amounts.map (·.nau)).sum = amount.nau + change.nau ∧
      (OneProofEach server → done = picked.map (·.1)) ∧ Refreshes pool₀ invalidated msa done s ∧
      (s.2.2 = [] ∧ (∃ next, r = .selected ⟨s.2.1, change, msa, invalidated⟩ s.1 next) ∨
        s.2.2 ≠ [] ∧ ∃ evicted next, (s.2.2.foldlM evict (s.1, invalidated)).Returns evicted ∧
          r = .retry evicted.1 evicted.2 next) := by
  simp only [selectRound, returns_bind, returns_orElse, Prod.exists] at hround
  obtain ⟨picked, total, hpick, change, hchange, proofs, msa, next, hproofs, refreshed, selected,
    spent, hloop, hround⟩ := hround
  obtain ⟨hpicks, amounts, hamounts, htotal⟩ := picks_of_candidates hpick
  have hstart : Refreshes pool₀ invalidated msa [] (pool, [], []) :=
    ⟨h, .refl _, fun _ => rfl, by simp⟩
  have hnodup : ((picked.map (·.1)).zip proofs |>.map (·.1)).Nodup :=
    hpicks.nodup.sublist (map_fst_zip_sublist _ _)
  refine ⟨picked, amounts, change, _, msa, _, hpicks, hamounts, ?_, ?_,
    hstart.foldlM hnodup hloop, ?_⟩
  · have hsub := checkedSub_eq_some hchange
    rw [← htotal]
    omega
  · intro hserver
    have hlength := length_of_restoreProofs hserver hproofs
    rw [length_map] at hlength
    exact map_fst_zip (by rw [length_map, hlength])
  · by_cases hspent : spent = []
    · rw [hspent, isEmpty_nil, if_pos rfl, returns_pure] at hround
      exact Or.inl ⟨hspent, next, hround.symm⟩
    · have hne : ¬ spent.isEmpty = true := by simpa using hspent
      simp only [if_neg hne, returns_bind, returns_pure] at hround
      obtain ⟨evicted, hevict, hround⟩ := hround
      exact Or.inr ⟨hspent, evicted, next, hevict, hround.symm⟩

theorem selects_of_round (hserver : OneProofEach server) (h : Evolves pool₀ pool invalidated)
    (hround : (selectRound server amount timestamp exclude fuel pool invalidated request).Returns
      (.selected selection pool' request')) :
    Selects pool₀ amount timestamp exclude selection pool' := by
  obtain ⟨picked, amounts, change, done, msa, ⟨pool₁, selected, spent⟩, hpicks, hamounts, hsum,
    hdone, hrefreshes, hcases⟩ := cases_of_selectRound h hround
  cases hcases with
  | inr hretry =>
    obtain ⟨-, _, _, -, hround⟩ := hretry
    cases hround
  | inl hselected =>
    obtain ⟨hspent, next, hround⟩ := hselected
    cases hround
    have hkeys := (hrefreshes.all_of_spent_eq_nil hspent).trans (hdone hserver)
    have hpooled : ∀ u ∈ selected, pool₁.utxos.get? (.new u) = some u := fun u hu =>
      (hrefreshes.selected u hu).1
    have hmap := map_utxo_eq h hrefreshes.evolves hkeys hpooled hpicks.pooled
    -- Every selected coin is a candidate.
    have hfrom : ∀ u ∈ selected, ∃ e ∈ picked, e.1 = UtxoKey.new u ∧ e.2.utxo = u.utxo := by
      intro u hu
      have hmem : UtxoKey.new u ∈ picked.map (·.1) := hkeys ▸ mem_map_of_mem hu
      obtain ⟨e, he, hek⟩ := mem_map.mp hmem
      exact ⟨e, he, hek, h.utxo_eq hrefreshes.evolves (hpicks.pooled e he) (hek ▸ hpooled u hu)⟩
    constructor
    · exact hrefreshes.evolves
    · change (selected.map UtxoKey.new).Nodup
      rw [hkeys]
      exact hpicks.nodup
    · exact hpooled
    · intro u hu keys hin
      obtain ⟨e, he, hek, -⟩ := hfrom u hu
      exact hek ▸ hpicks.not_excluded e he keys hin
    · intro u hu
      obtain ⟨e, he, -, heu⟩ := hfrom u hu
      exact heu ▸ hpicks.spendable e he
    · exact fun u hu => (hrefreshes.selected u hu).2
    · refine ⟨amounts, ?_, hsum⟩
      change (selected.map (·.utxo)).mapM _ = _
      rw [hmap]
      exact hamounts

theorem evolves_of_retry (h : Evolves pool₀ pool invalidated)
    (hround : (selectRound server amount timestamp exclude fuel pool invalidated request).Returns
      (.retry pool' invalidated' request')) :
    Evolves pool₀ pool' invalidated' ∧ invalidated.length < invalidated'.length := by
  obtain ⟨picked, amounts, change, done, msa, ⟨pool₁, selected, spent⟩, hpicks, hamounts, hsum,
    hdone, hrefreshes, hcases⟩ := cases_of_selectRound h hround
  cases hcases with
  | inl hselected =>
    obtain ⟨-, _, hround⟩ := hselected
    cases hround
  | inr hretry =>
    obtain ⟨hspent, ⟨pool₂, invalidated₂⟩, next, hevict, hround⟩ := hretry
    cases hround
    obtain ⟨hevolves, hcount⟩ := hrefreshes.evolves.evict hevict
    refine ⟨hevolves, ?_⟩
    have hpos := length_pos_of_ne_nil hspent
    dsimp only at hcount hpos ⊢
    omega

theorem evolves_of_selected (h : Evolves pool₀ pool invalidated)
    (hround : (selectRound server amount timestamp exclude fuel pool invalidated request).Returns
      (.selected selection pool' request')) : Evolves pool₀ pool' selection.invalidatedUtxos := by
  obtain ⟨picked, amounts, change, done, msa, s, hpicks, hamounts, hsum, hdone, hrefreshes,
    hcases⟩ := cases_of_selectRound h hround
  cases hcases with
  | inr hretry =>
    obtain ⟨-, _, _, -, hround⟩ := hretry
    cases hround
  | inl hselected =>
    obtain ⟨-, next, hround⟩ := hselected
    cases hround
    exact hrefreshes.evolves

/-- The last round of a loop that returns, which is reached with the coins kept. -/
theorem exists_round_of_selectLoop {rounds : ℕ} (h : Evolves pool₀ pool invalidated)
    (hloop : (selectLoop server amount timestamp exclude fuel rounds pool invalidated
      request).Returns (selection, pool', request')) :
    ∃ pool₁ invalidated₁ request₁, Evolves pool₀ pool₁ invalidated₁ ∧
      (selectRound server amount timestamp exclude fuel pool₁ invalidated₁ request₁).Returns
        (.selected selection pool' request') := by
  induction rounds generalizing pool invalidated request with
  | zero => exact absurd hloop not_returns_unfinished
  | succ rounds ih =>
    rw [selectLoop, returns_bind] at hloop
    obtain ⟨r, hround, hloop⟩ := hloop
    cases r with
    | selected selection₁ pool₁ request₁ =>
      rw [returns_pure] at hloop
      cases hloop
      exact ⟨pool, invalidated, request, h, hround⟩
    | retry pool₁ invalidated₁ request₁ => exact ih (evolves_of_retry h hround).1 hloop

theorem selects_of_returns (hserver : OneProofEach server) (h : pool₀.InStep)
    (hselect : (selectUtxos server fuel request pool₀ amount timestamp exclude).Returns
      (selection, pool', request')) : Selects pool₀ amount timestamp exclude selection pool' := by
  obtain ⟨pool₁, invalidated₁, request₁, hevolves, hround⟩ :=
    exists_round_of_selectLoop (evolves_refl h) hselect
  exact selects_of_round hserver hevolves hround

end Selections

/-! ## What all coins of a pool have in common -/

/-- All coins of the pool have a property. -/
def All (Q : UtxoKey D → MonitoredUtxo D → Prop) (pool : UtxoPool D) : Prop :=
  ∀ k u, pool.utxos.get? k = some u → Q k u

section
variable [MmrOps D] {Q : UtxoKey D → MonitoredUtxo D → Prop}
  (hQ : ∀ k u v, u.SameCoin v → Q k u → Q k v)
include hQ

theorem all_refreshCandidates (h : pool.All Q) {msa : MutatorSetAccumulator D}
    {cs : List (UtxoKey D × RpcMsMembershipProofPrivacyPreserving D)}
    {selected : List (MonitoredUtxo D)} {spent : List (UtxoKey D)}
    {s' : UtxoPool D × List (MonitoredUtxo D) × List (UtxoKey D)}
    (hloop : (cs.foldlM (refreshCandidate msa) (pool, selected, spent)).Returns s') :
    s'.1.All Q := by
  induction cs generalizing pool selected spent with
  | nil =>
    cases returns_pure.mp hloop
    exact h
  | cons c cs ih =>
    rw [returns_foldlM_cons] at hloop
    obtain ⟨t, ht, hrest⟩ := hloop
    simp only [refreshCandidate, returns_bind, returns_orElse] at ht
    obtain ⟨u, hu, mp, hmp, valid, -, ht⟩ := ht
    cases valid with
    | false =>
      rw [if_neg Bool.false_ne_true, returns_pure] at ht
      subst ht
      exact ih h hrest
    | true =>
      rw [if_pos rfl, returns_pure] at ht
      subst ht
      refine ih (fun k v hv => ?_) hrest
      exact of_get?_put hv (hQ _ _ _ (.of_extract hmp) (h c.1 u hu)) fun _ => h k v

variable {invalidated : List (UtxoKey D × MonitoredUtxo D)}

omit [MmrOps D] in
theorem all_evict (h : pool.All Q) {spent : List (UtxoKey D)}
    (hinvalidated : ∀ e ∈ invalidated, Q e.1 e.2)
    {s' : UtxoPool D × List (UtxoKey D × MonitoredUtxo D)}
    (hevict : (spent.foldlM UtxoPool.evict (pool, invalidated)).Returns s') :
    s'.1.All Q ∧ ∀ e ∈ s'.2, Q e.1 e.2 := by
  induction spent generalizing pool invalidated with
  | nil =>
    cases returns_pure.mp hevict
    exact ⟨h, hinvalidated⟩
  | cons key spent ih =>
    rw [returns_foldlM_cons] at hevict
    obtain ⟨t, ht, hrest⟩ := hevict
    simp only [evict, returns_bind, returns_orElse, returns_pure] at ht
    obtain ⟨u, hu, rfl⟩ := ht
    refine ih (fun k v hv => ?_) ?_ hrest
    · exact h k v (get?_erase_eq_some.mp hv).2
    · rw [forall_mem_append, forall_mem_singleton]
      exact ⟨hinvalidated, hQ key u _ ⟨rfl, rfl, rfl, rfl⟩ (h key u hu)⟩

variable [CoinOps D] [WalletOps D] [IterOrder] {server : ProofServer D}
  {amount : NativeCurrencyAmount} {timestamp : Timestamp} {exclude : Option (List (UtxoKey D))}
  {fuel : ℕ}

/-- The coins after a round, and those that are no longer there. -/
def Round.All (Q : UtxoKey D → MonitoredUtxo D → Prop) : Round D → Prop
  | .selected selection pool _ =>
    pool.All Q ∧ ∀ e ∈ selection.invalidatedUtxos, Q e.1 e.2
  | .retry pool invalidated _ => pool.All Q ∧ ∀ e ∈ invalidated, Q e.1 e.2

theorem all_selectRound (h : pool.All Q) (hinvalidated : ∀ e ∈ invalidated, Q e.1 e.2)
    {request : ℕ} {r : Round D}
    (hround : (UtxoPool.selectRound server amount timestamp exclude fuel pool invalidated
      request).Returns r) : r.All Q := by
  simp only [UtxoPool.selectRound, returns_bind, Prod.exists] at hround
  obtain ⟨_, _, -, _, -, _, _, _, -, refreshed, selected, spent, hloop, hround⟩ := hround
  have hrefreshed : refreshed.All Q := all_refreshCandidates hQ h hloop
  by_cases hspent : spent.isEmpty = true
  · rw [if_pos hspent, returns_pure] at hround
    rw [← hround]
    exact ⟨hrefreshed, hinvalidated⟩
  · simp only [if_neg hspent, returns_bind, returns_pure, Prod.exists] at hround
    obtain ⟨_, _, hevict, rfl⟩ := hround
    exact all_evict hQ hrefreshed hinvalidated hevict

theorem all_selectLoop (h : pool.All Q) (hinvalidated : ∀ e ∈ invalidated, Q e.1 e.2)
    {rounds request request' : ℕ} {selection : UtxosSelection D}
    (hloop : (UtxoPool.selectLoop server amount timestamp exclude fuel rounds pool invalidated
      request).Returns (selection, pool', request')) :
    pool'.All Q ∧ ∀ e ∈ selection.invalidatedUtxos, Q e.1 e.2 := by
  induction rounds generalizing pool invalidated request with
  | zero => exact absurd hloop not_returns_unfinished
  | succ rounds ih =>
    rw [selectLoop, returns_bind] at hloop
    obtain ⟨r, hround, hloop⟩ := hloop
    have hall := all_selectRound hQ h hinvalidated hround
    cases r with
    | selected selection pool request =>
      cases returns_pure.mp hloop
      exact hall
    | retry pool invalidated request => exact ih hall.1 hall.2 hloop

end

/-! ## The loops end -/

/-- From some request on the node always answers for the same tip. -/
def SettlesAt (server : ProofServer D) (n : ℕ) : Prop :=
  ∀ r r' sets sets' a b, n ≤ r → n ≤ r' → server r sets = .ok a → server r' sets' = .ok b →
    a.syncedHash = b.syncedHash

section Ending
variable {server : ProofServer D} {n : ℕ} {request : ℕ}

omit [Tip5 D] [ConsensusOps D] [DecidableEq D] in
theorem exists_request_of_mem {chunks : List (List AbsoluteIndexSet)}
    {snapshots : List (RpcMsMembershipSnapshot D)}
    (h : requestChunks server request chunks = .ok snapshots) :
    ∀ s ∈ snapshots, ∃ r sets, request ≤ r ∧ server r sets = .ok s := by
  induction chunks generalizing request snapshots with
  | nil =>
    cases h
    simp
  | cons chunk chunks ih =>
    obtain ⟨snapshot, rest, hfirst, hrest, rfl⟩ := requestChunks_cons_eq_ok h
    rw [forall_mem_cons]
    refine ⟨⟨request, chunk, Nat.le_refl _, hfirst⟩, fun s hs => ?_⟩
    obtain ⟨r, sets, hr, hs⟩ := ih hrest s hs
    exact ⟨r, sets, by omega, hs⟩

omit [Tip5 D] [ConsensusOps D] in
/-- Every attempt makes a request, and once the node has settled an attempt succeeds. -/
theorem finishes_restoreProofs (hserver : SettlesAt server n) {sets : List AbsoluteIndexSet}
    {fuel : ℕ} (hfuel : n - request < fuel) :
    (restoreProofs server sets fuel request).Finishes := by
  induction fuel generalizing request with
  | zero => omega
  | succ fuel ih =>
    rw [restoreProofs]
    refine (finishes_liftExcept _).bind fun snapshots hsnapshots => ?_
    rw [returns_liftExcept] at hsnapshots
    cases snapshots with
    | nil => exact finishes_throw _
    | cons first rest =>
      rw [getLast?_cons]
      simp only
      by_cases hchanged : ((first :: rest).any fun s => s.syncedHash ≠ first.syncedHash) = true
      · rw [if_pos hchanged]
        have hrequest : request < n := by
          by_contra hsettled
          obtain ⟨s, hs, hne⟩ := any_eq_true.mp hchanged
          obtain ⟨r, sets₁, hr, hs⟩ := exists_request_of_mem hsnapshots s hs
          obtain ⟨r', sets₂, hr', hfirst⟩ :=
            exists_request_of_mem hsnapshots first mem_cons_self
          exact of_decide_eq_true hne
            (hserver r r' sets₁ sets₂ s first (by omega) (by omega) hs hfirst)
        refine ih ?_
        rw [length_cons]
        omega
      · rw [if_neg hchanged]
        exact finishes_pure _

variable [CoinOps D] [WalletOps D] [MmrOps D]

omit [CoinOps D] [WalletOps D] in
theorem finishes_refreshCandidate (msa : MutatorSetAccumulator D)
    (s : UtxoPool D × List (MonitoredUtxo D) × List (UtxoKey D))
    (c : UtxoKey D × RpcMsMembershipProofPrivacyPreserving D) :
    (refreshCandidate msa s c).Finishes := by
  refine (finishes_orElse _ _).bind fun u _ => ?_
  refine (finishes_orElse _ _).bind fun mp _ => ?_
  refine (finishes_orElse _ _).bind fun valid _ => ?_
  cases valid with
  | false => exact finishes_pure _
  | true => exact finishes_pure _

omit [CoinOps D] [WalletOps D] [MmrOps D] in
theorem finishes_evict (s : UtxoPool D × List (UtxoKey D × MonitoredUtxo D)) (k : UtxoKey D) :
    (evict s k).Finishes :=
  (finishes_orElse _ _).bind fun _ _ => finishes_pure _

variable [IterOrder] {amount : NativeCurrencyAmount} {timestamp : Timestamp}
  {exclude : Option (List (UtxoKey D))} {fuel : ℕ}

theorem finishes_selectRound (hserver : SettlesAt server n) (hfuel : n < fuel)
    (pool : UtxoPool D) (invalidated : List (UtxoKey D × MonitoredUtxo D)) (request : ℕ) :
    (selectRound server amount timestamp exclude fuel pool invalidated request).Finishes := by
  refine (finishes_orElse _ _).bind fun picked _ => ?_
  refine (finishes_orElse _ _).bind fun change _ => ?_
  refine (finishes_restoreProofs hserver (by omega)).bind fun proofs _ => ?_
  refine (finishes_foldlM (finishes_refreshCandidate _) _ _).bind fun s _ => ?_
  by_cases hspent : s.2.2.isEmpty = true
  · simp only [if_pos hspent]
    exact finishes_pure _
  · simp only [if_neg hspent]
    exact (finishes_foldlM finishes_evict _ _).bind fun _ _ => finishes_pure _

theorem finishes_selectLoop (hserver : SettlesAt server n) (hfuel : n < fuel) {rounds : ℕ}
    (h : Evolves pool₀ pool invalidated) (hrounds : pool.utxos.length < rounds) :
    (selectLoop server amount timestamp exclude fuel rounds pool invalidated request).Finishes := by
  induction rounds generalizing pool invalidated request with
  | zero => omega
  | succ rounds ih =>
    rw [selectLoop]
    refine (finishes_selectRound hserver hfuel pool invalidated request).bind fun r hround => ?_
    cases r with
    | selected selection pool' request' => exact finishes_pure _
    | retry pool' invalidated' request' =>
      obtain ⟨hevolves, hevicted⟩ := evolves_of_retry h hround
      refine ih hevolves ?_
      have hlength := h.length_eq
      have hlength' := hevolves.length_eq
      omega

theorem finishes_selectUtxos (hserver : SettlesAt server n) (h : pool.InStep)
    (hfuel : n + pool.utxos.length < fuel) :
    (selectUtxos server fuel request pool amount timestamp exclude).Finishes :=
  finishes_selectLoop hserver (by omega) (evolves_refl h) (by omega)

end Ending

/-! ## Pools -/

section Pools
variable [CoinOps D] [WalletOps D] [MmrOps D] [IterOrder]

/-- How pools come about, and the coins that were inserted on the way. -/
inductive Built : List (MonitoredUtxo D) → UtxoPool D → Prop
  | new : Built [] .new
  | imported {us : List (MonitoredUtxo D)} {pool : UtxoPool D} (u : MonitoredUtxo D)
      (hpool : Built us pool) : Built (u :: us) (pool.importUtxo u).2
  | added {us : List (MonitoredUtxo D)} {pool pool' : UtxoPool D} {server : ProofServer D}
      {fuel request request' : ℕ} {utxos : List (IncomingUtxo D)}
      {added : List (UtxoKey D × MonitoredUtxo D)} (hpool : Built us pool)
      (hadd : (addUtxos server fuel request pool utxos).Returns (added, pool', request')) :
      Built (added.map (·.2) ++ us) pool'
  | selected {us : List (MonitoredUtxo D)} {pool pool' : UtxoPool D} {server : ProofServer D}
      {fuel request request' : ℕ} {amount : NativeCurrencyAmount} {timestamp : Timestamp}
      {exclude : Option (List (UtxoKey D))} {selection : UtxosSelection D} (hpool : Built us pool)
      (hselect : (selectUtxos server fuel request pool amount timestamp exclude).Returns
        (selection, pool', request')) : Built us pool'

/-- The key of a coin and its indices determine each other. -/
def Unambiguous (us : List (MonitoredUtxo D)) : Prop :=
  ∀ u ∈ us, ∀ v ∈ us, u.indices = v.indices ↔ UtxoKey.new u = .new v

/-- The pool is in step, and has coins of a list only. -/
structure Holds (us : List (MonitoredUtxo D)) (pool : UtxoPool D) : Prop where
  inStep : pool.InStep
  mem : ∀ {k u}, pool.utxos.get? k = some u → ∃ v ∈ us, v.SameCoin u

variable {us : List (MonitoredUtxo D)}

section
omit [CoinOps D] [WalletOps D] [MmrOps D] [IterOrder]

theorem Holds.insertUtxo (h : Holds us pool) (hus : Unambiguous us) {u : MonitoredUtxo D}
    (hu : u ∈ us) : Holds us (pool.insertUtxo u) where
  inStep := by
    refine h.inStep.insertUtxo fun {k v} hv => ?_
    obtain ⟨w, hw, hsame⟩ := h.mem hv
    rw [← hsame.indices_eq, hus w hw u hu, hsame.key_eq, h.inStep.key_eq hv]
  mem := by
    intro k v hv
    exact of_get?_insert hv ⟨u, hu, .refl u⟩ fun _ => h.mem

theorem Holds.mono {us' : List (MonitoredUtxo D)} (h : Holds us pool) (hsub : us ⊆ us') :
    Holds us' pool where
  inStep := h.inStep
  mem := by
    intro k u hu
    obtain ⟨v, hv, hsame⟩ := h.mem hu
    exact ⟨v, hsub hv, hsame⟩

theorem Holds.foldl_insertUtxo {added : List (MonitoredUtxo D)} (h : Holds us pool)
    (hus : Unambiguous us) (hadded : added ⊆ us) : Holds us (added.foldl .insertUtxo pool) := by
  induction added generalizing pool with
  | nil => exact h
  | cons u added ih =>
    rw [cons_subset] at hadded
    exact ih (h.insertUtxo hus hadded.1) hadded.2

end

/-- Pools are in step, if keys and indices identify the same coins. -/
theorem holds_of_built (hpool : Built us pool) (hus : Unambiguous us) : Holds us pool := by
  induction hpool with
  | new => exact ⟨inStep_new, fun hu => by cases hu⟩
  | imported u hpool ih =>
    have hsub : Unambiguous _ := fun v hv w hw =>
      hus v (mem_cons_of_mem u hv) w (mem_cons_of_mem u hw)
    exact ((ih hsub).mono (subset_cons_self _ _)).insertUtxo hus mem_cons_self
  | @added us pool pool' server fuel request request' utxos added hpool hadd ih =>
    have hsub : Unambiguous us := fun v hv w hw =>
      hus v (mem_append_right _ hv) w (mem_append_right _ hw)
    have hold := (ih hsub).mono (subset_append_right (added.map (·.2)) us)
    rw [addUtxos] at hadd
    by_cases hempty : utxos.isEmpty = true
    · rw [if_pos hempty, returns_pure] at hadd
      cases hadd
      exact hold
    · simp only [if_neg hempty, returns_bind, returns_pure, Prod.mk.injEq] at hadd
      obtain ⟨_, _, finalized, _, rfl, rfl, _⟩ := hadd
      refine hold.foldl_insertUtxo hus fun u hu => ?_
      rw [List.map_map]
      exact mem_append_left _ (mem_map.mpr ⟨u, hu, rfl⟩)
  | selected hpool hselect ih =>
    have hold := ih hus
    obtain ⟨pool₁, invalidated₁, request₁, hevolves, hround⟩ :=
      exists_round_of_selectLoop (evolves_refl hold.inStep) hselect
    have hlast := evolves_of_selected hevolves hround
    refine ⟨hlast.inStep, fun hu => ?_⟩
    obtain ⟨u₀, hu₀, hsame⟩ := hlast.kept hu
    obtain ⟨v, hv, hsame'⟩ := hold.mem hu₀
    exact ⟨v, hv, hsame'.trans hsame⟩

end Pools

end UtxoPool

end NyksNode
