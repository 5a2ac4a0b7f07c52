import NyksNode.Wallet.Selection
import NyksNode.Wallet.Wallet

/-!
# Spending coins

A selection and the transaction that is built from it balance: the amounts of the inputs are what
is sent, the fee and the change.

The pool is any that comes about by imports, received coins and earlier selections.  The index of
the pool is only as good as the hash function: a coin is looked up by its indices, so two coins of
the wallet with different keys must not have the same ones.
-/

namespace NyksNode

namespace Wallet
variable {D : Type} [DecidableEq D] [Tip5 D] [ConsensusOps D] [CoinOps D] [WalletOps D] [MmrOps D]
  [IterOrder]

open UtxoPool

/-- The inputs of a transaction are worth what is sent, the fee and the change. -/
structure Balances (recipient : Address D) (amount fee : NativeCurrencyAmount)
    (selection : UtxosSelection D) (transaction : BuilderTransaction D) : Prop where
  fee_eq : transaction.kernel.fee = fee
  inputs_eq : transaction.inputs.map (·.utxo) = selection.utxos.map (·.utxo)
  outputs_eq : ∃ changeOutput, transaction.outputs.map (fun o => (o.recipient, o.amount)) =
    [(recipient, amount), (changeOutput, selection.change)]
  balance : ∃ amounts,
    (transaction.inputs.map (·.utxo)).mapM (·.getNativeCurrencyAmount) = some amounts ∧
      (amounts.map (·.nau)).sum = amount.nau + fee.nau + selection.change.nau

omit [Tip5 D] [ConsensusOps D] [CoinOps D] [WalletOps D] [MmrOps D] in
theorem map_utxo_of_unlockWith {addresses : AddressBook D} {utxos : List (MonitoredUtxo D)}
    {inputs : List (SpendableUtxo D)} (h : unlockWith addresses utxos = some inputs) :
    inputs.map (·.utxo) = utxos.map (·.utxo) := by
  have hall := forall₂_of_mapM h
  clear h
  induction hall with
  | nil => rfl
  | @cons u input us inputs hinput _ ih =>
    obtain ⟨key, -, rfl⟩ := Option.map_eq_some_iff.mp hinput
    rw [List.map_cons, List.map_cons, ih]

theorem balances_of_prepareTransaction {rpc : RpcAnswers D} {fuel : ℕ} {recipient : Address D}
    {amount fee : NativeCurrencyAmount} {timestamp : Timestamp} {w w' : Wallet D}
    {transaction : BuilderTransaction D} (hserver : OneProofEach rpc.restoreMembershipProof)
    (hpool : w.utxos.InStep)
    (h : (prepareTransaction rpc fuel recipient amount fee timestamp : Effect (Wallet D) RpcError
      _).start w = some (.ok transaction, w')) : ∃ target selection, amount.add fee = some target ∧
      Selects w.utxos target timestamp (some w.mempoolScanner.pendingSpendUtxos) selection
        w'.utxos ∧ Balances recipient amount fee selection transaction := by
  obtain ⟨target, selection, pool, request, inputs, changeAddress, htarget, hselect, hinputs, -,
    heq, rfl⟩ := exists_of_start_prepareTransaction h
  cases heq
  have hselects := selects_of_returns hserver hpool hselect
  have hmap := map_utxo_of_unlockWith hinputs
  refine ⟨target, selection, htarget, hselects, rfl, hmap, ⟨changeAddress, rfl⟩, ?_⟩
  obtain ⟨amounts, hamounts, hsum⟩ := hselects.balance
  refine ⟨amounts, ?_, ?_⟩
  · change (inputs.map (·.utxo)).mapM _ = _
    rw [hmap]
    exact hamounts
  · rw [hsum, NativeCurrencyAmount.add_eq_some htarget]

/-- Selections and transactions balance.  A round that does not return evicts a coin, so the loop
ends if the node settles. -/
theorem spending_balances {us : List (MonitoredUtxo D)} {pool : UtxoPool D} (hpool : Built us pool)
    (hus : UtxoPool.Unambiguous us) {server : ProofServer D} (hserver : OneProofEach server)
    (timestamp : Timestamp) : (∀ amount exclude fuel request selection pool' request',
      (pool.selectUtxos server fuel request amount timestamp exclude).Returns
        (selection, pool', request') → Selects pool amount timestamp exclude selection pool') ∧
    (∀ amount exclude fuel pool₁ invalidated₁ request₁ pool₂ invalidated₂ request₂,
      Evolves pool pool₁ invalidated₁ →
      (selectRound server amount timestamp exclude fuel pool₁ invalidated₁ request₁).Returns
        (.retry pool₂ invalidated₂ request₂) →
      Evolves pool pool₂ invalidated₂ ∧ pool₂.utxos.length < pool₁.utxos.length) ∧
    (∀ n, SettlesAt server n → ∀ amount exclude fuel request, n + pool.utxos.length < fuel →
      (pool.selectUtxos server fuel request amount timestamp exclude).Finishes) ∧
    ∀ (w w' : Wallet D) rpc fuel recipient amount fee transaction, w.utxos = pool →
      rpc.restoreMembershipProof = server →
      (prepareTransaction rpc fuel recipient amount fee timestamp : Effect (Wallet D) RpcError
        _).start w = some (.ok transaction, w') → ∃ target selection, amount.add fee = some target ∧
        Selects pool target timestamp (some w.mempoolScanner.pendingSpendUtxos) selection w'.utxos ∧
        Balances recipient amount fee selection transaction := by
  have hstep := (holds_of_built hpool hus).inStep
  refine ⟨?_, ?_, ?_, ?_⟩
  · intro amount exclude fuel request selection pool' request' hselect
    exact selects_of_returns hserver hstep hselect
  · intro amount exclude fuel pool₁ invalidated₁ request₁ pool₂ invalidated₂ request₂ hevolves
      hround
    obtain ⟨hevolves', hlength⟩ := evolves_of_retry hevolves hround
    refine ⟨hevolves', ?_⟩
    have hcount := hevolves.length_eq
    have hcount' := hevolves'.length_eq
    omega
  · intro n hsettles amount exclude fuel request hfuel
    exact finishes_selectUtxos hsettles hstep hfuel
  · intro w w' rpc fuel recipient amount fee transaction hw hrpc hprepare
    subst hw hrpc
    exact balances_of_prepareTransaction hserver hstep hprepare

end Wallet

/-! ## A spent coin -/

namespace SpentCoin

def coin (leaf amount : ℕ) : MonitoredUtxo SymbolicDigest where
  utxo := ⟨.atom 5, NativeCurrencyAmount.toNativeCoins ⟨amount⟩⟩
  membershipProof := ⟨.atom 8, .atom 7, [], leaf, .empty⟩
  status := .unspent
  inclusionBlock := none

def pool : UtxoPool SymbolicDigest :=
  ((UtxoPool.new.importUtxo (coin 0 30)).2.importUtxo (coin 1 12)).2

def server : ProofServer SymbolicDigest := fun _ sets =>
  let msa := ((MutatorSetAccumulator.empty : MutatorSetAccumulator SymbolicDigest).add
    (coin 0 30).additionRecord).getD .empty
  .ok ⟨.atom 9, msa, sets.map fun _ => ⟨⟨[(0, []), (1, [])], by decide⟩, .empty⟩⟩

theorem oneProofEach_server : UtxoPool.OneProofEach server := by
  intro request sets snapshot h
  cases h
  exact List.length_map _

end SpentCoin

section

local instance SpentCoin.keptOrder : IterOrder := .asKept

theorem spending_balances_spent_coin :
    ∃ selection pool request, (SpentCoin.pool.selectUtxos SpentCoin.server 10 0 ⟨10⟩ (.millis 100)
        none).Returns (selection, pool, request) ∧
      selection.invalidatedUtxos.map (·.1.aoclIndex) = [1] ∧
      UtxoPool.Selects SpentCoin.pool ⟨10⟩ (.millis 100) none selection pool := by
  have hrun : (SpentCoin.pool.selectUtxos SpentCoin.server 10 0 ⟨10⟩ (.millis 100)
      none).unwrap.any (fun r => r.1.invalidatedUtxos.map (·.1.aoclIndex) = [1]) = true := by
    decide +kernel
  obtain ⟨⟨selection, pool, request⟩, hselect, hevicted⟩ := (Option.any_eq_true _ _).mp hrun
  rw [Fallible.unwrap_eq_some_iff] at hselect
  have hbuilt : UtxoPool.Built [SpentCoin.coin 1 12, SpentCoin.coin 0 30] SpentCoin.pool :=
    .imported _ (.imported _ .new)
  have hus : UtxoPool.Unambiguous [SpentCoin.coin 1 12, SpentCoin.coin 0 30] := by
    unfold UtxoPool.Unambiguous
    decide +kernel
  exact ⟨selection, pool, request, hselect, of_decide_eq_true hevicted,
    (Wallet.spending_balances hbuilt hus SpentCoin.oneProofEach_server (.millis 100)).1
      _ _ _ _ _ _ _ hselect⟩

end

/-! ## Balances -/

section
open List Option NativeCurrencyAmount UtxoPool
variable {D : Type} [DecidableEq D]

namespace UtxoPool
variable (p : UtxoPool D)

theorem perm_filterMap_get? {keys : List (UtxoKey D)} (hkeys : keys.Nodup) :
    (keys.filterMap fun k => (p.utxos.get? k).map (k, ·)).Perm
      (p.utxos.entries.filter (keys.contains ·.1)) := by
  refine (perm_ext_iff_of_nodup (hkeys.filterMap ?_) (p.utxos.nodup_keys.of_map.filter _)).mpr ?_
  · intro k k' e hk hk'
    obtain ⟨_, _, rfl⟩ := mem_map.mp hk
    obtain ⟨_, _, heq⟩ := mem_map.mp hk'
    exact (congrArg Prod.fst heq).symm
  · rintro ⟨k, u⟩
    simp [mem_filterMap, ← AssocMap.get?_eq_some_iff, and_comm]

variable [ConsensusOps D] [CoinOps D]

def spendableBalance [WalletOps D] [IterOrder] (timestamp : Timestamp) :
    Option NativeCurrencyAmount :=
  ((IterOrder.iter p.utxos.entries).filter (·.2.utxo.canSpendAt timestamp)).foldlM addCoin .zero

/-- `total_balance_from_utxos`; a key that is not in the pool is passed over. -/
def totalBalanceFromUtxos (keys : List (UtxoKey D)) : Option NativeCurrencyAmount :=
  (keys.filterMap fun k => (p.utxos.get? k).map (k, ·)).foldlM addCoin .zero

/-- The value of a coin, in `nau`. -/
def worth (e : UtxoKey D × MonitoredUtxo D) : ℤ :=
  (e.2.utxo.getNativeCurrencyAmount.getD .zero).nau

/-- The value of some of the coins. -/
def worthOf (c : UtxoKey D × MonitoredUtxo D → Bool) : ℤ :=
  ((p.utxos.entries.filter c).map worth).sum

theorem worthOf_split (c c' : UtxoKey D × MonitoredUtxo D → Bool) :
    p.worthOf c = p.worthOf (fun e => c e && c' e) + p.worthOf fun e => c e && !c' e := by
  unfold worthOf
  induction p.utxos.entries with
  | nil => rfl
  | cons e es ih => cases hc : c e <;> cases hc' : c' e <;> simp [hc, hc'] <;> omega

theorem nau_of_foldlM_addCoin {es : List (UtxoKey D × MonitoredUtxo D)}
    {start total : NativeCurrencyAmount} (h : es.foldlM addCoin start = some total) :
    total.nau = start.nau + (es.map worth).sum := by
  induction es generalizing start with
  | nil =>
    cases h
    simp
  | cons e es ih =>
    rw [foldlM_cons_eq_some] at h
    obtain ⟨next, hnext, h⟩ := h
    obtain ⟨a, ha, hadd⟩ := bind_eq_some_iff.mp hnext
    rw [ih h, add_eq_some hadd, map_cons, sum_cons, worth, ha, getD_some, add_assoc]

end UtxoPool

namespace Wallet
variable [ConsensusOps D] [CoinOps D] [WalletOps D] [IterOrder] (w : Wallet D)
  (timestamp : Timestamp)

/-- `spendable_balance`.  Both maps are listed in some order, and each sum may overflow on the
way. -/
def spendableBalance : Option NativeCurrencyAmount := do
  let spendable ← w.utxos.spendableBalance timestamp
  let outgoing ← w.utxos.totalBalanceFromUtxos (IterOrder.iter w.mempoolScanner.pendingSpendUtxos)
  spendable.checkedSub outgoing

def isPending (e : UtxoKey D × MonitoredUtxo D) : Bool :=
  w.mempoolScanner.pendingSpendUtxos.contains e.1

/-- The value of what can be spent now and is not pending. -/
def exactBalance : ℤ := w.utxos.worthOf fun e => e.2.utxo.canSpendAt timestamp && !w.isPending e

/-- **The spendable balance** is exact if and only if neither sum overflows or is negative, and the
pending coins that cannot be spent now are worth nothing. -/
theorem spendableBalance_exact_iff :
    w.spendableBalance timestamp = some ⟨w.exactBalance timestamp⟩ ↔
      (∃ spendable outgoing, w.utxos.spendableBalance timestamp = some spendable ∧
        w.utxos.totalBalanceFromUtxos (IterOrder.iter w.mempoolScanner.pendingSpendUtxos) =
          some outgoing ∧ 0 ≤ spendable.nau ∧ 0 ≤ outgoing.nau) ∧ 0 ≤ w.exactBalance timestamp ∧
      w.utxos.worthOf (fun e => w.isPending e && !e.2.utxo.canSpendAt timestamp) = 0 := by
  have hspendable := w.utxos.worthOf_split (·.2.utxo.canSpendAt timestamp) w.isPending
  have hpending := w.utxos.worthOf_split w.isPending (·.2.utxo.canSpendAt timestamp)
  simp only [Bool.and_comm (w.isPending _) (Utxo.canSpendAt _ _)] at hpending
  cases hs : w.utxos.spendableBalance timestamp with
  | none => simp [spendableBalance, hs]
  | some spendable =>
    cases ho : w.utxos.totalBalanceFromUtxos
        (IterOrder.iter w.mempoolScanner.pendingSpendUtxos) with
    | none => simp [spendableBalance, hs, ho]
    | some outgoing =>
      have hs' := nau_of_foldlM_addCoin hs
      have ho' := nau_of_foldlM_addCoin ho
      have hkeys : w.mempoolScanner.pendingSpendUtxos.Nodup :=
        w.mempoolScanner.pendingSpends.nodup_keys
      rw [(((IterOrder.iter_perm _).filter _).map _).sum_eq] at hs'
      rw [((((IterOrder.iter_perm _).filterMap _).trans
        (w.utxos.perm_filterMap_get? hkeys)).map _).sum_eq] at ho'
      change _ = 0 + w.utxos.worthOf _ at hs'
      change _ = 0 + w.utxos.worthOf w.isPending at ho'
      rw [spendableBalance, hs, some_bind, ho, some_bind, checkedSub, ite_none_right_eq_some,
        some_inj, NativeCurrencyAmount.mk.injEq]
      simp only [Bool.not_eq_true, isNegative_eq_false_iff, some_inj, exists_and_left,
        exists_eq_left', exactBalance]
      omega

end Wallet

def SpentCoin.locked : Wallet SymbolicDigest :=
  let _ := IterOrder.asKept
  let u : MonitoredUtxo SymbolicDigest := { coin 0 30 with
    utxo := ⟨.atom 5, toNativeCoins ⟨30⟩ ++ [⟨WalletOps.timeLockHash, [100]⟩]⟩ }
  { Wallet.new SymbolicDigest.entropy none .main with
    utxos := (UtxoPool.new.importUtxo u).2
    mempoolScanner := ⟨[.atom 3], AssocMap.empty.insert (UtxoKey.new u) [.atom 3]⟩ }

attribute [local instance] SpentCoin.keptOrder

/-- A coin that is locked until later is pending, and the balance panics. -/
theorem spendableBalance_of_locked : SpentCoin.locked.exactBalance ⟨50⟩ = 0 ∧
    SpentCoin.locked.spendableBalance ⟨50⟩ = none := by
  decide +kernel

end

end NyksNode
