import NyksNode.Wallet.Selection
import NyksNode.Wallet.Wallet

/-!
# Keys and coins of the wallet

The address book of a wallet has the keys of each type up to an index.  The scanner looks for coins
of these keys only, and the pool holds coins that the scanner has found, so every coin of the wallet
is locked to one of its keys, and the events that the wallet raises are about such coins.
-/

namespace NyksNode

open List Option Fallible AssocMap Function

/-! ## Keys -/

namespace AddressBook
variable {D : Type}

/-- The book has the keys of each type up to an index. -/
structure Through (entropy : WalletEntropy D) (last : KeyType → ℕ) (b : AddressBook D) : Prop where
  entropy_eq : b.entropy = entropy
  get?_eq : ∀ t i, (b.byIndex t).get? i = if i ≤ last t then some (entropy.derive t i) else none

theorem get?_deriveThrough (entropy : WalletEntropy D) (t : KeyType) (n i : ℕ) :
    (deriveThrough entropy t n).get? i = if i ≤ n then some (entropy.derive t i) else none := by
  rw [deriveThrough]
  generalize hn : n + 1 = m
  have hle : i ≤ n ↔ i < m := by omega
  simp only [hle]
  clear hn hle
  induction m with
  | zero => rfl
  | succ m ih =>
    rw [range_succ, foldl_concat, get?_put, ih]
    by_cases him : i = m
    · rw [if_pos him, if_pos (by omega), him]
    · rw [if_neg him]
      have hlt : i < m ↔ i < m + 1 := by omega
      simp [hlt]

/-- The last indices after a start with the given ones. -/
def startIndices (generationIndex symmetricIndex : ℕ) : KeyType → ℕ
  | .generation => generationIndex + 1
  | .symmetric => symmetricIndex + 1

theorem through_withAddressIndexes (entropy : WalletEntropy D)
    (generationIndex symmetricIndex : ℕ) :
    (withAddressIndexes entropy generationIndex symmetricIndex).Through entropy
      (startIndices generationIndex symmetricIndex) where
  entropy_eq := rfl
  get?_eq t i := by
    cases t with
    | generation => exact get?_deriveThrough entropy .generation (generationIndex + 1) i
    | symmetric => exact get?_deriveThrough entropy .symmetric (symmetricIndex + 1) i

variable {entropy : WalletEntropy D} {last : KeyType → ℕ} {b : AddressBook D}

theorem Through.lastIndex_eq (h : b.Through entropy last) (t : KeyType) :
    b.lastIndex t = some (last t) := by
  have hmem : ∀ i, i ∈ (b.byIndex t).keys ↔ i ≤ last t := by
    intro i
    rw [AssocMap.mem_keys, h.get?_eq]
    by_cases hi : i ≤ last t
    · simp [hi]
    · simp [hi]
  rw [lastIndex, max?_eq_some_iff]
  exact ⟨(hmem _).mpr le_rfl, fun i hi => (hmem i).mp hi⟩

theorem Through.latestAddress_eq (h : b.Through entropy last) (t : KeyType) :
    b.latestAddress t = some (entropy.derive t (last t)).address := by
  rw [latestAddress, h.lastIndex_eq, bind_some, h.get?_eq, if_pos le_rfl]
  rfl

theorem byIndex_record (b : AddressBook D) (t : KeyType) (i : ℕ) (key : ViewingKey D)
    (t' : KeyType) : (b.record t i key).byIndex t' =
      if t' = t then (b.byIndex t').put i key else b.byIndex t' := by
  cases t <;> cases t' <;> rfl

theorem Through.nextAddress_eq (h : b.Through entropy last) (t : KeyType) :
    b.nextAddress t = (entropy.derive t (last t + 1), last t + 1,
      b.record t (last t + 1) (entropy.derive t (last t + 1))) := by
  rw [nextAddress, h.lastIndex_eq, h.entropy_eq]
  rfl

theorem Through.record (h : b.Through entropy last) (t : KeyType) :
    (b.record t (last t + 1) (entropy.derive t (last t + 1))).Through entropy
      (Function.update last t (last t + 1)) where
  entropy_eq := by
    cases t with
    | generation => exact h.entropy_eq
    | symmetric => exact h.entropy_eq
  get?_eq t' i := by
    rw [byIndex_record]
    by_cases ht : t' = t
    · subst ht
      rw [if_pos rfl, get?_put, h.get?_eq, update_self]
      by_cases hi : i = last t' + 1
      · rw [if_pos hi, if_pos (by omega), hi]
      · have hle : i ≤ last t' ↔ i ≤ last t' + 1 := by omega
        simp [hi, hle]
    · rw [if_neg ht, h.get?_eq, update_of_ne ht]

theorem Through.mem_viewingKeys_iff [IterOrder] (h : b.Through entropy last) {key : ViewingKey D} :
    key ∈ b.viewingKeys ↔ ∃ t i, i ≤ last t ∧ key = entropy.derive t i := by
  have hvalues : ∀ t, key ∈ (b.byIndex t).values ↔ ∃ i, i ≤ last t ∧ key = entropy.derive t i := by
    intro t
    rw [mem_values]
    refine exists_congr fun i => ?_
    rw [h.get?_eq]
    by_cases hi : i ≤ last t
    · simp [hi, eq_comm]
    · simp [hi]
  rw [viewingKeys, mem_flatMap]
  simp only [IterOrder.mem_iter, mem_cons, not_mem_nil, or_false, exists_eq_or_imp, exists_eq_left]
  constructor
  · intro hkey
    cases hkey with
    | inl hgeneration => exact ⟨.generation, (hvalues .generation).mp hgeneration⟩
    | inr hsymmetric => exact ⟨.symmetric, (hvalues .symmetric).mp hsymmetric⟩
  · intro hkey
    obtain ⟨t, hkey⟩ := hkey
    cases t with
    | generation => exact Or.inl ((hvalues .generation).mpr hkey)
    | symmetric => exact Or.inr ((hvalues .symmetric).mpr hkey)

/-- There is a key for the lock script of each address of the book. -/
theorem Through.isSome_spendingKey [DecidableEq D] [IterOrder] (h : b.Through entropy last)
    {t : KeyType} {i : ℕ} (hi : i ≤ last t) :
    (b.spendingKey (entropy.derive t i).address.lockScriptHash).isSome = true := by
  rw [spendingKey, findSome?_isSome_iff]
  refine ⟨t, ?_, ?_⟩
  · rw [IterOrder.mem_iter]
    cases t <;> simp
  · rw [isSome_map, find?_isSome]
    have hget := h.get?_eq t i
    rw [if_pos hi, get?_eq_some_iff] at hget
    exact ⟨_, hget, by simp⟩

end AddressBook

/-! ## Coins that are found -/

namespace ChainScanner
variable {D : Type}

/-- Coins of the keys have a property, and the coins in the window have it. -/
structure Finds (P : Utxo D → Prop) (s : ChainScanner D) : Prop where
  keys : ∀ key ∈ s.keys, ∀ u : Utxo D, u.lockScriptHash = key.address.lockScriptHash → P u
  entries : ∀ e ∈ s.confirmingBlocks, ∀ u ∈ e.2, P u.utxo

variable [DecidableEq D] {u : IncomingUtxo D}

theorem lockScriptHash_of_mem_ownedBy {key : ViewingKey D} {utxos : List (Utxo D)}
    {senderRandomness : D} {firstLeaf : ℕ} {inclusionBlock : D × BlockHeight}
    (hu : u ∈ ownedBy key utxos senderRandomness firstLeaf inclusionBlock) :
    u.utxo.lockScriptHash = key.address.lockScriptHash := by
  obtain ⟨x, hx, rfl⟩ := mem_map.mp hu
  exact of_decide_eq_true (mem_filter.mp hx).2

variable [ConsensusOps D] [Tip5 D] [DigestOps D] [NoteOps D]

/-- A coin that is found in a block is locked to one of the keys. -/
theorem exists_key_of_scanBlock {keys : List (ViewingKey D)} {hash : D} {k : BlockKernel D}
    {found : List (IncomingUtxo D)} (h : scanBlock keys hash k = some found) (hu : u ∈ found) :
    ∃ key ∈ keys, u.utxo.lockScriptHash = key.address.lockScriptHash := by
  simp only [scanBlock, bind_eq_some, some_inj] at h
  obtain ⟨announced, hannounced, rewards, hrewards, rfl⟩ := h
  cases mem_append.mp hu with
  | inl hu =>
    rw [scanBlockForUtxos, ite_none_left_eq_some, some_inj] at hannounced
    rw [← hannounced.2] at hu
    obtain ⟨note, hnote, hfound⟩ := mem_filterMap.mp hu
    obtain ⟨i, -, rfl⟩ := map_eq_some_iff.mp hfound
    obtain ⟨key, hkey, hnote⟩ := mem_flatMap.mp hnote
    exact ⟨key, hkey, of_decide_eq_true (mem_filter.mp hnote).2⟩
  | inr hu =>
    simp only [scanBlockForGuesserUtxos, bind_eq_some, some_inj] at hrewards
    obtain ⟨guesserUtxos, -, rfl⟩ := hrewards
    obtain ⟨key, hkey, hu⟩ := mem_flatMap.mp hu
    exact ⟨key, hkey, lockScriptHash_of_mem_ownedBy hu⟩

variable [MmrOps D]

/-- A coin of the genesis block that is found is locked to one of the keys. -/
theorem exists_key_of_scanGenesis {keys : List (ViewingKey D)} {network : Network}
    {found : List (IncomingUtxo D)} (h : scanGenesis keys network = some found) (hu : u ∈ found) :
    ∃ key ∈ keys, u.utxo.lockScriptHash = key.address.lockScriptHash := by
  simp only [scanGenesis, bind_eq_some, ite_none_right_eq_some, some_inj] at h
  obtain ⟨_, -, _, -, _, -, -, rfl⟩ := h
  obtain ⟨key, hkey, hu⟩ := mem_flatMap.mp hu
  exact ⟨key, hkey, lockScriptHash_of_mem_ownedBy hu⟩

variable {P : Utxo D → Prop} {s s' : ChainScanner D}

omit [MmrOps D] in
theorem Finds.scans (h : s.Finds P) {bs : List (RpcWalletBlock D)}
    {entries : List (D × List (IncomingUtxo D))} (hscans : List.Forall₂ (Scans s.keys) bs entries)
    (n : ℕ) : ∀ e ∈ s.confirmingBlocks.take n ++ entries, ∀ u ∈ e.2, P u.utxo := by
  intro e he u hu
  cases mem_append.mp he with
  | inl he => exact h.entries e (mem_of_mem_take he) u hu
  | inr he =>
    obtain ⟨i, hi⟩ := mem_iff_getElem?.mp he
    obtain ⟨hlt, rfl⟩ := List.getElem?_eq_some_iff.mp hi
    have hscan := (forall₂_iff_get.mp hscans).2 i (hscans.length_eq ▸ hlt) hlt
    obtain ⟨key, hkey, hlock⟩ := exists_key_of_scanBlock hscan.2 hu
    exact h.keys key hkey _ hlock

theorem Finds.advance (h : s.Finds P) {batch : List (RpcWalletBlock D)}
    {outcome : Except (AdvanceError D) (List (IncomingUtxo D))}
    (hstart : (ChainScanner.advance batch).start s = some (outcome, s')) :
    s'.Finds P ∧ ∀ us, outcome = .ok us → ∀ u ∈ us, P u.utxo := by
  cases advanced_of_start hstart with
  | ignored =>
    refine ⟨h, fun us hus => ?_⟩
    cases hus
    simp
  | lost _ =>
    refine ⟨⟨h.keys, by simp [withBlocks]⟩, fun us hus => ?_⟩
    cases hus
  | broken _ hentries _ =>
    refine ⟨⟨h.keys, h.scans hentries _⟩, fun us hus => ?_⟩
    cases hus
  | @confirmed first rest n blocks entries genesis hgenesis _ hentries _ hblocks =>
    have hfound := h.scans hentries n
    rw [← hblocks] at hfound
    refine ⟨⟨h.keys, fun e he => hfound e (mem_of_mem_drop he)⟩, fun us hus u hu => ?_⟩
    cases hus
    cases mem_append.mp hu with
    | inl hu =>
      by_cases htip : s.tipHeight = .genesis
      · rw [if_pos htip] at hgenesis
        obtain ⟨key, hkey, hlock⟩ := exists_key_of_scanGenesis hgenesis hu
        exact h.keys key hkey _ hlock
      · rw [if_neg htip] at hgenesis
        cases hgenesis
        cases hu
    | inr hu =>
      obtain ⟨e, he, hu⟩ := mem_flatMap.mp hu
      exact hfound e (mem_of_mem_take he) u hu

end ChainScanner

/-! ## Coins of the pool -/

/-- The key belongs to the coin, which has a property. -/
def MonitoredUtxo.OwnedAs {D : Type} [Tip5 D] [ConsensusOps D] (P : Utxo D → Prop) (k : UtxoKey D)
    (u : MonitoredUtxo D) : Prop :=
  UtxoKey.new u = k ∧ P u.utxo

theorem MonitoredUtxo.OwnedAs.of_sameCoin {D : Type} [Tip5 D] [ConsensusOps D] {P : Utxo D → Prop}
    {k : UtxoKey D} {u v : MonitoredUtxo D} (h : u.OwnedAs P k) (huv : u.SameCoin v) :
    v.OwnedAs P k :=
  ⟨huv.key_eq ▸ h.1, huv.utxo ▸ h.2⟩

namespace UtxoPool
variable {D : Type} [DecidableEq D] [Tip5 D] [ConsensusOps D] {P : Utxo D → Prop}
  {pool pool' : UtxoPool D}

/-- The coins of the pool have a property. -/
def Owned (P : Utxo D → Prop) (pool : UtxoPool D) : Prop :=
  ∀ k u, pool.utxos.get? k = some u → u.OwnedAs P k

theorem owned_new : Owned P (new : UtxoPool D) := by
  intro k u h
  cases h

theorem Owned.insertUtxo (h : pool.Owned P) {u : MonitoredUtxo D} (hu : P u.utxo) :
    (pool.insertUtxo u).Owned P := by
  intro k v hv
  exact of_get?_insert hv ⟨rfl, hu⟩ fun _ => h k v

theorem Owned.foldl_insertUtxo (h : pool.Owned P) {us : List (MonitoredUtxo D)}
    (hus : ∀ u ∈ us, P u.utxo) : (us.foldl UtxoPool.insertUtxo pool).Owned P := by
  induction us generalizing pool with
  | nil => exact h
  | cons u us ih =>
    rw [forall_mem_cons] at hus
    exact ih (h.insertUtxo hus.1) hus.2

omit [Tip5 D] [ConsensusOps D] in
theorem utxo_of_finalizeWith {c : IncomingUtxo D × RpcMsMembershipProofPrivacyPreserving D}
    {u : MonitoredUtxo D} (h : (finalizeWith c).Returns u) : u.utxo = c.1.utxo := by
  simp only [finalizeWith, returns_bind, returns_orElse] at h
  obtain ⟨mp, -, h⟩ := h
  rw [IncomingUtxo.finalize, ite_none_right_eq_some, some_inj] at h
  rw [← h.2]

theorem Owned.addUtxos (h : pool.Owned P) {server : ProofServer D} {fuel request request' : ℕ}
    {utxos : List (IncomingUtxo D)} (hutxos : ∀ u ∈ utxos, P u.utxo)
    {added : List (UtxoKey D × MonitoredUtxo D)}
    (hadd : (pool.addUtxos server fuel request utxos).Returns (added, pool', request')) :
    pool'.Owned P ∧ ∀ e ∈ added, e.2.OwnedAs P e.1 := by
  rw [UtxoPool.addUtxos] at hadd
  by_cases hempty : utxos.isEmpty = true
  · rw [if_pos hempty, returns_pure] at hadd
    cases hadd
    exact ⟨h, by simp⟩
  · rw [if_neg hempty] at hadd
    simp only [returns_bind, returns_pure, Prod.exists, Prod.mk.injEq] at hadd
    obtain ⟨proofs, _, _, -, us, hus, rfl, rfl, -⟩ := hadd
    have howned : ∀ u ∈ us, P u.utxo := by
      intro u hu
      obtain ⟨c, hc, hfinal⟩ := exists_of_returns_mapM hus u hu
      rw [utxo_of_finalizeWith hfinal]
      exact hutxos _ (of_mem_zip hc).1
    refine ⟨h.foldl_insertUtxo howned, fun e he => ?_⟩
    obtain ⟨u, hu, rfl⟩ := mem_map.mp he
    exact ⟨rfl, howned u hu⟩

theorem Owned.importAll (h : pool.Owned P) {us : List (MonitoredUtxo D)}
    (hus : ∀ u ∈ us, P u.utxo) (hnew : ∀ u ∈ us, pool.utxos.get? (.new u) = none)
    (hnodup : (us.map UtxoKey.new).Nodup) :
    ∃ pool', Wallet.importAll pool us = some pool' ∧ pool'.Owned P := by
  induction us generalizing pool with
  | nil => exact ⟨pool, rfl, h⟩
  | cons u us ih =>
    rw [forall_mem_cons] at hus hnew
    rw [map_cons, nodup_cons] at hnodup
    have hfresh : ∀ v ∈ us, (pool.insertUtxo u).utxos.get? (.new v) = none := by
      intro v hv
      have hne : UtxoKey.new v ≠ .new u := by
        intro heq
        exact hnodup.1 (heq ▸ mem_map_of_mem hv)
      rw [UtxoPool.insertUtxo, get?_insert, if_neg hne, hnew.2 v hv]
    obtain ⟨pool', hpool', howned⟩ := ih (h.insertUtxo hus.1) hus.2 hfresh hnodup.2
    refine ⟨pool', ?_, howned⟩
    rw [Wallet.importAll, foldlM_cons]
    simp only [importUtxo, hnew.1, isNone_none, if_pos, some_bind]
    exact hpool'

end UtxoPool

open UtxoPool

/-! ## The wallet -/

/-- A coin is locked to a key up to some indices. -/
def LockedUpTo {D : Type} (entropy : WalletEntropy D) (last : KeyType → ℕ) (u : Utxo D) : Prop :=
  ∃ t i, i ≤ last t ∧ u.lockScriptHash = (entropy.derive t i).address.lockScriptHash

theorem LockedUpTo.mono {D : Type} {entropy : WalletEntropy D} {last last' : KeyType → ℕ}
    (hle : last ≤ last') {u : Utxo D} (h : LockedUpTo entropy last u) :
    LockedUpTo entropy last' u := by
  obtain ⟨t, i, hi, hlock⟩ := h
  exact ⟨t, i, hi.trans (hle t), hlock⟩

namespace Wallet
variable {D : Type} [DecidableEq D] [Tip5 D] [ConsensusOps D]

/-- The wallet has the keys up to some indices, and its coins are locked to them. -/
structure Owns (entropy : WalletEntropy D) (last : KeyType → ℕ) (w : Wallet D) : Prop where
  book : w.addresses.Through entropy last
  scanner : w.scanner.Finds (LockedUpTo entropy last)
  pool : w.utxos.Owned (LockedUpTo entropy last)

variable {entropy : WalletEntropy D} {last : KeyType → ℕ} {w w' : Wallet D}

theorem owns_newWithIndexes [IterOrder] (entropy : WalletEntropy D) (height : Option BlockHeight)
    (network : Network) (generationIndex symmetricIndex : ℕ) :
    (newWithIndexes entropy height network generationIndex symmetricIndex).Owns entropy
      (AddressBook.startIndices generationIndex symmetricIndex) := by
  have hbook := AddressBook.through_withAddressIndexes entropy generationIndex symmetricIndex
  refine ⟨hbook, ⟨fun key hkey u hlock => ?_, fun e he => ?_⟩, owned_new⟩
  · obtain ⟨t, i, hi, rfl⟩ := hbook.mem_viewingKeys_iff.mp hkey
    exact ⟨t, i, hi, hlock⟩
  · cases he

theorem Owns.withNextAddress (h : w.Owns entropy last) (t : KeyType) :
    (w.withNextAddress t).Owns entropy (Function.update last t (last t + 1)) := by
  have hle : last ≤ update last t (last t + 1) := by
    rw [le_update_iff]
    exact ⟨Nat.le_succ _, fun _ _ => le_rfl⟩
  have hnext := h.book.nextAddress_eq t
  refine ⟨?_, ⟨?_, ?_⟩, ?_⟩
  · rw [Wallet.withNextAddress, hnext]
    exact h.book.record t
  · intro key hkey u hlock
    rw [Wallet.withNextAddress, hnext] at hkey
    cases mem_append.mp hkey with
    | inl hkey => exact (h.scanner.keys key hkey u hlock).mono hle
    | inr hkey =>
      rw [mem_singleton.mp hkey] at hlock
      exact ⟨t, last t + 1, by rw [update_self], hlock⟩
  · intro e he u hu
    exact (h.scanner.entries e he u hu).mono hle
  · intro k u hu
    exact ⟨(h.pool k u hu).1, (h.pool k u hu).2.mono hle⟩

theorem Owns.pendingEvents_withNextAddress (h : w.Owns entropy last) (t : KeyType) :
    (w.withNextAddress t).pendingEvents = w.pendingEvents ++
      [.addressGenerated t (last t + 1) (entropy.derive t (last t + 1)).address] := by
  rw [Wallet.withNextAddress, h.book.nextAddress_eq]

section
variable [CoinOps D] [WalletOps D] [MmrOps D] [IterOrder]

/-- A transaction changes the indices as its change address does; the coins that are no longer there
were coins of the wallet. -/
theorem Owns.prepareTransaction {ε : Type} (h : w.Owns entropy last) {rpc : RpcAnswers D} {fuel : ℕ}
    {recipient : Address D} {amount fee : NativeCurrencyAmount} {timestamp : Timestamp}
    {outcome : Except ε (BuilderTransaction D)}
    (hstart : (Wallet.prepareTransaction rpc fuel recipient amount fee timestamp).start w =
      some (outcome, w')) :
    ∃ (transaction : BuilderTransaction D) (invalidated : List (UtxoKey D × MonitoredUtxo D)),
      outcome = .ok transaction ∧ transaction.outputs.map (·.recipient) =
        [recipient, (entropy.derive .symmetric (last .symmetric)).address] ∧
      w'.Owns entropy (Function.update last .symmetric (last .symmetric + 1)) ∧
      (∀ e ∈ invalidated, e.2.OwnedAs (LockedUpTo entropy last) e.1) ∧
      w'.pendingEvents = w.pendingEvents ++ (invalidated.map fun e => .utxoInvalidated e.1 e.2) ++
        [.addressGenerated .symmetric (last .symmetric + 1)
          (entropy.derive .symmetric (last .symmetric + 1)).address] := by
  obtain ⟨target, selection, pool, request, inputs, changeAddress, -, hselect, -, hchange, rfl,
    rfl⟩ :=
    exists_of_start_prepareTransaction hstart
  rw [h.book.latestAddress_eq, some_inj] at hchange
  obtain ⟨hpool, hinvalidated⟩ :=
    all_selectLoop (fun _ _ _ hsame howned => howned.of_sameCoin hsame) h.pool (by simp) hselect
  have hselected : (w.withSelection selection pool).Owns entropy last := ⟨h.book, h.scanner, hpool⟩
  refine ⟨_, selection.invalidatedUtxos, rfl, ?_, hselected.withNextAddress .symmetric,
    hinvalidated, hselected.pendingEvents_withNextAddress .symmetric⟩
  rw [hchange]
  rfl

end

section
variable [DigestOps D] [NoteOps D] [MmrOps D]

theorem Owns.syncChain (h : w.Owns entropy last) {rpc : RpcAnswers D} {fuel : ℕ}
    {networkHeight : BlockHeight} {outcome : Except (SyncError D) (Option (List (WalletEvent D)))}
    (hstart : (Wallet.syncChain rpc fuel networkHeight).start w = some (outcome, w')) :
    w'.Owns entropy last ∧ w'.pendingEvents = w.pendingEvents ∧
      ∀ chain, outcome = .ok chain → ∀ e ∈ chain.getD [],
        ∃ k u, e = .utxoReceived k u ∧ u.OwnedAs (LockedUpTo entropy last) k := by
  cases chainSynced_of_start hstart with
  | caughtUp _ =>
    refine ⟨h, rfl, fun chain hchain => ?_⟩
    cases hchain
    simp
  | refused _ _ =>
    refine ⟨h, rfl, fun chain hchain => ?_⟩
    cases hchain
  | received _ _ hreceived =>
    cases hreceived with
    | failed hadvance =>
      refine ⟨⟨h.book, (h.scanner.advance hadvance).1, h.pool⟩, rfl, fun chain hchain => ?_⟩
      cases hchain
    | added hadvance hadd =>
      obtain ⟨hscanner, hconfirmed⟩ := h.scanner.advance hadvance
      obtain ⟨hpool, hadded⟩ := h.pool.addUtxos (hconfirmed _ rfl) hadd
      refine ⟨⟨h.book, hscanner, hpool⟩, rfl, fun chain hchain e he => ?_⟩
      cases hchain
      obtain ⟨a, ha, rfl⟩ := mem_map.mp he
      exact ⟨a.1, a.2, rfl, hadded a ha⟩

end

end Wallet

end NyksNode
