import NyksNode.Block.Network
import NyksNode.Lib.Fold
import NyksNode.P2p.Multiaddr

/-!
# The address book

What the node remembers about peers it has met: where they listen, what they speak, when they were
seen, and how many dials have failed since.  The peers are scored when the book is pruned and when
peers to dial are picked; a peer that was last seen before it was first seen makes the scoring
panic.
-/

namespace NyksNode.P2p

structure Peer where
  listenAddresses : List Multiaddr
  agentVersion : String
  protocolVersion : String
  supportedProtocols : List String
  firstSeen : SystemTime
  lastSeen : SystemTime
  failCount : UInt32

/-- `PeerScore`, compared field after field. -/
structure PeerScore where
  recent : Bool
  failCountInverse : ℕ
  totalLifespan : ℕ
  deriving DecidableEq

namespace PeerScore

/-- `from_peer`.  The clock is read for each peer anew; a peer that was last seen before it was
first seen is a panic. -/
def fromPeer (now : SystemTime) (peer : Peer) : Option PeerScore :=
  let tenMinutesAgo := if 600 ≤ now then now - 600 else now
  if peer.firstSeen ≤ peer.lastSeen then
    some
      { recent := decide (tenMinutesAgo ≤ peer.lastSeen)
        failCountInverse := 2 ^ 32 - 1 - peer.failCount.toNat
        totalLifespan := peer.lastSeen - peer.firstSeen }
  else none

def le (s t : PeerScore) : Bool :=
  if s.recent ≠ t.recent then t.recent
  else if s.failCountInverse ≠ t.failCountInverse then
    s.failCountInverse ≤ t.failCountInverse
  else s.totalLifespan ≤ t.totalLifespan

end PeerScore

structure AddressBook where
  book : AssocMap PeerId Peer
  network : Network

/-- What a peer says about itself, and the size of that with the listen addresses that are kept. -/
structure IdentifyInfo where
  protocolVersion : String
  agentVersion : String
  listenAddrs : List Multiaddr
  protocols : List String
  observedAddr : Multiaddr
  size : List Multiaddr → ℕ

/-- The clock during an update of the book: when the times of the peer are set, and when each peer
is scored. -/
structure ClockReadings where
  firstSeen : SystemTime
  lastSeen : SystemTime
  score : PeerId → SystemTime

namespace AddressBook
variable [IterOrder]

/-- `ADDRESS_BOOK_MAX_SIZE`. -/
def maxSize : ℕ := 1000

def get? (book : AddressBook) (peer : PeerId) : Option Peer := book.book.get? peer

def modify (book : AddressBook) (peer : PeerId) (f : Peer → Peer) : AddressBook :=
  match book.book.get? peer with
  | some p => { book with book := book.book.insert peer (f p) }
  | none => book

def insertOrUpdate (book : AddressBook) (peer : PeerId) (info : IdentifyInfo)
    (clock : ClockReadings) : AddressBook :=
  if 100 < info.listenAddrs.length || 100 < info.protocols.length then book
  else
    let listenAddresses := info.listenAddrs.filter fun address => address.all Protocol.isListed
    if listenAddresses.isEmpty then book
    else if 4096 < info.size listenAddresses then book
    else
      match book.book.get? peer with
      | some p =>
        { book with
          book := book.book.insert peer
            { p with
              listenAddresses := listenAddresses
              agentVersion := info.agentVersion
              protocolVersion := info.protocolVersion
              supportedProtocols := info.protocols
              lastSeen := clock.lastSeen } }
      | none =>
        { book with
          book := book.book.insert peer
            { listenAddresses := listenAddresses
              agentVersion := info.agentVersion
              protocolVersion := info.protocolVersion
              supportedProtocols := info.protocols
              firstSeen := clock.firstSeen
              lastSeen := clock.lastSeen
              failCount := 0 } }

/-- The entries with their scores, the best one first. -/
def scored (book : AddressBook) (clock : PeerId → SystemTime) :
    Option (List (PeerScore × PeerId × Peer)) := do
  let scores ← (IterOrder.iter book.book.entries).mapM fun e => do
    let score ← PeerScore.fromPeer (clock e.1) e.2
    some (score, e)
  some (scores.mergeSort fun s t => t.1.le s.1)

def pruneToLength (book : AddressBook) (targetLength : ℕ) (clock : PeerId → SystemTime) :
    Option AddressBook :=
  if book.book.length ≤ targetLength then some book
  else do
    let scores ← book.scored clock
    let kept := (scores.take targetLength).map (·.2.1)
    some { book with
      book := book.book.keys.foldl
        (fun entries peer => if peer ∈ kept then entries else entries.erase peer) book.book }

/-- `bump_fail_count`, without the count it returns. -/
def bumpFailCount (book : AddressBook) (peer : PeerId) : AddressBook :=
  book.modify peer fun p =>
    { p with failCount := if p.failCount.toNat + 1 < 2 ^ 32 then p.failCount + 1 else p.failCount }

def resetFailCount (book : AddressBook) (peer : PeerId) : AddressBook :=
  book.modify peer fun p => { p with failCount := 0 }

def hardcodedBootstrapNodes : Network → List Multiaddr
  | .main => [[.ip4 .localhost, .tcp 9899]]
  | _ => []

def selectInitialPeers (book : AddressBook) (limit : ℕ) (clock : PeerId → SystemTime) :
    Option (List Multiaddr) := do
  let scores ← book.scored clock
  some ((scores.take limit).flatMap (fun s => s.2.2.listenAddresses) ++
    hardcodedBootstrapNodes book.network)

end AddressBook

/-! ## Pruning -/

open List Option

/-- The documented order: peers of the current version first, then peers seen in the last ten
minutes, then the peers that were seen first. -/
def Precedes (currentVersion : String) (clock : PeerId → SystemTime) (e f : PeerId × Peer) :
    Prop :=
  let version (e : PeerId × Peer) : Bool := e.2.protocolVersion == currentVersion
  let recent (e : PeerId × Peer) : Bool := clock e.1 ≤ e.2.lastSeen + 600
  version f < version e ∨ version f = version e ∧
    (recent f < recent e ∨ recent f = recent e ∧ e.2.firstSeen < f.2.firstSeen)

/-- Recently seen peers first, then the peers that failed less often, then those with the longer
time between their first and their last activity. -/
def Outscores (clock : PeerId → SystemTime) (e f : PeerId × Peer) : Prop :=
  let recent (e : PeerId × Peer) : Bool :=
    (if 600 ≤ clock e.1 then clock e.1 - 600 else clock e.1) ≤ e.2.lastSeen
  let lifespan (e : PeerId × Peer) : ℕ := e.2.lastSeen - e.2.firstSeen
  recent f < recent e ∨ recent f = recent e ∧
    (e.2.failCount < f.2.failCount ∨ e.2.failCount = f.2.failCount ∧ lifespan f < lifespan e)

theorem PeerScore.isSome_fromPeer {now : SystemTime} {p : Peer} :
    (PeerScore.fromPeer now p).isSome = true ↔ p.firstSeen ≤ p.lastSeen := by
  rw [PeerScore.fromPeer]
  split_ifs with h <;> simp [h]

theorem PeerScore.le_total (s t : PeerScore) : s.le t || t.le s := by
  grind [PeerScore.le]

theorem PeerScore.le_trans (s t u : PeerScore) (hst : s.le t = true) (htu : t.le u = true) :
    s.le u = true := by
  grind [PeerScore.le]

theorem outscores_iff {clock : PeerId → SystemTime} {e f : PeerId × Peer} {s t : PeerScore}
    (he : PeerScore.fromPeer (clock e.1) e.2 = some s)
    (hf : PeerScore.fromPeer (clock f.1) f.2 = some t) : Outscores clock e f ↔ s.le t = false := by
  simp only [PeerScore.fromPeer, Option.ite_none_right_eq_some, Option.some_inj] at he hf
  obtain ⟨-, rfl⟩ := he
  obtain ⟨-, rfl⟩ := hf
  have hfail := e.2.failCount.toNat_lt
  have hfail' := f.2.failCount.toNat_lt
  simp only [Outscores, PeerScore.le, UInt32.lt_iff_toNat_lt, ← UInt32.toNat_inj]
  generalize decide ((if 600 ≤ clock e.1 then _ else _) ≤ e.2.lastSeen) = recent
  generalize decide ((if 600 ≤ clock f.1 then _ else _) ≤ f.2.lastSeen) = recent'
  cases recent <;> cases recent' <;> simp <;> grind

namespace AddressBook

section
variable [IterOrder] {book : AddressBook} {n : ℕ} {clock : PeerId → SystemTime}
  {scores : List (PeerScore × PeerId × Peer)}

/-- Scoring panics at a peer that was last seen before it was first seen. -/
theorem isSome_scored : (book.scored clock).isSome = true ↔
    ∀ e ∈ book.book.entries, e.2.firstSeen ≤ e.2.lastSeen := by
  simp [scored, isSome_bind, isSome_mapM_iff, PeerScore.isSome_fromPeer]

theorem isSome_scored_of_pruneToLength {book' : AddressBook} (hn : n < book.book.length)
    (h : book.pruneToLength n clock = some book') : (book.scored clock).isSome = true := by
  rw [pruneToLength, if_neg hn.not_ge] at h
  obtain ⟨scores, hscores, -⟩ := Option.bind_eq_some_iff.mp h
  exact isSome_of_eq_some hscores

/-- The peers are scored as they are listed, and then sorted. -/
theorem exists_of_scored (h : book.scored clock = some scores) :
    ∃ ss : List (PeerScore × PeerId × Peer), ss.mergeSort (fun s t => t.1.le s.1) = scores ∧
      ss.map (·.2) = IterOrder.iter book.book.entries ∧
      ∀ s ∈ ss, PeerScore.fromPeer (clock s.2.1) s.2.2 = some s.1 := by
  simp only [scored, bind_eq_bind, bind_eq_some_iff, some_inj] at h
  obtain ⟨ss, hss, rfl⟩ := h
  refine ⟨ss, rfl, ?_, fun s hs => ?_⟩
  · have hmap : List.Forall₂ Eq (IterOrder.iter book.book.entries) (ss.map (·.2)) :=
      List.forall₂_map_right_iff.mpr ((forall₂_of_mapM hss).imp fun e s hs => by
        obtain ⟨score, -, hscore⟩ := Option.bind_eq_some_iff.mp hs
        cases hscore
        rfl)
    rw [forall₂_eq_eq_eq] at hmap
    exact hmap.symm
  · obtain ⟨e, -, he⟩ := exists_of_mem_mapM hss hs
    obtain ⟨score, hscore, heq⟩ := Option.bind_eq_some_iff.mp he
    cases heq
    exact hscore

/-- The scores are those of the entries, and sorted. -/
theorem scores_of_scored (h : book.scored clock = some scores) :
    scores.Pairwise (fun s t => t.1.le s.1 = true) ∧
      ∀ s ∈ scores, PeerScore.fromPeer (clock s.2.1) s.2.2 = some s.1 := by
  obtain ⟨ss, rfl, -, hss⟩ := exists_of_scored h
  exact ⟨pairwise_mergeSort (fun s t u hst htu => PeerScore.le_trans u.1 t.1 s.1 htu hst)
    (fun s t => PeerScore.le_total t.1 s.1) ss, fun s hs => hss s (mem_mergeSort.mp hs)⟩

theorem entries_of_scored (h : book.scored clock = some scores) :
    (scores.map (·.2)).Perm book.book.entries := by
  obtain ⟨ss, rfl, hss, -⟩ := exists_of_scored h
  exact ((mergeSort_perm _ _).map _).trans (hss ▸ IterOrder.iter_perm _)

omit [IterOrder] in
theorem get?_retain (kept : List PeerId) (m : AssocMap PeerId Peer) (k : PeerId) :
    (m.keys.foldl (fun m k => if k ∈ kept then m else m.erase k) m).get? k =
      if k ∈ kept then m.get? k else none := by
  have hfold : ∀ keys : List PeerId,
      (keys.foldl (fun m k => if k ∈ kept then m else m.erase k) m).get? k =
        if k ∈ kept ∨ k ∉ keys then m.get? k else none := by
    intro keys
    induction keys generalizing m with
    | nil => simp
    | cons k' keys ih =>
      rw [foldl_cons, ih]
      by_cases hk : k = k' <;> by_cases hkept : k' ∈ kept <;> simp [hk, hkept, AssocMap.get?_erase]
  rw [hfold]
  by_cases hkey : k ∈ m.keys
  · simp [hkey]
  · simp [hkey, show m.get? k = none by simpa [AssocMap.mem_keys] using hkey]

theorem nodup_of_scored (h : book.scored clock = some scores) : (scores.map (·.2)).Nodup :=
  (entries_of_scored h).nodup_iff.mpr (.of_map _ book.book.nodup_keys)

theorem entries_pruneToLength (hn : n < book.book.length) (h : book.scored clock = some scores) :
    ∃ book', book.pruneToLength n clock = some book' ∧
      book'.book.entries.Perm ((scores.take n).map (·.2)) := by
  have hperm := entries_of_scored h
  have hsub : ((scores.take n).map (·.2)).Sublist (scores.map (·.2)) :=
    (take_sublist _ _).map _
  rw [pruneToLength, if_neg (by omega), h]
  refine ⟨_, rfl, (perm_ext_iff_of_nodup (.of_map _ (AssocMap.nodup_keys _))
    ((nodup_of_scored h).sublist hsub)).mpr fun e => ?_⟩
  rw [← AssocMap.get?_eq_some_iff, get?_retain, ite_none_right_eq_some, AssocMap.get?_eq_some_iff]
  constructor
  · rintro ⟨hkept, he⟩
    obtain ⟨s, hs, hse⟩ := List.mem_map.mp hkept
    have hmem : s.2 ∈ book.book.entries := hperm.mem_iff.mp (hsub.subset (mem_map_of_mem hs))
    exact List.mem_map.mpr ⟨s, hs, inj_on_of_nodup_map book.book.nodup_keys hmem he hse⟩
  · intro he
    obtain ⟨s, hs, rfl⟩ := List.mem_map.mp he
    exact ⟨List.mem_map.mpr ⟨s, hs, rfl⟩, hperm.mem_iff.mp (hsub.subset he)⟩

/-- Of two entries that the scores do not order the other way, the first one listed comes first. -/
theorem sublist_of_scored (h : book.scored clock = some scores) {k e : PeerId × Peer}
    {t u : PeerScore} (hk : PeerScore.fromPeer (clock k.1) k.2 = some t)
    (he : PeerScore.fromPeer (clock e.1) e.2 = some u) (hle : u.le t = true)
    (hlisted : [k, e] <+ IterOrder.iter book.book.entries) : [(t, k), (u, e)] <+ scores := by
  obtain ⟨ss, rfl, hmap, hss⟩ := exists_of_scored h
  refine pair_sublist_mergeSort (fun s t u hst htu => PeerScore.le_trans u.1 t.1 s.1 htu hst)
    (fun s t => PeerScore.le_total t.1 s.1) hle ?_
  obtain ⟨l, hl, hkeys⟩ := sublist_map_iff.mp (hmap.symm ▸ hlisted)
  obtain ⟨⟨t', k'⟩, l', rfl, rfl, hl'⟩ := map_eq_cons_iff.mp hkeys.symm
  obtain ⟨⟨u', e'⟩, l'', rfl, rfl, hnil⟩ := map_eq_cons_iff.mp hl'
  cases map_eq_nil_iff.mp hnil
  have ht' := hss _ (hl.subset mem_cons_self)
  have hu' := hss _ (hl.subset (mem_cons_of_mem _ mem_cons_self))
  rw [hk, some_inj] at ht'
  rw [he, some_inj] at hu'
  rw [ht', hu']
  exact hl

/-- Pruning returns a book of the right length with entries of the old one, and no entry that is
left out precedes one that is kept. -/
def KeepsBest (book : AddressBook) (currentVersion : String) (clock : PeerId → SystemTime)
    (n : ℕ) : Prop :=
  ∃ book', book.pruneToLength n clock = some book' ∧
    book'.book.length = min n book.book.length ∧
    (∀ e ∈ book'.book.entries, e ∈ book.book.entries) ∧
    ∀ kept ∈ book'.book.entries, ∀ e ∈ book.book.entries, e ∉ book'.book.entries →
      ¬ Precedes currentVersion clock e kept

/-- The entries that are kept are the first ones by their scores. -/
theorem keepsBest_iff {currentVersion : String} (hn : n < book.book.length)
    (h : book.scored clock = some scores) : book.KeepsBest currentVersion clock n ↔
      ∀ s ∈ scores.take n, ∀ t ∈ scores.drop n, ¬ Precedes currentVersion clock t.2 s.2 := by
  obtain ⟨book', hprune, hbook'⟩ := entries_pruneToLength hn h
  have hperm := entries_of_scored h
  have hlength : book'.book.length = min n book.book.length := by
    rw [AssocMap.length, hbook'.length_eq, length_map, length_take, AssocMap.length,
      ← hperm.length_eq, length_map]
  have hnodup := nodup_of_scored h
  have hdisjoint : ((scores.take n).map (·.2)).Disjoint ((scores.drop n).map (·.2)) := by
    rw [← take_append_drop n scores, map_append] at hnodup
    exact disjoint_of_nodup_append hnodup
  simp only [KeepsBest, hprune, some_inj, exists_eq_left', hlength, hbook'.mem_iff,
    ← hperm.mem_iff, List.forall_mem_map, true_and]
  constructor
  · rintro ⟨-, hbest⟩ s hs t ht
    exact hbest s hs t (mem_of_mem_drop ht) fun hkept => hdisjoint hkept (mem_map_of_mem ht)
  · refine fun hbest => ⟨fun s hs => mem_map_of_mem (mem_of_mem_take hs), ?_⟩
    intro s hs t ht hnot
    rw [← take_append_drop n scores, mem_append] at ht
    exact hbest s hs t (ht.resolve_left fun h => hnot (mem_map_of_mem h))

end

/-- Some order of a map lists the first of two entries before the second. -/
theorem exists_order_sublist {α : Type} {entries : List α} {k e : α} (hk : k ∈ entries)
    (he : e ∈ entries) (hne : k ≠ e) : ∃ order : IterOrder, [k, e] <+ order.iter entries := by
  obtain ⟨l, r, rfl⟩ := append_of_mem hk
  have hmem : e ∈ l ∨ e ∈ r := by simpa [hne.symm] using he
  rcases hmem with h | h
  · exact ⟨⟨reverse, reverse_perm⟩, by simp [h]⟩
  · refine ⟨.asKept, ?_⟩
    change [k, e] <+ l ++ k :: r
    simp [h]

end AddressBook

end NyksNode.P2p
