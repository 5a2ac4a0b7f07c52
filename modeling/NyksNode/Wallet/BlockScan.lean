import NyksNode.Block.Symbolic
import NyksNode.Lib.FirstMatch
import NyksNode.Wallet.Output

/-!
# Scanning a block for received coins

A payment is announced in the transaction as a note to the recipient, public or encrypted.  The
wallet reads the notes that name one of its keys and looks up the output that each of them commits
to, by the first output with that commitment.

Equal outputs are different coins, with different places in the list of all commitments.  Since two
notes with one commitment find the same output, a scan is one-to-one only without them.

The ciphers and the codec of a UTXO are not part of the repository; `NoteOps` lists them.
-/

namespace NyksNode

open List Option

/-! ## Keys and notes -/

inductive KeyType where
  | generation
  | symmetric
  deriving DecidableEq, Repr

/-- `ViewingKey`, of either type. -/
structure ViewingKey (D : Type) where
  keyType : KeyType
  address : Address D
  privacyPreimage : D
  key : List BFieldElement
  deriving DecidableEq, Repr

structure UtxoContent (D : Type) where
  utxo : Utxo D
  senderRandomness : D
  deriving DecidableEq, Repr

inductive NoteContent (D : Type) where
  | utxo (content : UtxoContent D)
  deriving DecidableEq, Repr

inductive Note (D : Type) where
  | publicNote (receiverId : BFieldElement) (content : NoteContent D)
  | privateNote (receiverId : BFieldElement) (ciphertext : List BFieldElement)
  deriving DecidableEq, Repr

class NoteOps (D : Type) where
  decodeUtxoContent : List BFieldElement → Option (UtxoContent D)
  /-- The plaintext of a ciphertext, by the type and the secret of a viewing key. -/
  plaintext : KeyType → List BFieldElement → List BFieldElement → Option (List BFieldElement)
  addressOfBech32m : String → Network → Option (Address D)

section Notes
variable {D : Type} [NoteOps D]

def NoteContent.decode : List BFieldElement → Option (NoteContent D)
  | [] => none
  | discriminant :: rest =>
    if discriminant = 0 then (NoteOps.decodeUtxoContent rest).map .utxo else none

def Note.decode : List BFieldElement → Option (Note D)
  | tag :: receiverId :: rest =>
    if tag = 0 then (NoteContent.decode rest).map (.publicNote receiverId)
    else if tag = 1 then some (.privateNote receiverId rest)
    else none
  | _ => none

def ViewingKey.decrypt (key : ViewingKey D) (ciphertext : List BFieldElement) :
    Option (NoteContent D) := do
  let msg ← NoteOps.plaintext D key.keyType key.key ciphertext
  NoteContent.decode msg

end Notes

def Address.receiverIdentifier {D : Type} [ConsensusOps D] [DigestOps D] (a : Address D) :
    BFieldElement :=
  (DigestOps.values (ConsensusOps.hashVarlen (.digest a.privacyDigest))).headD 0

def extractReceiverIdentifier (announcement : Announcement) : Option BFieldElement :=
  announcement.message[1]?

/-! ## The coins of a block -/

structure IncomingUtxo (D : Type) where
  utxo : Utxo D
  senderRandomness : D
  receiverPreimage : D
  aoclLeafIndex : ℕ
  inclusionBlock : Option (D × BlockHeight)
  deriving DecidableEq, Repr

structure Allocations (D : Type) where
  network : Network
  entries : List (Address D × NativeCurrencyAmount)

def Network.id : Network → ℕ
  | main => 0
  | testnetMock => 1
  | regTest => 2
  | testnet i => 3 + i

section Commitments
variable {D : Type} [Tip5 D] [ConsensusOps D]

/-- The commitment of a note that was read: a UTXO, the sender randomness and the receiver
preimage. -/
def noteRecord (note : Utxo D × D × D) : AdditionRecord D :=
  commit (ConsensusOps.hashVarlen (.utxo note.1)) note.2.1 (digestHash note.2.2)

def IncomingUtxo.additionRecord (u : IncomingUtxo D) : AdditionRecord D :=
  noteRecord (u.utxo, u.senderRandomness, u.receiverPreimage)

namespace Allocations
variable [DigestOps D]

/-- `genesis`: the two addresses are literals of two networks. -/
def genesis [NoteOps D] (network : Network) : Option (Allocations D) := do
  let first ← NoteOps.addressOfBech32m ("nsymam1jcarsuxtz7fsyzmtpzjgpqzvunlu6d2h74vpagmxfxr5tehg" ++
    "nttaaph3tgyjf8qf20625w4tnqycqhzksw38rtcpqst69xsr9z9cxzv20t99yxvemk7le6h4r6nz95l9gvzkuk") .main
  let second ← NoteOps.addressOfBech32m ("nsymat1rge9uhc7mwqn82fwaw5nkrnj2vafsz9myntxk3vpe6deh00" ++
    "8h6qa3lwjghkktcx9j28zzqlcra7uek8gegt5pxfkghcunjafdepfpufkkumxwp4z257gxr8vajr3yqu0jtkfzy")
    (.testnet 0)
  some ⟨network, [(first, .coins 50000), (second, .coins 50000)]⟩

omit [Tip5 D] [DigestOps D] in
def utxos (a : Allocations D) : List (Utxo D) :=
  a.entries.map fun e => ⟨e.1.lockScriptHash, e.2.toNativeCoins⟩

def senderRandomness (a : Allocations D) : D := DigestOps.new [a.network.id, 0, 0, 0, 0]

def additionRecords (a : Allocations D) : List (AdditionRecord D) :=
  (a.entries.zip a.utxos).map fun x =>
    commit (ConsensusOps.hashVarlen (.utxo x.2)) a.senderRandomness x.1.1.privacyDigest

end Allocations

end Commitments

namespace ChainScanner
variable {D : Type}

def noteContent [NoteOps D] (key : ViewingKey D) : Note D → Option (NoteContent D)
  | .publicNote _ content => some content
  | .privateNote _ ciphertext => key.decrypt ciphertext

section Notes
variable [DecidableEq D] [ConsensusOps D] [DigestOps D] [NoteOps D]

/-- The notes to one key that it can read and spend. -/
def scanAnnouncementsFor (announcements : List Announcement) (key : ViewingKey D) :
    List (Utxo D × D × D) :=
  let receiverIdentifier := key.address.receiverIdentifier
  let addressed := announcements.filter fun a =>
    extractReceiverIdentifier a = some receiverIdentifier
  let notes : List (Note D) := addressed.filterMap fun a => Note.decode a.message
  let contents := notes.filterMap (noteContent key)
  let utxos := contents.map fun
    | .utxo c => (c.utxo, c.senderRandomness, key.privacyPreimage)
  utxos.filter fun x => x.1.lockScriptHash = key.address.lockScriptHash

def scanAnnouncements (keys : List (ViewingKey D)) (announcements : List Announcement) :
    List (Utxo D × D × D) :=
  keys.flatMap (scanAnnouncementsFor announcements)

variable [Tip5 D]

/-- `scan_block_for_utxos`.  The subtraction is on `u64`. -/
def scanBlockForUtxos (keys : List (ViewingKey D)) (hash : D) (blockKernel : BlockKernel D) :
    Option (List (IncomingUtxo D)) :=
  let transactionKernel := blockKernel.body.transactionKernel
  let outputsLen := transactionKernel.outputs.length
  let numLeafs := blockKernel.body.mutatorSetAccumulator.aocl.leafCount
  if numLeafs < outputsLen then none
  else
    let baseLeaf := numLeafs - outputsLen
    some ((scanAnnouncements keys transactionKernel.announcements).filterMap fun note =>
      (transactionKernel.outputs.idxOf? (noteRecord note)).map fun index =>
        ⟨note.1, note.2.1, note.2.2, baseLeaf + index, some (hash, blockKernel.header.height)⟩)

end Notes

section Rewards
variable [DecidableEq D] [ConsensusOps D]

/-- The coins among some UTXOs that a key can spend, which follow the first leaf. -/
def ownedBy (key : ViewingKey D) (utxos : List (Utxo D)) (senderRandomness : D) (firstLeaf : ℕ)
    (inclusionBlock : D × BlockHeight) : List (IncomingUtxo D) :=
  (utxos.zipIdx.filter fun x => x.1.lockScriptHash = key.address.lockScriptHash).map fun x =>
    ⟨x.1, senderRandomness, key.privacyPreimage, firstLeaf + x.2, some inclusionBlock⟩

variable [Tip5 D]

/-- `scan_block_for_guesser_utxos`.  The fee of the block must be valid. -/
def scanBlockForGuesserUtxos (keys : List (ViewingKey D)) (hash : D)
    (blockKernel : BlockKernel D) : Option (List (IncomingUtxo D)) := do
  let guesserUtxos ← blockKernel.guesserFeeUtxos.toOption
  let guesserBaseLeaf := blockKernel.body.mutatorSetAccumulator.aocl.leafCount
  some (keys.flatMap fun key =>
    ownedBy key guesserUtxos hash guesserBaseLeaf (hash, blockKernel.header.height))

variable [MmrOps D] [DigestOps D] [NoteOps D]

/-- `scan_genesis`.  The allocations must be the outputs of the genesis block. -/
def scanGenesis (keys : List (ViewingKey D)) (network : Network) :
    Option (List (IncomingUtxo D)) := do
  let block ← Block.genesis network
  let allocations ← Allocations.genesis network
  let additions ← (block.kernel.allAdditionRecords block.hash).toOption
  if allocations.additionRecords = additions then
    some (keys.flatMap fun key => ownedBy key allocations.utxos allocations.senderRandomness 0
      (block.hash, block.header.height))
  else none

/-- All coins that are found in a block with the given digest. -/
def scanBlock (keys : List (ViewingKey D)) (hash : D) (blockKernel : BlockKernel D) :
    Option (List (IncomingUtxo D)) := do
  let utxos ← scanBlockForUtxos keys hash blockKernel
  let guesserUtxos ← scanBlockForGuesserUtxos keys hash blockKernel
  some (utxos ++ guesserUtxos)

end Rewards

/-! ## Reading one announcement -/

section Reading
variable [DecidableEq D] [ConsensusOps D] [DigestOps D] [NoteOps D]

/-- What a key makes of one announcement. -/
def readNote (key : ViewingKey D) (a : Announcement) : Option (Utxo D × D × D) :=
  if extractReceiverIdentifier a = some key.address.receiverIdentifier then
    ((Note.decode a.message).bind (noteContent key)).bind fun
      | .utxo c =>
        if c.utxo.lockScriptHash = key.address.lockScriptHash then
          some (c.utxo, c.senderRandomness, key.privacyPreimage)
        else none
  else none

theorem scanAnnouncementsFor_eq (announcements : List Announcement) (key : ViewingKey D) :
    scanAnnouncementsFor announcements key = announcements.filterMap (readNote key) := by
  induction announcements with
  | nil => rfl
  | cons a as ih =>
    rw [filterMap_cons]
    simp only [scanAnnouncementsFor] at ih ⊢
    by_cases haddressed : extractReceiverIdentifier a = some key.address.receiverIdentifier
    · cases hnote : (Note.decode a.message : Option (Note D)) with
      | none => simp [readNote, haddressed, hnote, ih]
      | some note =>
        cases hcontent : noteContent key note with
        | none => simp [readNote, haddressed, hnote, hcontent, ih]
        | some content =>
          obtain ⟨c⟩ := content
          by_cases hlock : c.utxo.lockScriptHash = key.address.lockScriptHash
          · simp [readNote, haddressed, hnote, hcontent, hlock, ih]
          · simp [readNote, haddressed, hnote, hcontent, hlock, ih]
    · simp [readNote, haddressed, ih]

theorem scanAnnouncements_eq (keys : List (ViewingKey D)) (announcements : List Announcement) :
    scanAnnouncements keys announcements =
      keys.flatMap fun key => announcements.filterMap (readNote key) := by
  rw [scanAnnouncements]
  congr 1
  funext key
  exact scanAnnouncementsFor_eq announcements key

variable [Tip5 D]

/-- The commitment of the note that a key reads in an announcement. -/
def readRecord (key : ViewingKey D) (a : Announcement) : Option (AdditionRecord D) :=
  (readNote key a).map noteRecord

/-- A commitment is announced to one of the keys. -/
def Announced (keys : List (ViewingKey D)) (announcements : List Announcement)
    (r : AdditionRecord D) : Prop :=
  ∃ a ∈ announcements, ∃ key ∈ keys, readRecord key a = some r

def numAnnouncements (keys : List (ViewingKey D)) (announcements : List Announcement)
    (r : AdditionRecord D) : ℕ :=
  announcements.countP fun a => keys.any fun key => readRecord key a = some r

/-- The coins found are the announced outputs, each once, with the leaf indices they get if the
first output gets the given one. -/
structure OneToOne (keys : List (ViewingKey D)) (k : BlockKernel D) (firstLeaf : ℕ)
    (found : List (IncomingUtxo D)) : Prop where
  distinct : (found.map (·.aoclLeafIndex)).Nodup
  sound : ∀ u ∈ found, ∃ i, k.body.transactionKernel.outputs[i]? = some u.additionRecord ∧
    Announced keys k.body.transactionKernel.announcements u.additionRecord ∧
    u.aoclLeafIndex = firstLeaf + i
  complete : ∀ (i : ℕ) (r : AdditionRecord D), k.body.transactionKernel.outputs[i]? = some r →
    Announced keys k.body.transactionKernel.announcements r →
    ∃ u ∈ found, u.aoclLeafIndex = firstLeaf + i

/-- No announced output stands twice in the block, and no announcement of an output is read by two
keys. -/
structure Unambiguous (keys : List (ViewingKey D)) (k : BlockKernel D) : Prop where
  outputs : ∀ r ∈ k.body.transactionKernel.outputs,
    Announced keys k.body.transactionKernel.announcements r →
    k.body.transactionKernel.outputs.count r = 1
  readers : ∀ a ∈ k.body.transactionKernel.announcements, ∀ r ∈ k.body.transactionKernel.outputs,
    keys.countP (fun key => readRecord key a = some r) ≤ 1

theorem map_noteRecord_scanAnnouncements (keys : List (ViewingKey D))
    (announcements : List Announcement) : (scanAnnouncements keys announcements).map noteRecord =
      keys.flatMap fun key => announcements.filterMap (readRecord key) := by
  rw [scanAnnouncements_eq, map_flatMap]
  congr 1
  funext key
  exact map_filterMap

variable {keys : List (ViewingKey D)} {announcements : List Announcement} {r : AdditionRecord D}

theorem mem_records_iff :
    r ∈ (scanAnnouncements keys announcements).map noteRecord ↔ Announced keys announcements r := by
  rw [map_noteRecord_scanAnnouncements, mem_flatMap]
  constructor
  · intro h
    obtain ⟨key, hkey, hr⟩ := h
    obtain ⟨a, ha, hread⟩ := mem_filterMap.mp hr
    exact ⟨a, ha, key, hkey, hread⟩
  · intro h
    obtain ⟨a, ha, key, hkey, hread⟩ := h
    exact ⟨key, hkey, mem_filterMap.mpr ⟨a, ha, hread⟩⟩

section
variable {hash : D} {k : BlockKernel D} {found : List (IncomingUtxo D)}
  (h : scanBlockForUtxos keys hash k = some found)
include h

theorem map_aoclLeafIndex_of_scanBlockForUtxos : found.map (·.aoclLeafIndex) =
      (firstPlaces ((scanAnnouncements keys k.body.transactionKernel.announcements).map noteRecord)
        k.body.transactionKernel.outputs).map (k.body.mutatorSetAccumulator.aocl.leafCount -
          k.body.transactionKernel.outputs.length + ·) := by
  rw [scanBlockForUtxos, Option.ite_none_left_eq_some, Option.some_inj] at h
  rw [← h.2, firstPlaces, List.filterMap_map, List.map_filterMap, List.map_filterMap]
  congr 1
  funext note
  rw [Option.map_map]
  rfl

theorem sound_of_scanBlockForUtxos {u : IncomingUtxo D} (hu : u ∈ found) :
    ∃ i, k.body.transactionKernel.outputs[i]? = some u.additionRecord ∧
      Announced keys k.body.transactionKernel.announcements u.additionRecord ∧
      u.aoclLeafIndex = k.body.mutatorSetAccumulator.aocl.leafCount -
        k.body.transactionKernel.outputs.length + i := by
  rw [scanBlockForUtxos, ite_none_left_eq_some, some_inj] at h
  rw [← h.2] at hu
  obtain ⟨note, hnote, hfound⟩ := mem_filterMap.mp hu
  obtain ⟨i, hi, heq⟩ := map_eq_some_iff.mp hfound
  rw [← heq]
  exact ⟨i, getElem?_of_idxOf? hi, mem_records_iff.mp (mem_map_of_mem hnote), rfl⟩

end

/-- With one announcement for each announced output, no commitment is read twice exactly if no
announcement is read twice. -/
theorem count_records_le_one_iff (h : numAnnouncements keys announcements r ≤ 1) :
    ((scanAnnouncements keys announcements).map noteRecord).count r ≤ 1 ↔
      ∀ a ∈ announcements, keys.countP (fun key => readRecord key a = some r) ≤ 1 := by
  rw [map_noteRecord_scanAnnouncements, count_flatMap_filterMap]
  refine sum_le_one_iff_of_countP_le_one ?_
  refine le_trans (countP_mono_left fun a _ ha => ?_) h
  obtain ⟨key, hkey, hread⟩ := countP_pos_iff.mp (of_decide_eq_true ha)
  exact any_eq_true.mpr ⟨key, hkey, hread⟩

theorem numAnnouncements_pos_iff :
    0 < numAnnouncements keys announcements r ↔ Announced keys announcements r := by
  rw [numAnnouncements, countP_pos_iff]
  simp only [List.any_eq_true, decide_eq_true_eq]
  rfl

variable [Inhabited D]

/-- A scan is one-to-one exactly if no announced output stands twice in the block, and no
announcement of an output is read by two keys. -/
theorem scan_one_to_one_iff {keys : List (ViewingKey D)} {k : BlockKernel D} {L : Ledger D}
    {before : List D} (hash : D) (hbody : k.body.mutatorSetAccumulator = L.accumulator)
    (hL : L.commitments = before ++ k.body.transactionKernel.outputs.map (·.canonicalCommitment))
    (hmany : ∀ r ∈ k.body.transactionKernel.outputs,
      Announced keys k.body.transactionKernel.announcements r →
      numAnnouncements keys k.body.transactionKernel.announcements r =
        k.body.transactionKernel.outputs.count r) :
    ∃ found, scanBlockForUtxos keys hash k = some found ∧
      (OneToOne keys k before.length found ↔ Unambiguous keys k) := by
  have hcount : k.body.mutatorSetAccumulator.aocl.leafCount =
      before.length + k.body.transactionKernel.outputs.length := by
    rw [hbody, Ledger.aocl_accumulator]
    change L.commitments.length = _
    rw [hL, length_append, length_map]
  have hfound : ∃ found, scanBlockForUtxos keys hash k = some found := by
    rw [scanBlockForUtxos, if_neg (by omega)]
    exact ⟨_, rfl⟩
  obtain ⟨found, hfound⟩ := hfound
  refine ⟨found, hfound, ?_⟩
  have hbase : k.body.mutatorSetAccumulator.aocl.leafCount -
      k.body.transactionKernel.outputs.length = before.length := by
    omega
  have hleafs := map_aoclLeafIndex_of_scanBlockForUtxos hfound
  rw [hbase] at hleafs
  set outputs := k.body.transactionKernel.outputs
  set announcements := k.body.transactionKernel.announcements
  -- Both parts of the claim are facts about the first places of the commitments that are read.
  have hdistinct : (found.map (·.aoclLeafIndex)).Nodup ↔
      ∀ r ∈ outputs, ((scanAnnouncements keys announcements).map noteRecord).count r ≤ 1 := by
    rw [hleafs, nodup_map_iff (fun i j hij => by simpa using hij), nodup_firstPlaces_iff]
  have hcomplete : (∀ (i : ℕ) (r : AdditionRecord D), outputs[i]? = some r →
      Announced keys announcements r → ∃ u ∈ found, u.aoclLeafIndex = before.length + i) ↔
        ∀ r ∈ outputs, Announced keys announcements r → outputs.count r = 1 := by
    have hmem : ∀ i, (∃ u ∈ found, u.aoclLeafIndex = before.length + i) ↔
        i ∈ firstPlaces ((scanAnnouncements keys announcements).map noteRecord) outputs := by
      intro i
      rw [← List.mem_map, hleafs, List.mem_map]
      simp
    simp only [hmem, ← mem_records_iff]
    exact forall_mem_firstPlaces_iff
  have hone : ∀ r ∈ outputs, (Announced keys announcements r → outputs.count r = 1) →
      numAnnouncements keys announcements r ≤ 1 := by
    intro r hr hsingle
    by_cases hann : Announced keys announcements r
    · rw [hmany r hr hann, hsingle hann]
    · rw [← numAnnouncements_pos_iff] at hann
      omega
  constructor
  · intro h
    have hsingle := hcomplete.mp h.complete
    refine ⟨hsingle, fun a ha r hr => ?_⟩
    exact (count_records_le_one_iff (hone r hr (hsingle r hr))).mp
      (hdistinct.mp h.distinct r hr) a ha
  · intro h
    refine ⟨hdistinct.mpr fun r hr => ?_, fun u hu => ?_, hcomplete.mpr h.outputs⟩
    · exact (count_records_le_one_iff (hone r hr (h.outputs r hr))).mpr
        fun a ha => h.readers a ha r hr
    · have hsound := sound_of_scanBlockForUtxos hfound hu
      rwa [hbase] at hsound

end Reading

/-! ## A payment, once and twice -/

/-- A coin is encoded by three numbers, and a ciphertext starts with the secret that decrypts it. -/
instance : NoteOps SymbolicDigest where
  decodeUtxoContent
    | [lock, amount, randomness] =>
      some ⟨⟨.atom lock.val, [⟨ConsensusOps.nativeCurrencyHash, [amount]⟩]⟩, .atom randomness.val⟩
    | _ => none
  plaintext _ key ciphertext :=
    if ciphertext.take key.length = key then some (ciphertext.drop key.length) else none
  addressOfBech32m _ network := some ⟨.atom network.id, digestHash (.pair (.atom network.id) .zero)⟩

namespace Payment

def key : ViewingKey SymbolicDigest :=
  ⟨.symmetric, ⟨.atom 5, digestHash (.atom 7)⟩, .atom 7, [11]⟩

def announcement (amount : BFieldElement) : Announcement :=
  ⟨[1, key.address.receiverIdentifier, 11, 0, 5, amount, 9]⟩

def record (amount : BFieldElement) : AdditionRecord SymbolicDigest :=
  noteRecord (⟨.atom 5, [⟨ConsensusOps.nativeCurrencyHash, [amount]⟩]⟩, .atom 9, .atom 7)

def ledger (amounts : List BFieldElement) (h : amounts.length < u64Bound) : Ledger SymbolicDigest :=
  ⟨amounts.map fun a => (record a).canonicalCommitment, 0, by rwa [length_map], by simp⟩

/-- A block that pays some amounts, with a note for each payment. -/
def kernel (amounts : List BFieldElement) (h : amounts.length < u64Bound) :
    BlockKernel SymbolicDigest where
  header := .genesis .main
  body :=
    { transactionKernel :=
        { inputs := []
          outputs := amounts.map record
          announcements := amounts.map announcement
          fee := .coins 0
          coinbase := none
          timestamp := .millis 0
          mutatorSetHash := .zero
          mergeBit := true }
      mutatorSetAccumulator := (ledger amounts h).accumulator
      lockFreeMmrAccumulator := .empty
      blockMmrAccumulator := .empty }
  appendix := ⟨[]⟩

def twice : BlockKernel SymbolicDigest := kernel [100, 100] (by decide)

end Payment

open Payment

/-- Payments of two amounts are both found. -/
theorem scan_one_to_one_different :
    ∃ found, scanBlockForUtxos [Payment.key] .zero (Payment.kernel [100, 200] (by decide)) =
        some found ∧ OneToOne [Payment.key] (Payment.kernel [100, 200] (by decide)) 0 found := by
  have hcounts : ∀ r ∈ [100, 200].map record,
      numAnnouncements [key] ([100, 200].map announcement) r = 1 ∧
        ([100, 200].map record).count r = 1 := by
    decide +kernel
  obtain ⟨found, hfound, hiff⟩ := scan_one_to_one_iff
    (show SymbolicDigest from .zero)
    (show (kernel [100, 200] (by decide)).body.mutatorSetAccumulator =
      (ledger [100, 200] (by decide)).accumulator from rfl)
    (show (ledger [100, 200] (by decide)).commitments = [] ++ _ from rfl)
    (fun r hr _ => (hcounts r hr).1.trans (hcounts r hr).2.symm)
  refine ⟨found, hfound, hiff.mpr ⟨fun r hr _ => (hcounts r hr).2, ?_⟩⟩
  intro a _ r _
  exact countP_le_length

/-- Two equal payments are found at the same place, and one of them is missed. -/
theorem scan_twice_not_one_to_one :
    (∀ r ∈ Payment.twice.body.transactionKernel.outputs,
        numAnnouncements [Payment.key] Payment.twice.body.transactionKernel.announcements r =
        Payment.twice.body.transactionKernel.outputs.count r) ∧
      ∃ found, scanBlockForUtxos [Payment.key] .zero Payment.twice = some found ∧
        found.map (·.aoclLeafIndex) = [0, 0] ∧
        ¬ OneToOne [Payment.key] Payment.twice 0 found := by
  constructor
  · decide +kernel
  · have hfound : ∃ found, scanBlockForUtxos [key] .zero twice = some found ∧
        found.map (·.aoclLeafIndex) = [0, 0] := by
      decide +kernel
    obtain ⟨found, hscan, hleafs⟩ := hfound
    refine ⟨found, hscan, hleafs, fun h => ?_⟩
    have hdistinct := h.distinct
    rw [hleafs] at hdistinct
    exact absurd hdistinct (by decide)

end ChainScanner

end NyksNode
