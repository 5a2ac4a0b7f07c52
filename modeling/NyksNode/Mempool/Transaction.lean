import Mathlib.Order.Extension.Linear
import NyksNode.Block.Symbolic

/-!
# Transactions

A transaction is a kernel with a proof, which is either one proof or a collection of
proofs.  Its id leaves out what an update to a newer mutator set changes, so the
inputs enter it through their index sets only, in sorted order.
-/

namespace NyksNode

open List

variable {D : Type}

/-! ## Proofs -/

structure ProofCollection (D : Type) where
  removalRecordsIntegrity : NyksProof
  collectLockScripts : NyksProof
  lockScriptsHalt : List NyksProof
  kernelToOutputs : NyksProof
  collectTypeScripts : NyksProof
  typeScriptsHalt : List NyksProof
  lockScriptHashes : List D
  typeScriptHashes : List D
  kernelMastHash : D
  saltedInputsHash : D
  saltedOutputsHash : D
  mergeBitMastPath : List D
  deriving DecidableEq, Repr

inductive TransactionProof (D : Type) where
  | singleProof (proof : NyksProof)
  | proofCollection (collection : ProofCollection D)
  deriving DecidableEq, Repr

namespace TransactionProof

def isSingleProof : TransactionProof D → Bool
  | singleProof _ => true
  | proofCollection _ => false

def asSingleProof : TransactionProof D → Option NyksProof
  | singleProof proof => some proof
  | proofCollection _ => none

end TransactionProof

structure Transaction (D : Type) where
  kernel : TransactionKernel D
  proof : TransactionProof D
  deriving DecidableEq, Repr

/-- Functions of the hash function. -/
class TransactionOps (D : Type) where
  /-- `Tip5::hash` of an index set. -/
  hashIndexSet : AbsoluteIndexSet → D
  /-- `Tip5::hash_varlen` of a message. -/
  hashMessage : List BFieldElement → D

/-- No two inputs of one hash function collide. -/
class TransactionOps.CollisionFree (D : Type) [ConsensusOps D] [TransactionOps D] : Prop where
  hashIndexSet_injective : Function.Injective (TransactionOps.hashIndexSet : AbsoluteIndexSet → D)
  hashDigests_injective :
    Function.Injective fun ds : List D => ConsensusOps.hashVarlen (.digests ds)
  hashMessage_injective : Function.Injective (TransactionOps.hashMessage : List BFieldElement → D)
  hashAmount_injective : Function.Injective fun a => (ConsensusOps.hashVarlen (.amount a) : D)
  hashCoinbase_injective : Function.Injective fun a => (ConsensusOps.hashVarlen (.coinbase a) : D)

/-! ## Kernels -/

namespace TransactionKernel

/-- The inputs of a transaction, without the proofs that updates change. -/
def indexSets (k : TransactionKernel D) : List AbsoluteIndexSet := k.inputs.map (·.absoluteIndices)

section
variable [Tip5 D] [ConsensusOps D] [DigestOps D] [TransactionOps D]

open ConsensusOps (hashVarlen)

/-- The digests of the index sets, in sorted order. -/
def indexSetHash (k : TransactionKernel D) : D :=
  hashVarlen (.digests ((k.indexSets.map TransactionOps.hashIndexSet).insertionSort
    fun a b => DigestOps.le a b = true))

def outputHash (k : TransactionKernel D) : D :=
  hashVarlen (.digests (k.outputs.map (·.canonicalCommitment)))

def announcementsHash (k : TransactionKernel D) : D :=
  hashVarlen (.digests (k.announcements.map fun a => TransactionOps.hashMessage a.message))

def txidLeafs (k : TransactionKernel D) : List D :=
  [k.indexSetHash, k.outputHash, k.announcementsHash, hashVarlen (.amount k.fee),
    hashVarlen (.coinbase k.coinbase), hashVarlen (.boolean k.mergeBit)]

def txid (k : TransactionKernel D) : D := mastRoot 3 k.txidLeafs

theorem mastRow_eq_of_txid_eq [Tip5.CollisionFree D] {k k' : TransactionKernel D}
    (h : k.txid = k'.txid) (i : Fin 8) : mastRow k.txidLeafs i = mastRow k'.txidLeafs i :=
  Merkle.eq_of_node_eq _ Tip5.CollisionFree.hashPair_injective (t := 3) (k := 0) h (by simp)
    (by simp)

theorem perm_of_txid_eq [Tip5.CollisionFree D] [TransactionOps.CollisionFree D]
    {k k' : TransactionKernel D} (h : k.txid = k'.txid) : k.indexSets.Perm k'.indexSets := by
  have hsorted := TransactionOps.CollisionFree.hashDigests_injective
    (show k.indexSetHash = k'.indexSetHash from mastRow_eq_of_txid_eq h 0)
  have hperm := (perm_insertionSort (fun a b : D => DigestOps.le a b = true)
    (k.indexSets.map TransactionOps.hashIndexSet)).symm
  rw [hsorted] at hperm
  have hmap := hperm.trans (perm_insertionSort _ _)
  exact (map_perm_map_iff TransactionOps.CollisionFree.hashIndexSet_injective).mp hmap

omit [Tip5 D] in
/-- The digests are sorted, so the order of the inputs does not matter. -/
theorem indexSetHash_eq_of_perm [IsLinearOrder D fun a b : D => DigestOps.le a b = true]
    {k k' : TransactionKernel D} (h : k.indexSets.Perm k'.indexSets) :
    k.indexSetHash = k'.indexSetHash := by
  let r : D → D → Prop := fun a b => DigestOps.le a b = true
  have hperm := ((perm_insertionSort r _).trans (h.map TransactionOps.hashIndexSet)).trans
    (perm_insertionSort r _).symm
  rw [indexSetHash, indexSetHash,
    Perm.eq_of_pairwise' (pairwise_insertionSort r _) (pairwise_insertionSort r _) hperm]

/-- **Transaction ids.**  An update keeps the id, whatever it does to the proofs and to the order of
the inputs, and the id determines the rest. -/
theorem txid_stable_and_binding [IsLinearOrder D fun a b : D => DigestOps.le a b = true]
    (k : TransactionKernel D) :
    (∀ inputs mutatorSetHash timestamp, (inputs.map (·.absoluteIndices)).Perm k.indexSets →
      txid { k with inputs, mutatorSetHash, timestamp } = k.txid) ∧
    (Tip5.CollisionFree D → TransactionOps.CollisionFree D →
      ∀ k' : TransactionKernel D, k.txid = k'.txid →
        k.indexSets.Perm k'.indexSets ∧ k.outputs = k'.outputs ∧
          k.announcements = k'.announcements ∧ k.fee = k'.fee ∧ k.coinbase = k'.coinbase) := by
  constructor
  · intro inputs mutatorSetHash timestamp hperm
    have hsets := indexSetHash_eq_of_perm
      (k := { k with inputs, mutatorSetHash, timestamp }) hperm
    simp only [txid, txidLeafs, hsets]
    rfl
  · intro _ hfree k' h
    have houts : k.outputHash = k'.outputHash := mastRow_eq_of_txid_eq h 1
    have hanns : k.announcementsHash = k'.announcementsHash := mastRow_eq_of_txid_eq h 2
    refine ⟨perm_of_txid_eq h, ?_, ?_, hfree.hashAmount_injective (mastRow_eq_of_txid_eq h 3),
      hfree.hashCoinbase_injective (mastRow_eq_of_txid_eq h 4)⟩
    · refine map_injective_iff.mpr ?_ (hfree.hashDigests_injective houts)
      rintro ⟨c⟩ ⟨c'⟩ rfl
      rfl
    · refine map_injective_iff.mpr ?_ (hfree.hashDigests_injective hanns)
      rintro ⟨m⟩ ⟨m'⟩ hm
      exact congrArg _ (hfree.hashMessage_injective hm)

end

def haveMergeRelationship [DecidableEq D] (output input : TransactionKernel D) : Bool :=
  if !output.mergeBit then false
  else if output.inputs.length < input.inputs.length then false
  else if output.outputs.length < input.outputs.length then false
  else if output.announcements.length < input.announcements.length then false
  else if output.timestamp < input.timestamp then false
  else if output.inputs.length = input.inputs.length ∧
      output.outputs.length = input.outputs.length ∧
      output.announcements.length = input.announcements.length then false
  else input.outputs.all (fun r => r ∈ output.outputs) &&
    input.inputs.all (fun rr => rr.absoluteIndices ∈ output.indexSets) &&
    input.announcements.all (fun a => a ∈ output.announcements)

/-- What the first list has more than once, the second has as often. -/
def KeepsRepeated {α : Type} [DecidableEq α] (l l' : List α) : Prop :=
  ∀ a, 2 ≤ l.count a → l.count a ≤ l'.count a

theorem le_iff_keepsRepeated {α : Type} [DecidableEq α] {l l' : List α} (h : l ⊆ l') :
    (l : Multiset α) ≤ l' ↔ KeepsRepeated l l' := by
  rw [Multiset.le_iff_count]
  simp only [Multiset.coe_count]
  refine ⟨fun hle a _ => hle a, fun hkeeps a => ?_⟩
  by_cases htwo : 2 ≤ l.count a
  · exact hkeeps a htwo
  · by_cases hmem : a ∈ l
    · have := count_pos_iff.mpr (h hmem)
      omega
    · simp [count_eq_zero_of_not_mem hmem]

/-- **When a detected merge contains its input.**  The check compares sets, so what the input
repeats has to be repeated as often. -/
theorem haveMergeRelationship_contains_iff [DecidableEq D] (output input : TransactionKernel D) :
    (haveMergeRelationship output input = true →
      (input.indexSets : Multiset AbsoluteIndexSet) ≤ output.indexSets ∧
      (input.outputs : Multiset (AdditionRecord D)) ≤ output.outputs ∧
      (input.announcements : Multiset Announcement) ≤ output.announcements) ↔
    (haveMergeRelationship output input = true → KeepsRepeated input.indexSets output.indexSets ∧
      KeepsRepeated input.outputs output.outputs ∧
      KeepsRepeated input.announcements output.announcements) := by
  refine imp_congr_right fun hmerge => ?_
  unfold haveMergeRelationship at hmerge
  split_ifs at hmerge
  simp only [Bool.and_eq_true, all_eq_true, decide_eq_true_eq] at hmerge
  have hsets : input.indexSets ⊆ output.indexSets := by
    intro s hs
    obtain ⟨rr, hrr, rfl⟩ := mem_map.mp hs
    exact hmerge.1.2 rr hrr
  exact and_congr (le_iff_keepsRepeated hsets) (and_congr (le_iff_keepsRepeated hmerge.1.1)
    (le_iff_keepsRepeated hmerge.2))

end TransactionKernel

/-! ## Symbolic digests -/

namespace SymbolicDigest

instance : TransactionOps SymbolicDigest where
  hashIndexSet s := pair (atom s.minimum) (ofNats s.distances)
  hashMessage m := tagged 19 [ofFieldElements m]

theorem ofList_injective : Function.Injective ofList := by
  intro ds es h
  induction ds generalizing es with
  | nil =>
    cases es with
    | nil => rfl
    | cons e es => cases h
  | cons d ds ih =>
    cases es with
    | nil => cases h
    | cons e es =>
      obtain ⟨rfl, htail⟩ := pair.inj h
      rw [ih htail]

theorem ofNats_injective : Function.Injective ofNats :=
  fun _ _ h => map_injective_iff.mpr (fun _ _ => atom.inj) (ofList_injective h)

theorem ofInt_injective : Function.Injective ofInt := by
  intro y z h
  obtain ⟨hsign, habs⟩ := pair.inj h
  have hsign := atom.inj hsign
  have habs := atom.inj habs
  split_ifs at hsign <;> omega

instance : TransactionOps.CollisionFree SymbolicDigest where
  hashIndexSet_injective := by
    rintro ⟨m, ds, _⟩ ⟨m', ds', _⟩ h
    obtain ⟨hm, hds⟩ := pair.inj h
    obtain rfl := atom.inj hm
    obtain rfl := ofNats_injective hds
    rfl
  hashDigests_injective := fun _ _ h => ofList_injective (pair.inj h).2
  hashMessage_injective _ _ h :=
    map_injective_iff.mpr (fun _ _ => Fin.ext) (ofNats_injective (pair.inj (pair.inj h).2).1)
  hashAmount_injective := by
    rintro ⟨a⟩ ⟨b⟩ h
    exact congrArg _ (ofInt_injective (pair.inj (pair.inj h).2).1)
  hashCoinbase_injective := by
    intro a b h
    have hterms := ofList_injective (pair.inj h).2
    rcases a with _ | ⟨a⟩ <;> rcases b with _ | ⟨b⟩ <;> simp at hterms ⊢
    exact congrArg NativeCurrencyAmount.mk (ofInt_injective hterms)

def announcing (mergeBit : Bool) (announcements : List Announcement) :
    TransactionKernel SymbolicDigest :=
  ⟨[], [], announcements, ⟨0⟩, none, ⟨0⟩, zero, mergeBit⟩

/-- An announcement that stands twice is kept once. -/
theorem haveMergeRelationship_drops : (announcing true [⟨[1]⟩, ⟨[2]⟩, ⟨[2]⟩]).haveMergeRelationship
        (announcing false [⟨[1]⟩, ⟨[1]⟩]) = true ∧
      ¬ ((announcing false [⟨[1]⟩, ⟨[1]⟩]).announcements : Multiset Announcement) ≤
        (announcing true [⟨[1]⟩, ⟨[2]⟩, ⟨[2]⟩]).announcements := by
  decide +kernel

theorem txid_stable_swap : ∃ (_ : DigestOps SymbolicDigest) (k : TransactionKernel SymbolicDigest),
      k.inputs.reverse ≠ k.inputs ∧
        { k with inputs := k.inputs.reverse, timestamp := ⟨5⟩ }.txid = k.txid := by
  classical
  have : IsPartialOrder SymbolicDigest Eq :=
    { refl := Eq.refl, trans := fun _ _ _ => Eq.trans, antisymm := fun _ _ h _ => h }
  obtain ⟨r, hr, -⟩ := extend_partialOrder (Eq (α := SymbolicDigest))
  let ops : DigestOps SymbolicDigest :=
    { (inferInstance : DigestOps SymbolicDigest) with le := fun a b => decide (r a b) }
  have hle : (fun a b => decide (r a b) = true) = r := by simp
  have : IsLinearOrder SymbolicDigest fun a b => DigestOps.le a b = true := hle ▸ hr
  let input (n : ℕ) : RemovalRecord SymbolicDigest :=
    ⟨⟨n, replicate numTrials 0, length_replicate⟩, ⟨[]⟩⟩
  let k := { announcing false [] with inputs := [input 0, input 1] }
  refine ⟨ops, k, by simp [k, input], ?_⟩
  exact k.txid_stable_and_binding.1 k.inputs.reverse k.mutatorSetHash ⟨5⟩ (.swap _ _ _)

end SymbolicDigest

end NyksNode
