import NyksNode.Block.Data
import NyksNode.Crypto.Symbolic

/-!
# Blocks with symbolic digests

Digests as terms can also stand for the digests of blocks: a value is hashed to the term
of its fields, tagged with its type.  Numbers and field elements of a digest are read off
its term.
-/

namespace NyksNode.SymbolicDigest

def ofList (ds : List SymbolicDigest) : SymbolicDigest := ds.foldr pair zero

def ofNats (ns : List ℕ) : SymbolicDigest := ofList (ns.map atom)

def tagged (tag : ℕ) (ds : List SymbolicDigest) : SymbolicDigest := pair (atom tag) (ofList ds)

def ofFieldElements (vs : List BFieldElement) : SymbolicDigest := ofNats (vs.map (·.val))

def ofInt (z : ℤ) : SymbolicDigest := pair (atom (if z < 0 then 1 else 0)) (atom z.natAbs)

def ofMmr (m : MmrAccumulator SymbolicDigest) : SymbolicDigest :=
  pair (atom m.leafCount) (ofList m.peaks)

def ofRemovalRecord (rr : RemovalRecord SymbolicDigest) : SymbolicDigest :=
  pair (ofNats rr.absoluteIndices.toArray) (ofList (rr.targetChunks.dictionary.map fun e =>
    ofList [atom e.1, ofList e.2.1, ofNats e.2.2.relativeIndices]))

def ofCoin (c : Coin SymbolicDigest) : SymbolicDigest :=
  pair c.typeScriptHash (ofFieldElements c.state)

def ofClaim (c : Claim SymbolicDigest) : SymbolicDigest :=
  ofList [c.programDigest, ofFieldElements c.input, ofFieldElements c.output]

def ofProof : BlockProof → SymbolicDigest
  | .genesis => atom 0
  | .invalid => atom 1
  | .singleProof p => pair (atom 2) (ofFieldElements p.proof)

def ofValue : EncodedValue SymbolicDigest → SymbolicDigest
  | .digest d => tagged 0 [d]
  | .digests ds => tagged 1 ds
  | .fieldElement v => tagged 2 [atom v.val]
  | .boolean b => tagged 3 [atom b.toNat]
  | .pow p => tagged 4 [p.root, ofList p.pathA.toList, ofList p.pathB.toList, p.nonce]
  | .proofOfWork p => tagged 5 [ofNats p.limbs.digits]
  | .difficulty d => tagged 6 [ofNats d.limbs.digits]
  | .guesserReceiverData g => tagged 7 [g.receiverDigest, g.lockScriptHash]
  | .inputs rrs => tagged 8 (rrs.map ofRemovalRecord)
  | .outputs rs => tagged 9 (rs.map (·.canonicalCommitment))
  | .announcements as => tagged 10 (as.map fun a => ofFieldElements a.message)
  | .amount a => tagged 11 [ofInt a.nau]
  | .coinbase a => tagged 12 (a.toList.map fun a => ofInt a.nau)
  | .mutatorSetAccumulator A =>
    tagged 13 [ofMmr A.aocl, ofMmr A.swbfInactive, ofNats A.swbfActive.sbf]
  | .mmrAccumulator m => tagged 14 [ofMmr m]
  | .appendix a => tagged 15 (a.claims.map ofClaim)
  | .claim c => tagged 16 [ofClaim c]
  | .proof p => tagged 17 [ofProof p]
  | .utxo u => tagged 18 (u.lockScriptHash :: u.coins.map ofCoin)

/-- The number of a digest.  Odd factors keep the parity of both sides visible. -/
def number : SymbolicDigest → ℕ
  | zero => 0
  | atom n => n
  | pair left right => 3 * left.number + 5 * right.number + 1
  | chunk is => is.sum + 2
  | activeWindow is => is.sum + 3
  | leafCount n => n + 4

instance : DigestOps SymbolicDigest where
  new vs := if vs.all (· = 0) then zero else ofNats vs
  ofHex s := atom (s.toList.foldl (fun n c => 256 * n + c.toNat) 0)
  values d := (List.range 5).map fun i => .new (d.number / 2 ^ i)
  le d e := d.number ≤ e.number
  toBigUint := number
  ofBigUint n := some (atom n)

/-- Every proof verifies, and a block is as long as its lists. -/
instance : ConsensusOps SymbolicDigest where
  hashVarlen := ofValue
  encodeAmount a := [.new a.nau.natAbs]
  encodedLength b := b.body.transactionKernel.inputs.length +
    b.body.transactionKernel.outputs.length + b.body.transactionKernel.announcements.length
  nativeCurrencyHash := atom 1
  singleProofHash := atom 2
  blockProgramHash := atom 3
  verify _ _ _ := true

end NyksNode.SymbolicDigest

namespace NyksNode

/-- A record without chunks and with these distances from its lowest index. -/
def recordOfDistances (distances : List ℕ) (h : distances.length = numTrials) :
    RemovalRecord SymbolicDigest :=
  ⟨⟨0, distances, h⟩, .empty⟩

def zeroThenOnes : RemovalRecord SymbolicDigest :=
  recordOfDistances (0 :: List.replicate 44 1) (by decide)

end NyksNode
