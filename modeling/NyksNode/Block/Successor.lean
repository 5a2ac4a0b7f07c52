import NyksNode.Block.Symbolic
import NyksNode.Block.Validate
import NyksNode.Packing.Unpacking

/-!
# Empty blocks

The block on top of another one that has neither inputs nor outputs.
-/

namespace NyksNode

open Fallible

variable {D : Type} [Tip5 D]

theorem RemovalRecordList.tryUnpack_nil [MmrIndexing] :
    RemovalRecordList.tryUnpack ([] : List (RemovalRecord D)) = some (.ok []) := by
  have hpeaks : MmrIndexing.getPeakHeights 0 = [] := by
    rw [MmrIndexing.getPeakHeights_eq]
    rfl
  have hempty : ascending ([] : List ℕ) = [] := rfl
  have hvalues : (AssocMap.empty : AssocMap (ℕ × ℕ) D).values = [] := rfl
  simp [tryUnpack, decodeFromVec, decodeEntries, observedChunkIndicesFromIndexSets,
    estimateNumLeafsAocl, validateConsistency, observedChunkIndices, chunkIndicesBelow,
    convertToVec, hpeaks, hempty, hvalues, aoclToSwbfiLeafCounts, activeWindowStart, u64Bound,
    batchSize]

namespace Block
variable [ConsensusOps D] [DigestOps D] [MmrOps D]

def emptyTransaction (timestamp : Timestamp) (mutatorSetHash : D) : TransactionKernel D where
  inputs := []
  outputs := []
  announcements := []
  fee := .coins 0
  coinbase := none
  timestamp := timestamp
  mutatorSetHash := mutatorSetHash
  mergeBit := false

/-- The block on top of `P` that leaves the mutator set as it is, but for the guesser fee. -/
def emptySuccessor (P : Block D) (A : MutatorSetAccumulator D) (blockMmr : MmrAccumulator D)
    (timestamp : Timestamp) (difficulty : Difficulty) : Block D :=
  let body : BlockBody D := ⟨emptyTransaction timestamp A.hash, A, .empty, blockMmr⟩
  { kernel :=
      { header :=
          { version := 0
            height := P.header.height.next
            prevBlockDigest := P.hash
            timestamp := timestamp
            pow := P.header.pow
            cumulativeProofOfWork := P.header.cumulativeProofOfWork.add difficulty
            difficulty := difficulty
            guesserReceiverData := P.header.guesserReceiverData }
        body := body
        appendix := ⟨consensusClaims body .launch⟩ }
    proof := .singleProof ⟨[]⟩ }

theorem isSome_genesis : (genesis .main : Option (Block SymbolicDigest)).isSome = true := by
  decide +kernel

/-- An empty block, with these inputs put in. -/
def spend (B : Block SymbolicDigest) (inputs : List (RemovalRecord SymbolicDigest)) :
    Block SymbolicDigest :=
  let A := B.body.mutatorSetAccumulator
  let body := { B.body with
    transactionKernel := { B.body.transactionKernel with inputs := inputs }
    mutatorSetAccumulator := (inputs.foldlM MutatorSetAccumulator.remove A).getD A }
  { B with kernel := { B.kernel with body := body, appendix := ⟨consensusClaims body .launch⟩ } }

/-! ## Empty blocks on a mock network -/

namespace Mock

def genesis : Block SymbolicDigest := (Block.genesis .testnetMock).get (by decide +kernel)

/-- An empty block on top of a chain, late enough for the difficulty to be reset. -/
def child (ancestors : List (Block SymbolicDigest)) (parent : Block SymbolicDigest) (delay : ℕ) :
    Block SymbolicDigest :=
  parent.emptySuccessor
    (parent.mutatorSetAccumulatorAfter.unwrap.getD parent.body.mutatorSetAccumulator)
    (.ofLeafs ((ancestors ++ [parent]).map Block.hash))
    (parent.header.timestamp + .millis (768000 + delay)) parent.header.difficulty

def first : Block SymbolicDigest := child [] genesis 0

def second : Block SymbolicDigest := child [genesis] first 0

end Mock

end Block

end NyksNode
