import NyksNode.Block.Data
import NyksNode.Lib.BitReverse
import NyksNode.Lib.Fallible

/-!
# Proof-of-work

A guesser builds a Merkle tree over leafs that depend on the previous block.  A solution
opens the tree at two indices that depend on everything else in the block, and the
digest of the block that holds the solution is below the target.

The guesser computes all leafs at once, layer by layer in two buffers, and stores them in
bit-reversed order; a verifier recomputes the two leafs that were opened.
-/

namespace NyksNode

open Fallible

variable {D : Type} [Tip5 D]

/-! ## The tree -/

/-- `MTree`: `internalNodes[1]` is the root, and node `i` has the children `2 * i` and
`2 * i + 1`. -/
structure MTree (D : Type) where
  leafs : List D
  internalNodes : List D
  deriving DecidableEq, Repr

namespace MTree

/-- `merkle_zip`, and `par_merkle_zip`: overwrite parents as long as there are children. -/
def merkleZip : List D → List D → List D
  | _ :: parents, a :: b :: children => Tip5.hashPair a b :: merkleZip parents children
  | parents, _ => parents

/-- `merkle_zip` on the slice `nodes[start..stop]`. -/
def zipSlice (nodes : List D) (start stop : ℕ) (children : List D) : List D :=
  nodes.take start ++ merkleZip ((nodes.take stop).drop start) children ++ nodes.drop stop

/-- One of the layers that connect internal nodes to internal nodes. -/
def zipLayer (height : ℕ) (internalNodes : List D) (layer : ℕ) : List D :=
  let parentsStart := 2 ^ (height - 1 - layer)
  let midPoint := 2 ^ (height - layer)
  zipSlice internalNodes parentsStart midPoint (internalNodes.drop midPoint)

/-- `build_inplace`.  It panics on a tree without layers, and if the nodes do not fit. -/
def buildInplace (leafs internalNodes : List D) : Option (MTree D) :=
  let height := Nat.log2 leafs.length
  if height = 0 ∨ internalNodes.length < 2 ^ height then none
  else
    -- the first layer connects the leafs to the internal nodes, so special
    let internalNodes := zipSlice internalNodes (2 ^ (height - 1)) (2 ^ height) leafs
    -- the layers of the parallel and of the sequential loop
    some ⟨leafs, (List.range' 1 (height - 1)).foldl (zipLayer height) internalNodes⟩

def root (t : MTree D) : D := (t.internalNodes[1]?).getD Tip5.zeroDigest

/-- The loop of `path`. -/
def ascend (t : MTree D) : ℕ → ℕ → Option (List D)
  | 0, _ => some []
  | rounds + 1, runningIndex => do
    let runningIndex := runningIndex >>> 1
    let sibling ← t.internalNodes[runningIndex ^^^ 1]?
    let path ← t.ascend rounds runningIndex
    some (sibling :: path)

def path (t : MTree D) (index : ℕ) : Option (List D) := do
  let sibling ← t.leafs[index ^^^ 1]?
  let path ← t.ascend (Nat.log2 t.leafs.length - 1) (index + t.leafs.length)
  some (sibling :: path)

def climb : ℕ → D → List D → D
  | _, running, [] => running
  | index, running, sibling :: path =>
    climb (index >>> 1)
      (if index &&& 1 = 1 then Tip5.hashPair sibling running else Tip5.hashPair running sibling)
      path

/-- `verify`.  The bound on the index is not strict. -/
def verify [DecidableEq D] (root : D) (index : ℕ) (path : List D) (element : D) : Bool :=
  if 1 <<< path.length < index then false else climb index element path = root

end MTree

/-! ## Paths to the digest of a block -/

structure PowMastPaths (D : Type) where
  pow : Vector D 3
  header : Vector D 2
  kernel : Vector D 1
  deriving DecidableEq, Repr

namespace PowMastPaths
variable [ConsensusOps D]

open ConsensusOps (hashVarlen)

def commit (p : PowMastPaths D) : D :=
  hashVarlen (.digests (p.pow.toList ++ p.header.toList ++ p.kernel.toList))

def fastMastHash {merkleTreeHeight : ℕ} (p : PowMastPaths D) (pow : Pow D merkleTreeHeight) : D :=
  let headerMastHash := Tip5.hashPair (hashVarlen (.pow pow)) p.pow[0]
  let headerMastHash := Tip5.hashPair headerMastHash p.pow[1]
  let headerMastHash := Tip5.hashPair p.pow[2] headerMastHash
  let kernelMastHash := Tip5.hashPair (hashVarlen (.digest headerMastHash)) p.header[0]
  let kernelMastHash := Tip5.hashPair kernelMastHash p.header[1]
  Tip5.hashPair (hashVarlen (.digest kernelMastHash)) p.kernel[0]

end PowMastPaths

def Block.powMastPaths [ConsensusOps D] (b : Block D) : PowMastPaths D where
  pow := mastPath 3 b.header.mastLeafs 4
  header := mastPath 2 b.kernel.mastLeafs 0
  kernel := mastPath 1 b.mastLeafs 0

/-! ## Leafs and indices -/

inductive PowValidationError where
  | pathAInvalid
  | pathBInvalid
  | thresholdNotMet
  deriving DecidableEq, Repr

/-- `GuesserBuffer`: what a guesser keeps in memory, independent of the nonce. -/
structure GuesserBuffer (D : Type) (merkleTreeHeight : ℕ) where
  merkleTree : MTree D
  prevBlockDigest : D

def GuesserBuffer.indexPickerPreimage {merkleTreeHeight : ℕ} [ConsensusOps D]
    (buffer : GuesserBuffer D merkleTreeHeight) (mastAuthPaths : PowMastPaths D) : D :=
  Tip5.hashPair buffer.merkleTree.root mastAuthPaths.commit

namespace Pow

def numIndexRepetitions : ℕ := 63

def numBudLayers : ℕ := 5

def budsPerLeaf : ℕ := 2 ^ numBudLayers

/-- `bitreverse`, on 32-bit words; the subtraction panics on larger logarithms. -/
def bitreverse (k log2n : ℕ) : Option ℕ :=
  if 32 < log2n then none
  else
    let k := exchange 1 0x55555555 0xaaaaaaaa k
    let k := exchange 2 0x33333333 0xcccccccc k
    let k := exchange 4 0x0f0f0f0f 0xf0f0f0f0 k
    let k := exchange 8 0x00ff00ff 0xff00ff00 k
    -- `rotate_right(16)`
    let k := (k >>> 16) ||| ((k <<< 16) % u32Bound)
    some (k >>> ((32 - log2n) &&& 0x1f))

def swapIndices (len : ℕ) : Option (List (Option ℕ)) :=
  (List.range len).mapM fun k => do
    let revK ← bitreverse (k % u32Bound) (Nat.log2 len)
    some (if k % u32Bound < revK then some revK else none)

section
variable [DigestOps D] (merkleTreeHeight : ℕ)

def numLeafs : ℕ := 2 ^ merkleTreeHeight

def bud (commitment : D) (index : ℕ) : D :=
  Tip5.hashPair commitment (DigestOps.new [index, 0, 0, 0, 0])

def leaf (commitment : D) (index : ℕ) : Option D := do
  let buds := (List.range budsPerLeaf).map fun i =>
    bud commitment ((index + i) % numLeafs merkleTreeHeight)
  let tree ← MTree.buildInplace buds buds
  some tree.root

def indices (hash nonce : D) : ℕ × ℕ :=
  let indexer := (fun d => Tip5.hashPair d Tip5.zeroDigest)^[numIndexRepetitions - 1]
    (Tip5.hashPair hash nonce)
  (((DigestOps.values indexer).getD 0 0).val % 2 ^ merkleTreeHeight,
    ((DigestOps.values indexer).getD 1 0).val % 2 ^ merkleTreeHeight)

end

/-! ## Guessing -/

section

/-- One layer of leafs, from the layer below. -/
def budLayer (numLeafs i : ℕ) (buds : List D) : Option (List D) :=
  (List.range numLeafs).mapM fun k => do
    let left ← buds[k]?
    let right ← buds[(k + 2 ^ i) % numLeafs]?
    some (Tip5.hashPair left right)

/-- The two buffers of `preprocess`, which of them `buds` refers to, and the number of times that
`buds` and `resulting_leafs` were swapped. -/
structure Buffers (D : Type) where
  ins : List D
  outs : List D
  budsAreIns : Bool
  numSwaps : ℕ

namespace Buffers

/-- `std::mem::swap(&mut resulting_leafs, &mut buds)`. -/
def swap (b : Buffers D) : Buffers D :=
  { b with budsAreIns := !b.budsAreIns, numSwaps := b.numSwaps + 1 }

/-- One round of the loop over the layers. -/
def round (numLeafs : ℕ) (b : Buffers D) (i : ℕ) : Option (Buffers D) :=
  if b.budsAreIns then do
    let outs ← budLayer numLeafs i b.ins
    some (swap { b with outs })
  else do
    let ins ← budLayer numLeafs i b.outs
    some (swap { b with ins })

end Buffers

/-- One round of the loop over the swaps: a position, and the one it is swapped with. -/
def swapRound (leafs : List D) (swap : Option ℕ × ℕ) : Option (List D) :=
  match swap.1 with
  | some revK => swapAt leafs swap.2 revK
  | none => some leafs

variable [DigestOps D] (merkleTreeHeight : ℕ)

def preprocess (prevBlockDigest : D) : Option (GuesserBuffer D merkleTreeHeight) := do
  let ins := (List.range (numLeafs merkleTreeHeight)).map (bud prevBlockDigest)
  let buffers ← (List.range numBudLayers).foldlM (Buffers.round (numLeafs merkleTreeHeight))
    ⟨ins, ins, true, 0⟩
  let buffers := buffers.swap
  let (leafs, internalNodes) :=
    if buffers.numSwaps &&& 1 = 1 then (buffers.ins, buffers.outs) else (buffers.outs, buffers.ins)
  let swaps ← swapIndices leafs.length
  let leafs ← swaps.zipIdx.foldlM swapRound leafs
  let merkleTree ← MTree.buildInplace leafs internalNodes
  some ⟨merkleTree, prevBlockDigest⟩

end

variable {merkleTreeHeight : ℕ} [DigestOps D] [ConsensusOps D]

/-- `try_into` from a vector to an array of the given length. -/
def toArrayOf (path : List D) : Option (Vector D merkleTreeHeight) :=
  if h : path.length = merkleTreeHeight then some ⟨path.toArray, h⟩ else none

/-- `guess`: whether the block with this nonce meets the target; `none` is a panic.  A digest
is above the target if it is not at most the target. -/
def guess (buffer : GuesserBuffer D merkleTreeHeight) (mastAuthPaths : PowMastPaths D)
    (indexPickerPreimage nonce target : D) : Option (Option (Pow D merkleTreeHeight)) := do
  let (indexA, indexB) := indices merkleTreeHeight indexPickerPreimage nonce
  let pathA ← buffer.merkleTree.path indexA
  let pathA ← toArrayOf pathA
  let pathB ← buffer.merkleTree.path indexB
  let pathB ← toArrayOf pathB
  let pow : Pow D merkleTreeHeight := ⟨buffer.merkleTree.root, pathA, pathB, nonce⟩
  some (if DigestOps.le (mastAuthPaths.fastMastHash pow) target then some pow else none)

/-- The leaf at an index of the tree; an index of more than 32 bits panics. -/
def leafAt (merkleTreeHeight : ℕ) (parentDigest : D) (index : ℕ) : Option D := do
  if u32Bound ≤ index then none
  else do
    let index ← bitreverse index merkleTreeHeight
    leaf merkleTreeHeight parentDigest index

def validate [DecidableEq D] (p : Pow D merkleTreeHeight) (authPaths : PowMastPaths D)
    (target parentDigest : D) : Fallible PowValidationError Unit := do
  let indexPickerPreimage := Tip5.hashPair p.root authPaths.commit
  let (indexA, indexB) := indices merkleTreeHeight indexPickerPreimage p.nonce
  let leafA ← orPanic (leafAt merkleTreeHeight parentDigest indexA)
  let leafB ← orPanic (leafAt merkleTreeHeight parentDigest indexB)
  ensure (MTree.verify p.root indexA p.pathA.toList leafA) .pathAInvalid
  ensure (MTree.verify p.root indexB p.pathB.toList leafB) .pathBInvalid
  ensure (DigestOps.le (authPaths.fastMastHash p) target) .thresholdNotMet

end Pow

end NyksNode
