import NyksNode.Archival.MutatorSet
import NyksNode.Block.Validate

/-!
# The archival state

The archival state stores blocks, follows the tip of the chain with a mountain range of block
digests and with the archival mutator set, and moves both from one tip to another.

Blocks are read from files that the block index names; here the index holds the blocks.  A
panic is `none`, and `update_mutator_set` can also report an error.
-/

namespace NyksNode

/-- `RustyArchivalMutatorSet`: the set, and the block it is in step with. -/
structure RustyArchivalMutatorSet (D : Type) where
  ams : ArchivalMutatorSet D
  syncLabel : D

structure ArchivalState (D : Type) where
  /-- The block of every record in the block index. -/
  blockIndexDb : D → Option (Block D)
  genesisBlock : Block D
  archivalMutatorSet : RustyArchivalMutatorSet D
  archivalBlockMmr : ArchivalMmr D

namespace ArchivalState
variable {D : Type} [Tip5 D] [DecidableEq D] [ConsensusOps D]

def getBlock (s : ArchivalState D) (blockDigest : D) : Option (Block D) :=
  match s.blockIndexDb blockDigest with
  | some block => some block
  | none => if s.genesisBlock.hash = blockDigest then some s.genesisBlock else none

def getBlockHeader (s : ArchivalState D) (blockDigest : D) : Option (BlockHeader D) :=
  match s.blockIndexDb blockDigest with
  | some block => some block.header
  | none => if blockDigest = s.genesisBlock.hash then some s.genesisBlock.header else none

/-! ## Paths -/

/-- First loop of `find_path`: go down until both heights are equal.  The first argument bounds
the number of rounds. -/
def levelLoop (s : ArchivalState D) :
    ℕ → List D → List D → BlockHeader D → BlockHeader D → Option (List D × List D)
  | 0, _, _, _, _ => none
  | fuel + 1, leaving, arriving, leavingDeepest, arrivingDeepest =>
    if leavingDeepest.height = arrivingDeepest.height then some (leaving, arriving)
    else if leavingDeepest.height < arrivingDeepest.height then do
      let header ← s.getBlockHeader arrivingDeepest.prevBlockDigest
      s.levelLoop fuel leaving (arriving ++ [arrivingDeepest.prevBlockDigest]) leavingDeepest header
    else do
      let header ← s.getBlockHeader leavingDeepest.prevBlockDigest
      s.levelLoop fuel (leaving ++ [leavingDeepest.prevBlockDigest]) arriving header arrivingDeepest

/-- Second loop of `find_path`: go down until both blocks are equal. -/
def meetLoop (s : ArchivalState D) : ℕ → List D → List D → Option (List D × List D)
  | 0, _, _ => none
  | fuel + 1, leaving, arriving => do
    let leavingLast ← leaving.getLast?
    let arrivingLast ← arriving.getLast?
    if leavingLast = arrivingLast then some (leaving, arriving)
    else do
      let leavingHeader ← s.getBlockHeader leavingLast
      let arrivingHeader ← s.getBlockHeader arrivingLast
      s.meetLoop fuel (leaving ++ [leavingHeader.prevBlockDigest])
        (arriving ++ [arrivingHeader.prevBlockDigest])

/-- `find_path`: the blocks to leave, the latest common ancestor, and the blocks to apply. -/
def findPath (s : ArchivalState D) (start stop : D) : Option (List D × D × List D) := do
  let leavingHeader ← s.getBlockHeader start
  let arrivingHeader ← s.getBlockHeader stop
  let rounds := leavingHeader.height.value.val + arrivingHeader.height.value.val + 1
  let (leaving, arriving) ← s.levelLoop rounds [start] [stop] leavingHeader arrivingHeader
  let (leaving, arriving) ← s.meetLoop rounds leaving arriving
  let luca ← leaving.getLast?
  some (leaving.dropLast, luca, arriving.dropLast.reverse)

/-! ## Opening the databases -/

variable [MmrNodeIndexing]

def populateArchivalMutatorSetWithGenesisBlock (archivalMutatorSet : RustyArchivalMutatorSet D)
    (genesisBlock : Block D) : Option (RustyArchivalMutatorSet D) := do
  let ams ← genesisBlock.body.transactionKernel.outputs.foldlM (fun ams r => ams.add r)
    archivalMutatorSet.ams
  some ⟨ams, genesisBlock.hash⟩

/-- Populate the archival mutator set if it is empty. -/
def initializeMutatorSet (archivalMutatorSet : RustyArchivalMutatorSet D)
    (genesisBlock : Block D) : Option (RustyArchivalMutatorSet D) :=
  if archivalMutatorSet.ams.aocl.isEmpty then
    populateArchivalMutatorSetWithGenesisBlock archivalMutatorSet genesisBlock
  else some archivalMutatorSet

/-- Add the genesis block to the block range if it is empty. -/
def initializeBlockMmr (archivalBlockMmr : ArchivalMmr D) (genesisBlock : Block D) :
    Option (ArchivalMmr D) :=
  if archivalBlockMmr.isEmpty then (archivalBlockMmr.append genesisBlock.hash).map (·.1)
  else some archivalBlockMmr

/-- `ArchivalState::new`, from what the three databases hold. -/
def new (archivalMutatorSet : RustyArchivalMutatorSet D) (archivalBlockMmr : ArchivalMmr D)
    (blockIndexDb : D → Option (Block D)) (genesisBlock : Block D) : Option (ArchivalState D) := do
  let archivalMutatorSet ← initializeMutatorSet archivalMutatorSet genesisBlock
  let archivalBlockMmr ← initializeBlockMmr archivalBlockMmr genesisBlock
  some ⟨blockIndexDb, genesisBlock, archivalMutatorSet, archivalBlockMmr⟩

/-! ## The block range -/

/-- The genesis block becomes the tip of the block range. -/
def resetBlockMmr (s : ArchivalState D) (newBlock : Block D) : Option (ArchivalMmr D) := do
  if s.genesisBlock.hash ≠ newBlock.hash then none
  else do
    match ← s.archivalBlockMmr.tryGetLeaf 0 with
    | some leaf => if leaf ≠ newBlock.hash then none else s.archivalBlockMmr.pruneToNumLeafs 1
    | none => do
      let (mmr, _) ← s.archivalBlockMmr.append newBlock.hash
      mmr.pruneToNumLeafs 1

/-- Follow the path from the latest leaf to the predecessor of a block. -/
def followPath (s : ArchivalState D) (mmr : ArchivalMmr D) (latestLeaf prev : D) :
    Option (ArchivalMmr D) :=
  if prev = latestLeaf then some mmr
  else do
    let (backwards, _, forwards) ← s.findPath latestLeaf prev
    let mmr ← backwards.foldlM (fun mmr _ => mmr.removeLastLeafAsync.map (·.2)) mmr
    forwards.foldlM (fun mmr digest => (mmr.append digest).map (·.1)) mmr

/-- The block range of a block that is not the genesis block. -/
def extendBlockMmr (s : ArchivalState D) (newBlock : Block D) : Option (ArchivalMmr D) := do
  let prev := newBlock.header.prevBlockDigest
  let mmr ← s.archivalBlockMmr.pruneToNumLeafs newBlock.header.height.value.val
  let latestLeaf ← ← mmr.getLatestLeaf
  let mmr ← s.followPath mmr latestLeaf prev
  let latestLeaf ← ← mmr.getLatestLeaf
  if prev ≠ latestLeaf then none
  else (mmr.append newBlock.hash).map (·.1)

def appendToArchivalBlockMmr (s : ArchivalState D) (newBlock : Block D) :
    Option (ArchivalState D) :=
  (if newBlock.header.height.isGenesis then s.resetBlockMmr newBlock
    else s.extendBlockMmr newBlock).map fun mmr => { s with archivalBlockMmr := mmr }

/-! ## The mutator set -/

variable [MmrOps D]

/-- The genesis block becomes the tip of the mutator set. -/
def resetMutatorSet (s : ArchivalState D) (newBlock : Block D) : Option (ArchivalState D) :=
  if s.genesisBlock.hash ≠ newBlock.hash then none
  else do
    let ams ← s.archivalMutatorSet.ams.clear
    let archivalMutatorSet ← populateArchivalMutatorSetWithGenesisBlock
      { s.archivalMutatorSet with ams := ams } newBlock
    some { s with archivalMutatorSet := archivalMutatorSet }

/-- Undo one addition, which must be the last one. -/
def rollBackAddition (ams : ArchivalMutatorSet D) (r : AdditionRecord D) :
    Option (ArchivalMutatorSet D) := do
  let reversible ← ams.addIsReversible r
  if reversible then ams.revertAdd r else none

def rollBackBlock (s : ArchivalState D) (ams : ArchivalMutatorSet D) (digest : D) :
    Option (ArchivalMutatorSet D) := do
  let rollbackBlock ← s.getBlock digest
  let update ← rollbackBlock.mutatorSetUpdate.unwrap
  let ams ← update.removals.foldlM (fun ams rr => ams.revertRemove rr) ams
  update.additions.reverse.foldlM rollBackAddition ams

/-- One addition of a block; the removal records are kept current. -/
def applyBlockAddition (x : ArchivalMutatorSet D × List (RemovalRecord D)) (r : AdditionRecord D) :
    Option (ArchivalMutatorSet D × List (RemovalRecord D)) := do
  let accumulator ← x.1.accumulator
  let removals ← RemovalRecord.batchUpdateFromAddition x.2 accumulator
  let ams ← x.1.add r
  some (ams, removals)

/-- The block to apply; the new block is not read from disk. -/
def forwardBlock (s : ArchivalState D) (newBlock : Block D) (digest : D) : Option (Block D) :=
  if digest = newBlock.hash then some newBlock else s.getBlock digest

def applyForwardBlock (s : ArchivalState D) (newBlock : Block D) (ams : ArchivalMutatorSet D)
    (digest : D) : Option (ArchivalMutatorSet D) := do
  let block ← s.forwardBlock newBlock digest
  let update ← block.mutatorSetUpdate.unwrap
  -- additions are reversed and popped, removals are reversed
  let (ams, removals) ← update.additions.foldlM applyBlockAddition (ams, update.removals.reverse)
  ams.batchRemove removals

/-- The blocks to undo and the blocks to apply. -/
def pathToBlock (s : ArchivalState D) (newBlock : Block D) : Option (List D × List D) :=
  if s.archivalMutatorSet.syncLabel = newBlock.header.prevBlockDigest then
    some ([], [newBlock.hash])
  else do
    let (backwards, _, forwards) ←
      s.findPath s.archivalMutatorSet.syncLabel newBlock.header.prevBlockDigest
    some (backwards, forwards ++ [newBlock.hash])

/-- Move the mutator set to a block that is not the genesis block. -/
def moveMutatorSet (s : ArchivalState D) (newBlock : Block D) : Option (ArchivalState D) := do
  let (backwards, forwards) ← s.pathToBlock newBlock
  let ams ← backwards.foldlM s.rollBackBlock s.archivalMutatorSet.ams
  let ams ← forwards.foldlM (s.applyForwardBlock newBlock) ams
  let mutatorSetAccumulatorAfter ← newBlock.mutatorSetAccumulatorAfter.unwrap
  let hash ← ams.hash
  if mutatorSetAccumulatorAfter.hash ≠ hash then none
  else some { s with archivalMutatorSet := ⟨ams, newBlock.hash⟩ }

def couldNotGetMutatorSetUpdate : String := "invalid block: could not get mutator set update"

def updateMutatorSet (s : ArchivalState D) (newBlock : Block D) :
    Fallible String (ArchivalState D) :=
  if newBlock.header.height.isGenesis then Fallible.orPanic (s.resetMutatorSet newBlock)
  else do
    match ← Fallible.orPanic newBlock.mutatorSetUpdate.run with
    | .error _ => throw couldNotGetMutatorSetUpdate
    | .ok _ => Fallible.orPanic (s.moveMutatorSet newBlock)

end ArchivalState

end NyksNode
