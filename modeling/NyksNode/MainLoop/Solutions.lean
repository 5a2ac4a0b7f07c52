import NyksNode.Block.Successor

/-!
# Submitted solutions

A guesser submits a template and a proof of work for it.  The node checks the template as it is,
then puts the proof of work in, and compares the timestamp with that of the block itself instead of
that of the tip.
-/

namespace NyksNode.Block

section
variable {D : Type}

def setHeaderPow (b : Block D) (pow : BlockPow D) : Block D :=
  { b with kernel := { b.kernel with header := { b.kernel.header with pow := pow } } }

inductive SubmitBlockError where
  | invalidBlock
  | insufficientWork
  deriving DecidableEq

variable [Tip5 D] [ConsensusOps D] [DecidableEq D] [DigestOps D]

/-- By its own header, a block is never late enough for a reset. -/
theorem hasProofOfWork_eq (b : Block D) (network : Network) (previousBlockHeader : BlockHeader D) :
    b.hasProofOfWork network previousBlockHeader =
      if shouldResetDifficulty network b.header.timestamp previousBlockHeader.timestamp ∧
        b.header.difficulty = network.genesisDifficulty then some true
      else b.hasProofOfWork network b.header := by
  have hself : shouldResetDifficulty network b.header.timestamp b.header.timestamp = false := by
    have hzero : b.header.timestamp - b.header.timestamp = ⟨0⟩ := Timestamp.ext Fin.sub_self
    cases network <;> simp only [shouldResetDifficulty, Network.difficultyResetInterval, hzero]
    decide
  simp only [hasProofOfWork, hself, Bool.false_eq_true, false_and, if_false]

variable [MmrOps D] [MmrIndexing]

/-- `submit_block_call`: the block that is sent to the main loop as a `ProofOfWorkSolution`. -/
def submitBlockCall (network : Network) (now : Timestamp) (tip template : Block D)
    (pow : BlockPow D) : Option (Except SubmitBlockError (Block D)) := do
  if !(← template.isValid tip now network) then some (.error .invalidBlock)
  else
    let template := template.setHeaderPow pow
    if !(← template.hasProofOfWork network template.header) then
      some (.error .insufficientWork)
    else some (.ok template)

variable {network : Network} {now : Timestamp} {tip template : Block D} {pow : BlockPow D}

theorem submitBlockCall_eq_ok_iff :
    submitBlockCall network now tip template pow = some (.ok (template.setHeaderPow pow)) ↔
      template.isValid tip now network = some true ∧
        (template.setHeaderPow pow).hasProofOfWork network (template.setHeaderPow pow).header =
          some true := by
  rw [submitBlockCall]
  rcases template.isValid tip now network with _ | _ | _
  · simp
  · simp
  · rcases h : (template.setHeaderPow pow).hasProofOfWork network
      (template.setHeaderPow pow).header with _ | _ | _ <;> simp [h]

/-- **When solutions are forwarded as peers would accept them.**  A block whose difficulty is reset
needs no work after the tip, but by its own header it does.  The encoding of a proof of work has a
fixed length. -/
theorem submitBlockCall_exact_iff (hsize : (template.setHeaderPow pow).size = template.size) :
    (submitBlockCall network now tip template pow = some (.ok (template.setHeaderPow pow)) ↔
        (template.setHeaderPow pow).isValid tip now network = some true ∧
          (template.setHeaderPow pow).hasProofOfWork network tip.header = some true) ↔
      (template.isValid tip now network = some true →
        shouldResetDifficulty network template.header.timestamp tip.header.timestamp = true →
        template.header.difficulty = network.genesisDifficulty →
        (template.setHeaderPow pow).hasProofOfWork network (template.setHeaderPow pow).header =
          some true) := by
  have hvalid : (template.setHeaderPow pow).isValid tip now network =
      template.isValid tip now network := by
    simp only [isValid, validate, hsize]
    rfl
  rw [submitBlockCall_eq_ok_iff, hvalid, hasProofOfWork_eq _ _ tip.header]
  change _ ↔ (_ → shouldResetDifficulty network (template.setHeaderPow pow).header.timestamp _ =
    true → (template.setHeaderPow pow).header.difficulty = _ → _)
  split_ifs with hreset
  · simp [hreset]
  · simp only [true_iff]
    exact fun _ h h' => absurd ⟨h, h'⟩ hreset

end

/-! ## An empty block after a long time -/

namespace Mock

/-- Peers would accept the block, and it is not forwarded. -/
theorem submitBlockCall_withholds : let _ := MmrIndexing.reference
    submitBlockCall .testnetMock first.header.timestamp genesis first genesis.header.pow =
        some (.error .insufficientWork) ∧
      (first.setHeaderPow genesis.header.pow).isValid genesis first.header.timestamp .testnetMock =
        some true ∧
      (first.setHeaderPow genesis.header.pow).hasProofOfWork .testnetMock genesis.header =
        some true := by
  decide +kernel

theorem submitBlockCall_exact_main : let _ := MmrIndexing.reference
    submitBlockCall .main first.header.timestamp genesis first genesis.header.pow =
        some (.ok (first.setHeaderPow genesis.header.pow)) ↔
      (first.setHeaderPow genesis.header.pow).isValid genesis first.header.timestamp .main =
          some true ∧
        (first.setHeaderPow genesis.header.pow).hasProofOfWork .main genesis.header = some true :=
  let _ := MmrIndexing.reference
  (submitBlockCall_exact_iff rfl).mpr fun _ h => absurd h Bool.false_ne_true

end Mock

end NyksNode.Block
