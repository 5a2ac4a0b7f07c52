import NyksNode.Block.Symbolic
import NyksNode.Block.Validate
import Mathlib.Data.Prod.Lex

/-!
# Fork choice

A node replaces its tip by a block that wins the fork choice rule.  The rule compares
work if the heights differ, and otherwise only asks whether the tip has inputs, so it is
not an order on blocks: a block of equal height may win with less work.

Where that does not happen, a tip that was replaced never returns, because every
replacement raises the pair of the work and of whether there are inputs.
-/

namespace NyksNode.Block

open List

variable {D : Type} [Tip5 D] [ConsensusOps D] [DecidableEq D]

def forkChoiceRule (currentTip incomingBlock : Block D) : Block D :=
  if currentTip.header.height ≠ incomingBlock.header.height then
    if incomingBlock.header.cumulativeProofOfWork ≤ currentTip.header.cumulativeProofOfWork then
      currentTip
    else incomingBlock
  else if currentTip.body.transactionKernel.inputs.isEmpty then incomingBlock
  else currentTip

/-- `incoming_block_is_more_canonical`, for a node with the given tip. -/
def incomingBlockIsMoreCanonical (tip incomingBlock : Block D) : Bool :=
  (forkChoiceRule tip incomingBlock).hash ≠ tip.hash

/-- The work of a block, and whether it has inputs. -/
def rank (b : Block D) : ℕ ×ₗ Bool :=
  toLex (b.header.cumulativeProofOfWork.toBigUint, !b.body.transactionKernel.inputs.isEmpty)

theorem loses_of_incomingBlockIsMoreCanonical {tip b : Block D}
    (h : tip.incomingBlockIsMoreCanonical b = true) : (tip.header.height ≠ b.header.height ∧
      tip.header.cumulativeProofOfWork.toBigUint < b.header.cumulativeProofOfWork.toBigUint) ∨
    (tip.header.height = b.header.height ∧ tip.body.transactionKernel.inputs = []) := by
  have hne : forkChoiceRule tip b ≠ tip := fun heq => of_decide_eq_true h (by rw [heq])
  rw [forkChoiceRule] at hne
  split_ifs at hne with hheight hwork hempty
  · exact absurd rfl hne
  · rw [ProofOfWork.le_iff, not_le] at hwork
    exact .inl ⟨hheight, hwork⟩
  · exact .inr ⟨not_not.mp hheight, isEmpty_iff.mp hempty⟩
  · exact absurd rfl hne

/-- **One replacement** raises the rank, unless a block of equal height wins without inputs or
with less work. -/
theorem rank_lt_of_incomingBlockIsMoreCanonical {tip b : Block D}
    (h : tip.incomingBlockIsMoreCanonical b = true)
    (hequal : tip.header.height = b.header.height → b.body.transactionKernel.inputs ≠ [] ∧
      tip.header.cumulativeProofOfWork ≤ b.header.cumulativeProofOfWork) : tip.rank < b.rank := by
  rw [rank, rank, Prod.Lex.toLex_lt_toLex]
  rcases loses_of_incomingBlockIsMoreCanonical h with ⟨-, hwork⟩ | ⟨hheight, hempty⟩
  · exact .inl hwork
  · obtain ⟨hinputs, hwork⟩ := hequal hheight
    rw [ProofOfWork.le_iff] at hwork
    rcases hwork.lt_or_eq with hlt | heq
    · exact .inl hlt
    · have hflag : b.body.transactionKernel.inputs.isEmpty = false := by simpa using hinputs
      exact .inr ⟨heq, by simp [hempty, hflag]⟩

/-- **No tip returns.**  In every sequence of tips, each adopted because it is more canonical than
the one before, no block occurs twice, if blocks that replace a tip of their own height have inputs
and at least the work of that tip. -/
theorem adopted_tips_nodup {tips : List (Block D)} (hadopted : tips.IsChain fun tip b =>
      tip.incomingBlockIsMoreCanonical b = true ∧ (tip.header.height = b.header.height →
        b.body.transactionKernel.inputs ≠ [] ∧
        tip.header.cumulativeProofOfWork ≤ b.header.cumulativeProofOfWork)) : tips.Nodup := by
  have hrank : (tips.map rank).IsChain (· < ·) := by
    rw [isChain_map]
    exact hadopted.imp fun tip b h => rank_lt_of_incomingBlockIsMoreCanonical h.1 h.2
  have hnodup : (tips.map rank).Nodup := hrank.pairwise.imp ne_of_lt
  exact hnodup.of_map rank

/-! ## Tips that return -/

/-- A block of a fork, by its height, the work of its last block and its inputs. -/
def rival (height : ℕ) (difficulty : Difficulty) (inputs : List (RemovalRecord SymbolicDigest)) :
    Block SymbolicDigest where
  kernel :=
    { header :=
        { BlockHeader.genesis .main with
          height := ⟨.new height⟩
          cumulativeProofOfWork := .add .zero difficulty }
      body :=
        { transactionKernel :=
            { inputs := inputs
              outputs := []
              announcements := []
              fee := .coins 0
              coinbase := none
              timestamp := Network.main.launchDate
              mutatorSetHash := .zero
              mergeBit := false }
          mutatorSetAccumulator := .empty
          lockFreeMmrAccumulator := .empty
          blockMmrAccumulator := .empty }
      appendix := ⟨[]⟩ }
  proof := .singleProof ⟨[]⟩

def someInput : RemovalRecord SymbolicDigest :=
  ⟨⟨0, List.replicate numTrials 0, length_zeros⟩, ⟨[]⟩⟩

theorem work_lt (n : Fin 1000) : ∀ limb ∈ [n.val, 0, 0, 0, 0], limb < u32Bound := by
  simp [u32Bound]
  omega

def work (n : Fin 1000) : Difficulty := ⟨⟨[n, 0, 0, 0, 0], rfl, work_lt n⟩⟩

/-- **A tip returns**: a block without inputs loses to one of equal height with inputs and less
work, which loses to a higher one with some more work, which loses to the first. -/
theorem rule_is_cyclic : ∃ x y z : Block SymbolicDigest,
      x.incomingBlockIsMoreCanonical y = true ∧ y.incomingBlockIsMoreCanonical z = true ∧
      z.incomingBlockIsMoreCanonical x = true :=
  ⟨rival 5 (work 10) [], rival 5 (work 3) [someInput], rival 6 (work 5) [someInput],
    by decide +kernel, by decide +kernel, by decide +kernel⟩

theorem adopted_tips_nodup_rivals :
    [rival 5 (work 3) [], rival 5 (work 3) [someInput], rival 6 (work 5) []].Nodup :=
  adopted_tips_nodup (by
    simp only [isChain_cons_cons, isChain_singleton, and_true]
    decide +kernel)

end NyksNode.Block
