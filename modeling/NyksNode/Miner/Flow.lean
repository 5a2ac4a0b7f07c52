import NyksNode.Lib.Binary64
import NyksNode.Wallet.Output

/-!
# Switching templates

The miner polls the node for templates and works on the best one.  It remembers the reward of the
template it works on, and forgets it only when the node has no template at all.
-/

namespace NyksNode

variable {D : Type}

/-- What the miner reads of an `RpcBlockTemplate`. -/
structure RpcBlockTemplate (D : Type) where
  height : BlockHeight
  prevBlock : D
  totalGuesserReward : NativeCurrencyAmount

structure Miner (D : Type) where
  guesserReward : NativeCurrencyAmount
  task : Option (RpcBlockTemplate D)
  /-- The previous blocks for which tasks have been started. -/
  started : List D

namespace Miner

def new : Miner D := ⟨.zero, none, []⟩

def overrideTask (m : Miner D) (template : RpcBlockTemplate D) : Miner D :=
  { m with task := some template, started := template.prevBlock :: m.started }

/-- The guesser share of a template is below the minimum. -/
def skips (minRewardFraction : Binary64) (template : RpcBlockTemplate D) : Bool :=
  let guesserShare := Binary64.div (.ofInt template.totalGuesserReward.nau)
    (.ofInt (blockSubsidy template.height).nau)
  guesserShare.lt minRewardFraction

def scanTemplates (minRewardFraction : Binary64) (m : Miner D) :
    Option (RpcBlockTemplate D) → Miner D
  | some template =>
    if skips minRewardFraction template then m
    else if m.guesserReward < template.totalGuesserReward then
      { m.overrideTask template with guesserReward := template.totalGuesserReward }
    else m
  | none => if m.task.isSome then { m with guesserReward := .zero, task := none } else m

def poll (minRewardFraction : Binary64) (answers : List (Option (RpcBlockTemplate D))) : Miner D :=
  answers.foldl (scanTemplates minRewardFraction) new

/-- The task, if there is one, extends the same block as a template, and one was started there. -/
def Follows (m : Miner D) (template : RpcBlockTemplate D) : Prop :=
  (∀ t ∈ m.task, t.prevBlock = template.prevBlock) ∧ template.prevBlock ∈ m.started

def taskReward (m : Miner D) : NativeCurrencyAmount :=
  (m.task.map (·.totalGuesserReward)).getD .zero

theorem guesserReward_poll (minRewardFraction : Binary64)
    (answers : List (Option (RpcBlockTemplate D))) :
    (poll minRewardFraction answers).guesserReward =
      (poll minRewardFraction answers).taskReward := by
  refine List.foldlRecOn answers _ (motive := fun m : Miner D => m.guesserReward = m.taskReward) rfl
    fun m hm answer _ => ?_
  cases answer with
  | none =>
    rw [scanTemplates]
    split_ifs with hrunning
    · rfl
    · exact hm
  | some template =>
    rw [scanTemplates]
    split_ifs with hskips hlt
    · exact hm
    · rfl
    · exact hm

/-- **When the miner follows the tip.**  A template for a new tip must pay more than the one that
the miner works on. -/
theorem follows_scanTemplates_iff {minRewardFraction : Binary64}
    (answers : List (Option (RpcBlockTemplate D))) {template : RpcBlockTemplate D}
    (hshare : skips minRewardFraction template = false) :
    ((poll minRewardFraction answers).scanTemplates minRewardFraction
        (some template)).Follows template ↔ (poll minRewardFraction answers).Follows template ∨
        (poll minRewardFraction answers).taskReward < template.totalGuesserReward := by
  rw [scanTemplates, hshare, if_neg Bool.false_ne_true, guesserReward_poll]
  split_ifs with hlt
  · simp [Follows, overrideTask, hlt]
  · simp [hlt]

theorem scanTemplates_follows : ((poll (.ofNat 0) [some ⟨⟨1⟩, 1, ⟨5⟩⟩]).scanTemplates (.ofNat 0)
      (some ⟨⟨2⟩, 2, ⟨6⟩⟩)).Follows (⟨⟨2⟩, 2, ⟨6⟩⟩ : RpcBlockTemplate ℕ) :=
  (follows_scanTemplates_iff _ (by decide +kernel)).mpr (.inr (by decide +kernel))

theorem scanTemplates_stays :
    let m : Miner ℕ := poll (.ofNat 0) [some ⟨⟨1⟩, 1, ⟨5⟩⟩, some ⟨⟨2⟩, 2, ⟨5⟩⟩]
    skips (.ofNat 0) (⟨⟨2⟩, 2, ⟨5⟩⟩ : RpcBlockTemplate ℕ) = false ∧
      m.task.map (·.prevBlock) = some 1 ∧ m.started = [1] := by
  decide +kernel

end Miner

end NyksNode
