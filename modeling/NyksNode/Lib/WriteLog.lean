import Mathlib.Data.List.Basic

/-!
# Logs of writes

A key-value store with a log of writes that have not reached it yet.  Replaying the log
gives the store as it will be; a key that the log does not mention keeps its value.
-/

namespace NyksNode

open List Function

variable {κ ν : Type*} [DecidableEq κ]

inductive WriteOperation (κ ν : Type*) where
  | write (key : κ) (value : ν)
  | delete (key : κ)
  deriving DecidableEq, Repr

namespace WriteOperation

omit [DecidableEq κ] in
def key : WriteOperation κ ν → κ
  | write k _ => k
  | delete k => k

def apply (m : κ → Option ν) : WriteOperation κ ν → κ → Option ν
  | write k v => Function.update m k (some v)
  | delete k => Function.update m k none

theorem apply_of_ne {m : κ → Option ν} {op : WriteOperation κ ν} {k : κ} (hk : op.key ≠ k) :
    op.apply m k = m k := by
  cases op with
  | write k' v => exact update_of_ne hk.symm _ _
  | delete k' => exact update_of_ne hk.symm _ _

end WriteOperation

/-- The store after all writes of a log, oldest first. -/
def replay (m : κ → Option ν) (log : List (WriteOperation κ ν)) : κ → Option ν :=
  log.foldl WriteOperation.apply m

@[simp] theorem replay_nil (m : κ → Option ν) : replay m [] = m := rfl

theorem replay_append (m : κ → Option ν) (log log' : List (WriteOperation κ ν)) :
    replay m (log ++ log') = replay (replay m log) log' := foldl_append

@[simp] theorem replay_cons (m : κ → Option ν) (op : WriteOperation κ ν)
    (log : List (WriteOperation κ ν)) : replay m (op :: log) = replay (op.apply m) log := rfl

theorem replay_of_ne {m : κ → Option ν} {log : List (WriteOperation κ ν)} {k : κ}
    (hk : ∀ op ∈ log, op.key ≠ k) : replay m log k = m k := by
  induction log generalizing m with
  | nil => rfl
  | cons op log ih =>
    rw [replay_cons, ih fun o ho => hk o (mem_cons_of_mem _ ho),
      op.apply_of_ne (hk op mem_cons_self)]

theorem replay_map_delete (m : κ → Option ν) (ks : List κ) (k : κ) :
    replay m (ks.map .delete) k = if k ∈ ks then none else m k := by
  induction ks generalizing m with
  | nil => rfl
  | cons k' ks ih =>
    rw [map_cons, replay_cons, ih, WriteOperation.apply]
    by_cases hk : k = k'
    · simp [hk]
    · simp [hk, update_of_ne]

end NyksNode
