import NyksNode.Database.VecRefinement
import NyksNode.Lib.Simulation

/-!
# Vectors in the database are vectors

Calls act on the list that a `DbtVec` stands for; persisting copies that list to the
database, and reopening or rolling back copies it from there.
-/

namespace NyksNode

open List Option

variable {V : Type} [Serde V] [Serde UInt64]

/-- A call of a vector, or of the storage that it lives in. -/
inductive VecCall (V : Type) where
  | push (value : V)
  | pop
  | set (index : ℕ) (value : V)
  | setMany (keyVals : List (ℕ × V))
  | clear
  | get (index : ℕ)
  | getMany (indices : List ℕ)
  | getAll
  | len
  | isEmpty
  /-- Writes of other tables, which share the queue. -/
  | otherTables (ops : List DbWrite)
  | persist
  /-- Drop all handles, and open the database again. -/
  | reopen
  /-- `drop_unpersisted` and `delete_cache`. -/
  | rollBack

inductive VecReply (V : Type) where
  | done
  | popped (value : Option V)
  | element (value : V)
  | elements (values : List V)
  | length (n : ℕ)
  | empty (b : Bool)
  deriving DecidableEq

/-- What the handle answers, and the storage and the handle after the call. -/
def DbtVec.answer (x : SimpleRustyStorage × DbtVec V) :
    VecCall V → Option ((SimpleRustyStorage × DbtVec V) × VecReply V)
  | .push value => (x.2.push x.1 value).map fun y => (y, .done)
  | .pop => (x.2.pop x.1).map fun y => (y.2, .popped y.1)
  | .set index value => (x.2.set x.1 index value).map fun y => (y, .done)
  | .setMany keyVals => (x.2.setMany x.1 keyVals).map fun y => (y, .done)
  | .clear => (x.2.clear x.1).map fun y => (y, .done)
  | .get index => (x.2.get x.1 index).map fun value => (x, .element value)
  | .getMany indices => (x.2.getMany x.1 indices).map fun values => (x, .elements values)
  | .getAll => (x.2.getAll x.1).map fun values => (x, .elements values)
  | .len => (x.2.len x.1).map fun n => (x, .length n)
  | .isEmpty => (x.2.isEmpty x.1).map fun b => (x, .empty b)
  | .otherTables ops =>
    some ((x.1.enqueue (ops.filter fun op => op.key.head? != some x.2.keyPrefix), x.2), .done)
  | .persist => some ((x.1.persist, x.2), .done)
  | .reopen => (newVec (.new x.1.db) x.2.keyPrefix).map fun v => ((.new x.1.db, v), .done)
  | .rollBack =>
    (x.2.deleteCache x.1.dropUnpersisted).map fun v => ((x.1.dropUnpersisted, v), .done)

/-- A vector, and the vector as it was when it was last persisted. -/
structure Snapshots (V : Type) where
  current : List V
  persisted : List V

omit [Serde V] [Serde UInt64] in
/-- What an ordinary vector answers.  It holds at most `2^64 - 1` elements. -/
def Snapshots.answer (t : Snapshots V) : VecCall V → Option (Snapshots V × VecReply V)
  | .push value =>
    if t.current.length + 1 < u64Bound then
      some ({ t with current := t.current ++ [value] }, .done)
    else none
  | .pop => some ({ t with current := t.current.dropLast }, .popped t.current.getLast?)
  | .set index value =>
    if index < t.current.length then
      some ({ t with current := t.current.set index value }, .done)
    else none
  | .setMany keyVals =>
    if ∀ kv ∈ keyVals, kv.1 < t.current.length then
      some ({ t with current := keyVals.foldl (fun xs kv => xs.set kv.1 kv.2) t.current }, .done)
    else none
  | .clear => some ({ t with current := [] }, .done)
  | .get index => t.current[index]?.map fun value => (t, .element value)
  | .getMany indices => (indices.mapM (t.current[·]?)).map fun values => (t, .elements values)
  | .getAll => some (t, .elements t.current)
  | .len => some (t, .length t.current.length)
  | .isEmpty => some (t, .empty t.current.isEmpty)
  | .otherTables _ => some (t, .done)
  | .persist => some ({ t with persisted := t.current }, .done)
  | .reopen => some ({ t with current := t.persisted }, .done)
  | .rollBack => some ({ t with current := t.persisted }, .done)

/-- The handle stands for the snapshots, and it knows its length unless it is empty. -/
structure Snapshots.Represents (x : SimpleRustyStorage × DbtVec V) (t : Snapshots V) : Prop where
  reflects : x.2.Reflects x.1 t.current t.persisted
  loaded : x.2.currentLength = none → t.current = []

namespace Snapshots

section
variable {x : SimpleRustyStorage × DbtVec V} {t : Snapshots V} (h : Represents x t)
include h

/-- Reading leaves the handle as it is. -/
theorem Represents.read {α : Type} {a b : Option α} (hab : a = b) (reply : α → VecReply V) :
    Agrees Represents (a.map fun a => (x, reply a)) (b.map fun b => (t, reply b)) := by
  subst hab
  cases a with
  | none => trivial
  | some a => exact ⟨h, rfl⟩

theorem Represents.push (value : V) :
    Agrees Represents (DbtVec.answer x (.push value)) (t.answer (.push value)) := by
  rw [DbtVec.answer, Snapshots.answer]
  by_cases hlt : t.current.length + 1 < u64Bound
  · obtain ⟨s', v', hpush, hreflects, -, hlength⟩ := h.reflects.push_eq_some hlt value
    rw [hpush, if_pos hlt]
    exact ⟨⟨hreflects, by simp [hlength]⟩, rfl⟩
  · rw [h.reflects.push_eq_none hlt, if_neg hlt]
    trivial

theorem Represents.set (index : ℕ) (value : V) :
    Agrees Represents (DbtVec.answer x (.set index value)) (t.answer (.set index value)) := by
  rw [DbtVec.answer, Snapshots.answer, h.reflects.set_eq]
  by_cases hlt : index < t.current.length
  · rw [if_pos hlt, if_pos hlt]
    refine ⟨⟨h.reflects.writeOpOverwrite hlt value, fun hnone => ?_⟩, rfl⟩
    rw [h.loaded hnone] at hlt
    cases hlt
  · rw [if_neg hlt, if_neg hlt]
    trivial

theorem Represents.setMany (keyVals : List (ℕ × V)) :
    Agrees Represents (DbtVec.answer x (.setMany keyVals)) (t.answer (.setMany keyVals)) := by
  rw [DbtVec.answer, Snapshots.answer]
  by_cases hlt : ∀ kv ∈ keyVals, kv.1 < t.current.length
  · obtain ⟨s', v', hfold, hreflects, -, hlength⟩ :=
      DbtVec.Reflects.foldlM_overwrite keyVals h.reflects hlt
    rw [if_pos hlt, DbtVec.setMany, h.reflects.len_eq, some_bind, hfold]
    refine ⟨⟨hreflects, fun hnone => ?_⟩, rfl⟩
    have hnil := h.loaded (hlength.symm.trans hnone)
    cases keyVals with
    | nil => exact hnil
    | cons kv keyVals => exact absurd (hlt kv mem_cons_self) (by simp [hnil])
  · rw [if_neg hlt, h.reflects.setMany_eq_none (by simpa using hlt)]
    trivial

/-- **One call.** -/
theorem Represents.answer (call : VecCall V) :
    Agrees Represents (DbtVec.answer x call) (t.answer call) := by
  have hr := h.reflects
  cases call with
  | push value => exact h.push value
  | pop =>
    obtain ⟨s', v', hpop, hreflects, -, hloaded⟩ := hr.pop_eq_some h.loaded
    rw [DbtVec.answer, Snapshots.answer, hpop]
    exact ⟨⟨hreflects, hloaded⟩, rfl⟩
  | set index value => exact h.set index value
  | setMany keyVals => exact h.setMany keyVals
  | clear =>
    obtain ⟨s', v', hclear, hreflects, -⟩ := hr.clear_eq_some h.loaded
    rw [DbtVec.answer, Snapshots.answer, hclear]
    exact ⟨⟨hreflects, fun _ => rfl⟩, rfl⟩
  | get index => exact h.read (hr.get_eq index) .element
  | getMany indices => exact h.read (hr.getMany_eq indices) .elements
  | getAll => exact h.read hr.getAll_eq .elements
  | len => exact h.read hr.len_eq .length
  | isEmpty => exact h.read hr.isEmpty_eq .empty
  | otherTables ops =>
    refine ⟨⟨hr.enqueue_of_ne ?_, h.loaded⟩, rfl⟩
    intro op hop
    simpa using (mem_filter.mp hop).2
  | persist => exact ⟨⟨hr.persist, h.loaded⟩, rfl⟩
  | reopen =>
    obtain ⟨v', hnew, hreflects, hlength⟩ :=
      DbtVec.Reflects.newVec_eq_some hr.persisted hr.persisted_lt
    rw [DbtVec.answer, Snapshots.answer, hnew]
    exact ⟨⟨hreflects, by simp [hlength]⟩, rfl⟩
  | rollBack =>
    obtain ⟨v', hdelete, hreflects, hloaded⟩ := hr.deleteCache_eq_some
    rw [DbtVec.answer, Snapshots.answer, hdelete]
    exact ⟨⟨hreflects, hloaded⟩, rfl⟩

end

end Snapshots

open Snapshots

/-- **A vector in the database is a vector with snapshots.**  Every sequence of calls is answered
as an ordinary vector answers it. -/
theorem DbtVec.answers_like_vec (keyPrefix : UInt8) (calls : List (VecCall V)) :
    ((newVec (.new fun _ => none) keyPrefix).bind fun v : DbtVec V =>
      (runCalls answer (.new fun _ => none, v) calls).map (·.2)) =
        (runCalls Snapshots.answer ⟨[], []⟩ calls).map (·.2) := by
  have hempty : Stores (fun _ => none) keyPrefix ([] : List V) := ⟨.inr ⟨rfl, rfl⟩, nofun⟩
  obtain ⟨v, hnew, hreflects, hlength⟩ := Reflects.newVec_eq_some hempty (Nat.two_pow_pos 64)
  rw [hnew]
  exact runCalls_eq_of_agrees (R := Snapshots.Represents) (fun _ _ h call => h.answer call)
    ⟨hreflects, fun _ => rfl⟩ calls

end NyksNode
