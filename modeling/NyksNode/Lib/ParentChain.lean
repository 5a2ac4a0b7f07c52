import Mathlib.Data.List.Basic
import Mathlib.Data.Option.Basic
import Mathlib.Logic.Relation

/-!
# Trees stored as parent links

A tree whose nodes know their parent and their height.  The chain to a node lists the nodes
from the root on; a node has at most one chain, and every prefix of a chain is the chain to
its last node.  Two chains that meet somewhere agree up to there.
-/

namespace NyksNode

open List Option

variable {α : Type*}

/-- The nodes from the root to a node; a node has its height and its parent. -/
inductive ChainTo (link : α → Option (ℕ × α)) (root : α) : α → List α → Prop
  | root {p : α} (hroot : link root = some (0, p)) : ChainTo link root root [root]
  | next {a p : α} {l : List α} (hp : ChainTo link root p l) (ha : link a = some (l.length, p)) :
      ChainTo link root a (l ++ [a])

/-- A node that is not the root links to its parent. -/
def ParentOf (link : α → Option (ℕ × α)) (root p a : α) : Prop :=
  a ≠ root ∧ ∃ h, link a = some (h, p)

namespace ChainTo
variable {link : α → Option (ℕ × α)} {root a b : α} {l m : List α}

section
variable (h : ChainTo link root a l)
include h

theorem length_pos : 0 < l.length := by
  cases h <;> simp

theorem getLast?_eq : l.getLast? = some a := by
  cases h <;> simp

theorem head?_eq : l.head? = some root := by
  induction h with
  | root => rfl
  | next hp _ ih =>
    have hpos := hp.length_pos
    rw [head?_append_of_ne_nil _ (ne_nil_of_length_pos hpos), ih]

theorem height_eq : ∃ p, link a = some (l.length - 1, p) := by
  cases h with
  | root hroot => exact ⟨_, hroot⟩
  | @next _ p _ hp ha =>
    refine ⟨p, ?_⟩
    rw [ha, length_append, length_singleton, Nat.add_sub_cancel]

theorem root_or_next : a = root ∧ l = [root] ∨
    ∃ p m, ChainTo link root p m ∧ link a = some (m.length, p) ∧ l = m ++ [a] := by
  cases h with
  | root => exact Or.inl ⟨rfl, rfl⟩
  | @next _ p m hp ha => exact Or.inr ⟨p, m, hp, ha, rfl⟩

theorem unique (h' : ChainTo link root a m) : l = m := by
  induction h generalizing m with
  | root hroot =>
    cases h' with
    | root => rfl
    | next hp ha =>
      have hpos := hp.length_pos
      rw [hroot, some_inj, Prod.mk.injEq] at ha
      omega
  | next hp ha ih =>
    cases h' with
    | root hroot =>
      have hpos := hp.length_pos
      rw [hroot, some_inj, Prod.mk.injEq] at ha
      omega
    | next hp' ha' =>
      rw [ha, some_inj, Prod.mk.injEq] at ha'
      rw [ih (ha'.2 ▸ hp')]

end

variable {i : ℕ} {x : α}

section
variable (h : ChainTo link root a l)
include h

theorem take (hx : l[i]? = some x) : ChainTo link root x (l.take (i + 1)) := by
  induction h with
  | root hroot =>
    cases i with
    | zero =>
      obtain rfl : root = x := by simpa using hx
      exact .root hroot
    | succ i => simp at hx
  | @next a p l hp ha ih =>
    by_cases hi : i < l.length
    · rw [getElem?_append_left hi] at hx
      rw [take_append_of_le_length (by omega)]
      exact ih hx
    · have hlast : i = l.length := by
        have := (List.getElem?_eq_some_iff.mp hx).1
        rw [length_append, length_singleton] at this
        omega
      rw [hlast, getElem?_concat_length, some_inj] at hx
      rw [hlast, ← hx, take_of_length_le (by simp)]
      exact .next hp ha

theorem link_eq {y : α} (hx : l[i]? = some x)
    (hy : l[i + 1]? = some y) : link y = some (i + 1, x) := by
  induction h with
  | root => simp at hy
  | @next a p l hp ha ih =>
    have hi := (List.getElem?_eq_some_iff.mp hy).1
    rw [length_append, length_singleton] at hi
    rw [getElem?_append_left (by omega)] at hx
    by_cases hlt : i + 1 < l.length
    · rw [getElem?_append_left hlt] at hy
      exact ih hx hy
    · have hlast : i + 1 = l.length := by omega
      have hp := hp.getLast?_eq
      rw [getLast?_eq_getElem?, ← hlast, Nat.add_sub_cancel, hx, some_inj] at hp
      rw [hlast, getElem?_concat_length, some_inj] at hy
      rw [← hy, ha, ← hlast, hp]

theorem height_getElem (hx : l[i]? = some x) : ∃ p, link x = some (i, p) := by
  have hi := (List.getElem?_eq_some_iff.mp hx).1
  obtain ⟨p, hp⟩ := (h.take hx).height_eq
  rw [List.length_take, Nat.min_eq_left (by omega), Nat.add_sub_cancel] at hp
  exact ⟨p, hp⟩

theorem take_eq_of_meet (h' : ChainTo link root b m)
    (hx : l[i]? = some x) (hx' : m[i]? = some x) : l.take (i + 1) = m.take (i + 1) :=
  (h.take hx).unique (h'.take hx')

theorem parentOf {y : α} (hx : l[i]? = some x)
    (hy : l[i + 1]? = some y) : ParentOf link root x y := by
  refine ⟨?_, i + 1, h.link_eq hx hy⟩
  -- the root has height zero
  rintro rfl
  obtain ⟨hi, -⟩ := List.getElem?_eq_some_iff.mp hy
  have hzero : l[0]? = some y := by rw [← head?_eq_getElem?, h.head?_eq]
  obtain ⟨p, hp⟩ := h.height_getElem hzero
  rw [h.link_eq hx hy, some_inj, Prod.mk.injEq] at hp
  omega

theorem isChain_parentOf : l.IsChain (ParentOf link root) := by
  rw [isChain_iff_getElem]
  intro i hi
  exact h.parentOf (getElem?_eq_getElem _) (getElem?_eq_getElem hi)

theorem mem_iff_ancestor : x ∈ l ↔ Relation.ReflTransGen (ParentOf link root) x a := by
  induction h with
  | root =>
    rw [mem_singleton]
    constructor
    · rintro rfl
      exact .refl
    · intro hx
      cases hx.cases_tail with
      | inl heq => exact heq.symm
      | inr htail =>
        obtain ⟨p, -, hp⟩ := htail
        exact absurd rfl hp.1
  | @next a p l hp ha ih =>
    have hlast : l[l.length - 1]? = some p := by rw [← getLast?_eq_getElem?, hp.getLast?_eq]
    have hpos := hp.length_pos
    have hparent : ParentOf link root p a := by
      apply (next hp ha).parentOf (i := l.length - 1)
      · rw [getElem?_append_left (by omega), hlast]
      · rw [Nat.sub_add_cancel hpos, getElem?_concat_length]
    rw [mem_append, mem_singleton, ih]
    constructor
    · intro hx
      cases hx with
      | inl hx => exact hx.tail hparent
      | inr hx => exact hx ▸ .refl
    · intro hx
      cases hx.cases_tail with
      | inl heq => exact Or.inr heq.symm
      | inr htail =>
        obtain ⟨q, hq, -, height, hlink⟩ := htail
        rw [ha, some_inj, Prod.mk.injEq] at hlink
        exact Or.inl (hlink.2 ▸ hq)

theorem getElem?_zero : l[0]? = some root := by
  rw [← head?_eq_getElem?, h.head?_eq]

end

end ChainTo

end NyksNode
