import NyksNode.Lib.Evaluate
import Mathlib.Data.List.Forall2
import Mathlib.Data.Option.Basic

/-!
# Loops that may stop

A loop of a program that can panic is a `List.foldlM` or a `List.mapM` over `Option`, and
a loop that breaks at the first hit is a `List.anyM`.  These are the rules that the
proofs about such loops use.
-/

namespace NyksNode

open List

variable {α β σ : Type*}

universe u

theorem some_bind {γ δ : Type u} (a : γ) (f : γ → Option δ) : (some a >>= f) = f a := rfl

theorem bind_eq_some {γ δ : Type u} {x : Option γ} {f : γ → Option δ} {b : δ} :
    x >>= f = some b ↔ ∃ a, x = some a ∧ f a = some b := Option.bind_eq_some_iff

variable {f : σ → α → Option σ} {a : α} {l : List α} {s s' t : σ}

theorem foldlM_cons_of (h : f s a = some t) : (a :: l).foldlM f s = l.foldlM f t := by
  rw [foldlM_cons, h, some_bind]

theorem foldlM_cons_eq_some :
    (a :: l).foldlM f s = some s' ↔ ∃ t, f s a = some t ∧ l.foldlM f t = some s' := by
  rw [foldlM_cons, bind_eq_some]

theorem foldlM_invariant {P : σ → Prop} (hstep : ∀ s, ∀ a ∈ l, ∀ s', P s → f s a = some s' → P s')
    (hs : P s) (hl : l.foldlM f s = some s') : P s' := by
  induction l generalizing s with
  | nil =>
    obtain rfl : s = s' := by simpa using hl
    exact hs
  | cons a l ih =>
    rw [foldlM_cons_eq_some] at hl
    obtain ⟨t, ht, hl⟩ := hl
    exact ih (fun s a ha => hstep s a (mem_cons_of_mem _ ha))
      (hstep s a mem_cons_self t hs ht) hl

theorem exists_step_of_foldlM (hl : l.foldlM f s = some s') {a : α} (ha : a ∈ l) :
    ∃ t t', f t a = some t' := by
  induction l generalizing s with
  | nil => simp at ha
  | cons b l ih =>
    rw [foldlM_cons_eq_some] at hl
    obtain ⟨t, ht, hl⟩ := hl
    rcases mem_cons.mp ha with rfl | ha
    · exact ⟨s, t, ht⟩
    · exact ih hl ha

/-- A loop whose states are described by parameters, each step advancing the parameter. -/
theorem foldlM_simulates (st : β → σ) (adv : β → α → β)
    (hstep : ∀ b, ∀ a ∈ l, f (st b) a = some (st (adv b a))) (b : β) :
    l.foldlM f (st b) = some (st (l.foldl adv b)) := by
  induction l generalizing b with
  | nil => rfl
  | cons a l ih =>
    rw [foldlM_cons, hstep b a mem_cons_self, some_bind,
      ih fun b a ha => hstep b a (mem_cons_of_mem _ ha)]
    rfl

section
variable {f : α → Option β}

theorem mapM_eq_some {g : α → β} (hf : ∀ a ∈ l, f a = some (g a)) : l.mapM f = some (l.map g) := by
  induction l with
  | nil => rfl
  | cons a l ih =>
    rw [mapM_cons, hf a mem_cons_self, some_bind, ih fun b hb => hf b (mem_cons_of_mem _ hb)]
    rfl

theorem isSome_mapM_iff : (l.mapM f).isSome = true ↔ ∀ a ∈ l, (f a).isSome = true := by
  induction l with
  | nil => simp
  | cons a l ih =>
    rw [mapM_cons, forall_mem_cons, ← ih]
    cases f a with
    | none => simp
    | some b => cases hl : l.mapM f <;> simp

theorem forall₂_of_mapM {r : List β} (hl : l.mapM f = some r) :
    List.Forall₂ (fun a b => f a = some b) l r := by
  induction l generalizing r with
  | nil =>
    obtain rfl : [] = r := by simpa using hl
    exact .nil
  | cons a l ih =>
    simp only [mapM_cons, bind_eq_some] at hl
    obtain ⟨b, hb, bs, hbs, hr⟩ := hl
    obtain rfl : b :: bs = r := by simpa using hr
    exact .cons hb (ih hbs)

/-- Every result of a finished loop without a state comes from one of its inputs. -/
theorem exists_of_mem_mapM {r : List β} (hl : l.mapM f = some r) {b : β}
    (hb : b ∈ r) : ∃ a ∈ l, f a = some b := by
  have hall := forall₂_of_mapM hl
  clear hl
  induction hall with
  | nil => cases hb
  | cons hab _ ih => grind

end

theorem anyM_eq_some {f : α → Option Bool} {g : α → Bool} (hf : ∀ a ∈ l, f a = some (g a)) :
    l.anyM f = some (l.any g) := by
  induction l with
  | nil => rfl
  | cons a l ih =>
    have htail := ih fun b hb => hf b (mem_cons_of_mem _ hb)
    rw [anyM, hf a mem_cons_self, some_bind, any_cons]
    cases g a
    · simpa using htail
    · rfl

theorem anyM_eq_some_false_iff {f : α → Option Bool} :
    l.anyM f = some false ↔ ∀ a ∈ l, f a = some false := by
  induction l with
  | nil => simp [anyM]
  | cons a l ih =>
    rw [anyM, bind_eq_some, forall_mem_cons, ← ih]
    constructor
    · intro h
      obtain ⟨r, hr, htail⟩ := h
      cases r with
      | true => simp at htail
      | false => exact ⟨hr, by simpa using htail⟩
    · intro h
      exact ⟨false, h.1, by simpa using h.2⟩

theorem forM_eq_some_iff {f : α → Option Unit} : l.forM f = some () ↔ ∀ a ∈ l, f a = some () := by
  induction l with
  | nil => exact iff_of_true rfl (forall_mem_nil _)
  | cons a l ih =>
    rw [forM_eq_forM] at ih ⊢
    rw [forM_cons, bind_eq_some, forall_mem_cons]
    constructor
    · intro h
      obtain ⟨_, ha, hl⟩ := h
      exact ⟨ha, ih.mp hl⟩
    · intro h
      exact ⟨(), h.1, ih.mpr h.2⟩

theorem allM_eq_some_true_iff {f : α → Option Bool} :
    l.allM f = some true ↔ ∀ a ∈ l, f a = some true := by
  induction l with
  | nil => simp [allM]
  | cons a l ih =>
    rw [allM, bind_eq_some, forall_mem_cons, ← ih]
    constructor
    · intro h
      obtain ⟨r, hr, htail⟩ := h
      cases r with
      | true => exact ⟨hr, by simpa using htail⟩
      | false => simp at htail
    · intro h
      exact ⟨true, h.1, by simpa using h.2⟩

theorem exists_allM {f : α → Option Bool} (hf : ∀ a ∈ l, ∃ r, f a = some r) :
    ∃ r, l.allM f = some r := by
  induction l with
  | nil => exact ⟨true, rfl⟩
  | cons a l ih =>
    obtain ⟨r, hr⟩ := hf a mem_cons_self
    rw [allM, hr, some_bind]
    cases r with
    | true => exact ih fun b hb => hf b (mem_cons_of_mem _ hb)
    | false => exact ⟨false, rfl⟩

end NyksNode
