import NyksNode.Lib.Evaluate
import Mathlib.Data.List.Basic
import Mathlib.Data.Option.Basic

/-!
# Runs of a partial step function

A run makes one step after the other until one of them panics.  Its steps pair the state before a
step with what was done there, so that a condition on the steps of a run is a condition on the
state before the step and on its input.
-/

namespace NyksNode

open List

variable {σ α : Type*} {step : σ → α → Option σ} {s : σ} {as : List α} {ss : List σ}

/-- The states after each step of a run. -/
def trace (step : σ → α → Option σ) : σ → List α → Option (List σ)
  | _, [] => some []
  | s, a :: as => do
    let s' ← step s a
    let states ← trace step s' as
    some (s' :: states)

/-- The state before each step, and what was done there. -/
def steps (s : σ) (as : List α) (ss : List σ) : List (σ × α) := (s :: ss).zip as

theorem trace_cons_eq_some_iff {a : α} : trace step s (a :: as) = some ss ↔
      ∃ s' rest, step s a = some s' ∧ trace step s' as = some rest ∧ ss = s' :: rest := by
  simp only [trace, Option.bind_eq_bind, Option.bind_eq_some_iff, Option.some_inj]
  constructor
  · intro h
    obtain ⟨s', hs', rest, hrest, heq⟩ := h
    exact ⟨s', rest, hs', hrest, heq.symm⟩
  · intro h
    obtain ⟨s', rest, hs', hrest, heq⟩ := h
    exact ⟨s', hs', rest, hrest, heq.symm⟩

@[simp] theorem steps_cons (a : α) (s' : σ) : steps s (a :: as) (s' :: ss) =
    (s, a) :: steps s' as ss := rfl

/-- A run in which no step panics goes on to its end. -/
theorem exists_trace {I : σ → Prop}
    (hstep : ∀ s, I s → ∀ a ∈ as, ∃ s', step s a = some s' ∧ I s') (hs : I s) :
    ∃ ss, trace step s as = some ss := by
  induction as generalizing s with
  | nil => exact ⟨[], rfl⟩
  | cons a as ih =>
    obtain ⟨s', hs', hI⟩ := hstep s hs a mem_cons_self
    obtain ⟨ss, hss⟩ := ih (fun s hs a ha => hstep s hs a (mem_cons_of_mem _ ha)) hI
    exact ⟨s' :: ss, trace_cons_eq_some_iff.mpr ⟨s', ss, hs', hss, rfl⟩⟩

/-- If, where `I` holds, `C` is exactly what a step needs for `P`, and keeps `I`, then `P` holds
throughout a run exactly if all its steps meet `C`.  The steps may be known to meet `A`. -/
theorem forall_trace_iff_of_invariant {I P : σ → Prop} {A C : σ → α → Prop}
    (hstep : ∀ s a s', I s → A s a → step s a = some s' → (P s' ↔ C s a) ∧ (C s a → I s'))
    (hs : I s) (ht : trace step s as = some ss) (hA : ∀ x ∈ steps s as ss, A x.1 x.2) :
    (∀ x ∈ ss, P x) ↔ ∀ x ∈ steps s as ss, C x.1 x.2 := by
  induction as generalizing s ss with
  | nil =>
    cases ht
    simp [steps]
  | cons a as ih =>
    obtain ⟨s', rest, hs', hrest, rfl⟩ := trace_cons_eq_some_iff.mp ht
    rw [steps_cons, forall_mem_cons] at hA
    obtain ⟨hP, hI⟩ := hstep s a s' hs hA.1 hs'
    rw [steps_cons, forall_mem_cons, forall_mem_cons, hP]
    exact and_congr_right fun hC => ih (hI hC) hrest hA.2

/-- If steps need exactly `C` to keep `I`, then a run keeps `I` exactly if all its steps meet
`C`. -/
theorem forall_trace_iff {I : σ → Prop} {C : σ → α → Prop}
    (hstep : ∀ s a s', I s → step s a = some s' → (I s' ↔ C s a)) (hs : I s)
    (ht : trace step s as = some ss) : (∀ x ∈ ss, I x) ↔ ∀ x ∈ steps s as ss, C x.1 x.2 :=
  forall_trace_iff_of_invariant (A := fun _ _ => True)
    (fun s a s' hI _ hs' => ⟨hstep s a s' hI hs', (hstep s a s' hI hs').mpr⟩) hs ht
    fun _ _ => trivial

theorem forall_trace_of_step {I : σ → Prop} {C : σ → α → Prop}
    (hstep : ∀ s a s', I s → C s a → step s a = some s' → I s') (hs : I s)
    (ht : trace step s as = some ss) (hC : ∀ x ∈ steps s as ss, C x.1 x.2) : ∀ x ∈ ss, I x := by
  induction as generalizing s ss with
  | nil =>
    cases ht
    simp
  | cons a as ih =>
    obtain ⟨s', rest, hs', hrest, rfl⟩ := trace_cons_eq_some_iff.mp ht
    rw [steps_cons, forall_mem_cons] at hC
    have hI := hstep s a s' hs hC.1 hs'
    rw [forall_mem_cons]
    exact ⟨hI, ih hI hrest hC.2⟩

end NyksNode
