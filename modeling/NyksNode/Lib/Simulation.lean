import Mathlib.Data.Option.Basic
import Mathlib.Data.List.Basic

/-!
# Machines that answer calls

A data structure is a partial step function: a call leads to a new state and a reply, or to
a panic.  One machine refines another if related states answer every call alike and stay
related; then whole runs answer alike.
-/

namespace NyksNode

variable {σ τ α β : Type*}

/-- Make a list of calls, and collect the replies.  A panic ends the run. -/
def runCalls (step : σ → α → Option (σ × β)) : σ → List α → Option (σ × List β)
  | s, [] => some (s, [])
  | s, call :: calls => do
    let (s, reply) ← step s call
    let (s, replies) ← runCalls step s calls
    some (s, reply :: replies)

/-- Every call of the run is made in a state where the condition holds. -/
def callsMeet (p : σ → α → Bool) (step : σ → α → Option (σ × β)) : σ → List α → Bool
  | _, [] => true
  | s, call :: calls => p s call && (step s call).all fun y => callsMeet p step y.1 calls

/-- Two outcomes with equal replies and related states, or two panics. -/
def Agrees (R : σ → τ → Prop) : Option (σ × β) → Option (τ × β) → Prop
  | none, none => True
  | some x, some y => R x.1 y.1 ∧ x.2 = y.2
  | _, _ => False

variable {R : σ → τ → Prop} {f : σ → α → Option (σ × β)} {g : τ → α → Option (τ × β)}

/-- **Refinement of runs.** -/
theorem agrees_runCalls {p : σ → α → Bool}
    (hstep : ∀ s t, R s t → ∀ a, p s a = true → Agrees R (f s a) (g t a)) (calls : List α) :
    ∀ s t, R s t → callsMeet p f s calls = true →
      Agrees R (runCalls f s calls) (runCalls g t calls) := by
  induction calls with
  | nil =>
    intro s t hst _
    exact ⟨hst, rfl⟩
  | cons a calls ih =>
    intro s t hst hmeet
    rw [callsMeet, Bool.and_eq_true] at hmeet
    have ha := hstep s t hst a hmeet.1
    rw [runCalls, runCalls]
    cases hf : f s a with
    | none =>
      cases hg : g t a with
      | none => trivial
      | some y => simp [hf, hg, Agrees] at ha
    | some x =>
      cases hg : g t a with
      | none => simp [hf, hg, Agrees] at ha
      | some y =>
        rw [hf, hg] at ha
        have hrest := ih x.1 y.1 ha.1 (by simpa [hf] using hmeet.2)
        simp only [Option.bind_eq_bind, Option.bind_some]
        cases hx : runCalls f x.1 calls with
        | none =>
          cases hy : runCalls g y.1 calls with
          | none => trivial
          | some w => simp [hx, hy, Agrees] at hrest
        | some z =>
          cases hy : runCalls g y.1 calls with
          | none => simp [hx, hy, Agrees] at hrest
          | some w =>
            rw [hx, hy] at hrest
            exact ⟨hrest.1, congrArg₂ List.cons ha.2 hrest.2⟩

theorem callsMeet_true (f : σ → α → Option (σ × β)) (s : σ) (calls : List α) :
    callsMeet (fun _ _ => true) f s calls = true := by
  induction calls generalizing s with
  | nil => rfl
  | cons a calls ih =>
    rw [callsMeet]
    cases f s a with
    | none => rfl
    | some y => exact ih y.1

theorem Agrees.map_snd_eq {x : Option (σ × β)} {y : Option (τ × β)} (h : Agrees R x y) :
    x.map (·.2) = y.map (·.2) := by
  cases x with
  | none =>
    cases y with
    | none => rfl
    | some y => cases h
  | some x =>
    cases y with
    | none => cases h
    | some y => exact congrArg some h.2

/-- Related states give equal replies to every list of calls that meet the condition. -/
theorem runCalls_eq_of_meets {p : σ → α → Bool}
    (hstep : ∀ s t, R s t → ∀ a, p s a = true → Agrees R (f s a) (g t a)) {s : σ} {t : τ}
    (hst : R s t) {calls : List α} (hmeet : callsMeet p f s calls = true) :
    (runCalls f s calls).map (·.2) = (runCalls g t calls).map (·.2) :=
  (agrees_runCalls hstep calls s t hst hmeet).map_snd_eq

theorem runCalls_eq_of_agrees (hstep : ∀ s t, R s t → ∀ a, Agrees R (f s a) (g t a)) {s : σ} {t : τ}
    (hst : R s t) (calls : List α) :
    (runCalls f s calls).map (·.2) = (runCalls g t calls).map (·.2) :=
  runCalls_eq_of_meets (fun s t hst a _ => hstep s t hst a) hst (callsMeet_true f s calls)

end NyksNode
