import Mathlib.Control.Basic

/-!
# Computations with a state

A handler of a long-lived task reads and writes the state of the task, may report an error to its
caller, and may panic.  The state survives an error, but not a panic.

`Ensures P x Q E` is partial correctness: started where `P` holds, `x` ends where `Q` holds if it
returns, and where `E` holds if it reports an error.  `Completes P x Q E` is total correctness: `x`
does not panic either.  The rules follow the lines of a `do` block.
-/

namespace NyksNode

open Option

/-- A computation with a state, that may report an error or panic. -/
abbrev Effect (σ ε α : Type) := ExceptT ε (StateT σ Option) α

namespace Effect
variable {σ ε α β : Type}

def start (x : Effect σ ε α) (s : σ) : Option (Except ε α × σ) := StateT.run (ExceptT.run x) s

def orPanic (x : Option α) : Effect σ ε α := ExceptT.lift (StateT.lift x)

/-- The outcome of a call that does not touch the state. -/
def attempt (x : Except ε α) : Effect σ ε α := ExceptT.mk (pure x)

def read : Effect σ ε σ := ExceptT.lift get

def update (f : σ → σ) : Effect σ ε Unit := ExceptT.lift (modify f)

/-- Run a computation on a part of the state. -/
def focus {τ ε' : Type} (part : σ → τ) (withPart : σ → τ → σ) (wrap : ε' → ε)
    (x : Effect τ ε' α) : Effect σ ε α :=
  ExceptT.mk fun s => (start x (part s)).map fun r => (r.1.mapError wrap, withPart s r.2)

/-- Run a computation, whether it returns or reports an error. -/
def outcome {ε' : Type} (x : Effect σ ε α) : Effect σ ε' (Option α) :=
  ExceptT.mk fun s => (start x s).map fun r => (.ok r.1.toOption, r.2)

@[simp] theorem start_pure (a : α) (s : σ) :
    start (pure a : Effect σ ε α) s = some (.ok a, s) := rfl

@[simp] theorem start_read (s : σ) : start (read : Effect σ ε σ) s = some (.ok s, s) := rfl

@[simp] theorem start_update (f : σ → σ) (s : σ) :
    start (update f : Effect σ ε Unit) s = some (.ok (), f s) := rfl

@[simp] theorem start_orPanic (x : Option α) (s : σ) :
    start (orPanic x : Effect σ ε α) s = x.map fun a => (.ok a, s) := by
  cases x <;> rfl

@[simp] theorem orPanic_some (a : α) : (orPanic (some a) : Effect σ ε α) = pure a := rfl

@[simp] theorem attempt_ok (a : α) : (attempt (.ok a) : Effect σ ε α) = pure a := rfl

theorem start_focus {τ ε' : Type} (part : σ → τ) (withPart : σ → τ → σ) (wrap : ε' → ε)
    (x : Effect τ ε' α) (s : σ) : start (focus part withPart wrap x) s =
      (start x (part s)).map fun r => (r.1.mapError wrap, withPart s r.2) := rfl

theorem start_outcome {ε' : Type} (x : Effect σ ε α) (s : σ) :
    start (outcome x : Effect σ ε' (Option α)) s =
      (start x s).map fun r => (.ok r.1.toOption, r.2) := rfl

theorem start_bind (x : Effect σ ε α) (f : α → Effect σ ε β) (s : σ) :
    start (x >>= f) s = (start x s).bind fun r => match r with
      | (.ok a, s') => start (f a) s'
      | (.error e, s') => some (.error e, s') := by
  change (start x s).bind (fun r => StateT.run (ExceptT.bindCont f r.1) r.2) = _
  congr 1
  funext r
  obtain ⟨outcome, s'⟩ := r
  cases outcome <;> rfl

section
variable {f : α → Effect σ ε β} {s : σ}

@[simp] theorem start_read_bind {f : σ → Effect σ ε β} : start (read >>= f) s = start (f s) s := by
  rw [start_bind, start_read, bind_some]

@[simp] theorem start_orPanic_bind (x : Option α) :
    start (orPanic x >>= f) s = x.bind fun a => start (f a) s := by
  rw [start_bind, start_orPanic]
  cases x <;> rfl

theorem start_bind_of_ok {x : Effect σ ε α} {a : α} {t : σ} (h : start x s = some (.ok a, t)) :
    start (x >>= f) s = start (f a) t := by
  rw [start_bind, h, bind_some]

theorem start_bind_of_error {x : Effect σ ε α} {e : ε} {t : σ}
    (h : start x s = some (.error e, t)) : start (x >>= f) s = some (.error e, t) := by
  rw [start_bind, h, bind_some]

theorem start_outcome_bind {ε' : Type} {x : Effect σ ε' α} {f : Option α → Effect σ ε β}
    {r : Except ε' α} {t : σ} (h : start x s = some (r, t)) :
    start (outcome x >>= f) s = start (f r.toOption) t := by
  rw [start_bind, start_outcome, h, map_some, bind_some]

theorem start_bind_eq_some_iff {x : Effect σ ε α} {r : Except ε β} {s' : σ} :
    start (x >>= f) s = some (r, s') ↔
      (∃ a t, start x s = some (.ok a, t) ∧ start (f a) t = some (r, s')) ∨
        ∃ e, start x s = some (.error e, s') ∧ r = .error e := by
  rw [start_bind]
  cases start x s with
  | none => simp
  | some r₁ =>
    obtain ⟨outcome, t⟩ := r₁
    cases outcome with
    | ok a =>
      refine ⟨fun h => Or.inl ⟨a, t, rfl, h⟩, ?_⟩
      rintro (⟨_, _, heq, h⟩ | ⟨_, heq, _⟩)
      · cases heq
        exact h
      · cases heq
    | error e =>
      refine ⟨?_, ?_⟩
      · intro h
        cases h
        exact Or.inr ⟨e, rfl, rfl⟩
      · rintro (⟨_, _, heq, _⟩ | ⟨_, heq, h⟩)
        · cases heq
        · cases heq
          rw [h]
          rfl

end

/-- Where a computation ends, if it does not panic. -/
structure Ensures (P : σ → Prop) (x : Effect σ ε α) (Q : α → σ → Prop) (E : σ → Prop) : Prop where
  ok : ∀ {s a s'}, P s → start x s = some (.ok a, s') → Q a s'
  error : ∀ {s e s'}, P s → start x s = some (.error e, s') → E s'

namespace Ensures
variable {P P' : σ → Prop} {Q Q' : α → σ → Prop} {R : β → σ → Prop} {E E' : σ → Prop}
  {x y : Effect σ ε α} {f : α → Effect σ ε β}

theorem pure {a : α} (h : ∀ s, P s → Q a s) : Ensures P (Pure.pure a : Effect σ ε α) Q E := by
  constructor
  · intro s b s' hs hrun
    cases hrun
    exact h s hs
  · intro s e s' _ hrun
    cases hrun

theorem bind (hx : Ensures P x Q E) (hf : ∀ a, Ensures (Q a) (f a) R E) :
    Ensures P (x >>= f) R E := by
  constructor
  · intro s b s' hs hrun
    rw [start_bind, bind_eq_some_iff] at hrun
    obtain ⟨⟨outcome, s₁⟩, hx₁, hrun⟩ := hrun
    cases outcome with
    | ok a => exact (hf a).ok (hx.ok hs hx₁) hrun
    | error e => cases hrun
  · intro s e s' hs hrun
    rw [start_bind, bind_eq_some_iff] at hrun
    obtain ⟨⟨outcome, s₁⟩, hx₁, hrun⟩ := hrun
    cases outcome with
    | ok a => exact (hf a).error (hx.ok hs hx₁) hrun
    | error e =>
      cases hrun
      exact hx.error hs hx₁

theorem read (h : ∀ s, P s → P' s) :
    Ensures P (Effect.read : Effect σ ε σ) (fun a s => a = s ∧ P' s) E := by
  constructor
  · intro s a s' hs hrun
    cases hrun
    exact ⟨rfl, h s hs⟩
  · intro s e s' _ hrun
    cases hrun

theorem update {g : σ → σ} {Q : Unit → σ → Prop} (h : ∀ s, P s → Q () (g s)) :
    Ensures P (Effect.update g : Effect σ ε Unit) Q E := by
  constructor
  · intro s a s' hs hrun
    cases hrun
    exact h s hs
  · intro s e s' _ hrun
    cases hrun

theorem orPanic {o : Option α} (h : ∀ s a, P s → o = some a → Q a s) :
    Ensures P (Effect.orPanic o : Effect σ ε α) Q E := by
  cases o with
  | none => exact ⟨fun _ hrun => (nomatch hrun), fun _ hrun => (nomatch hrun)⟩
  | some a => exact pure fun s hs => h s a hs rfl

theorem attempt {o : Except ε α} (hok : ∀ s a, P s → o = .ok a → Q a s) (herror : ∀ s, P s → E s) :
    Ensures P (Effect.attempt o : Effect σ ε α) Q E := by
  constructor
  · intro s a s' hs hrun
    cases hrun
    exact hok s a hs rfl
  · intro s e s' hs hrun
    cases hrun
    exact herror s hs

theorem ite {c : Prop} [Decidable c] (hx : c → Ensures P x Q E) (hy : ¬ c → Ensures P y Q E) :
    Ensures P (if c then x else y) Q E := by
  by_cases hc : c
  · rw [if_pos hc]
    exact hx hc
  · rw [if_neg hc]
    exact hy hc

theorem mono (h : Ensures P x Q E) (hP : ∀ s, P' s → P s) (hQ : ∀ a s, Q a s → Q' a s)
    (hE : ∀ s, E s → E' s) : Ensures P' x Q' E' :=
  ⟨fun hs hrun => hQ _ _ (h.ok (hP _ hs) hrun), fun hs hrun => hE _ (h.error (hP _ hs) hrun)⟩

theorem of_fact {c : Prop} (h : c → Ensures P x Q E) : Ensures (fun s => c ∧ P s) x Q E :=
  ⟨fun hs => (h hs.1).ok hs.2, fun hs => (h hs.1).error hs.2⟩

end Ensures

def Completes (P : σ → Prop) (x : Effect σ ε α) (Q : α → σ → Prop) (E : σ → Prop) : Prop :=
  ∀ s, P s → (∃ a s', start x s = some (.ok a, s') ∧ Q a s') ∨
    ∃ e s', start x s = some (.error e, s') ∧ E s'

namespace Completes
variable {P P' : σ → Prop} {Q Q' : α → σ → Prop} {R : β → σ → Prop} {E E' : σ → Prop}
  {x : Effect σ ε α} {f : α → Effect σ ε β}

theorem pure {a : α} (h : ∀ s, P s → Q a s) : Completes P (Pure.pure a : Effect σ ε α) Q E :=
  fun s hs => Or.inl ⟨a, s, rfl, h s hs⟩

theorem bind (hx : Completes P x Q E) (hf : ∀ a, Completes (Q a) (f a) R E) :
    Completes P (x >>= f) R E := by
  intro s hs
  cases hx s hs with
  | inl hok =>
    obtain ⟨a, s₁, hrun, hQ⟩ := hok
    rw [start_bind_of_ok hrun]
    exact hf a s₁ hQ
  | inr herror =>
    obtain ⟨e, s₁, hrun, hE⟩ := herror
    exact Or.inr ⟨e, s₁, start_bind_of_error hrun, hE⟩

theorem attempt {o : Except ε α} (hok : ∀ s a, P s → o = .ok a → Q a s)
    (herror : ∀ s, P s → E s) : Completes P (Effect.attempt o : Effect σ ε α) Q E := by
  intro s hs
  cases o with
  | ok a => exact Or.inl ⟨a, s, rfl, hok s a hs rfl⟩
  | error e => exact Or.inr ⟨e, s, rfl, herror s hs⟩

theorem update {g : σ → σ} {Q : Unit → σ → Prop} (h : ∀ s, P s → Q () (g s)) :
    Completes P (Effect.update g : Effect σ ε Unit) Q E :=
  fun s hs => Or.inl ⟨(), g s, rfl, h s hs⟩

theorem outcome {ε' : Type} {R : Option α → σ → Prop} {E' : σ → Prop} (hx : Completes P x Q E)
    (hok : ∀ a s, Q a s → R (some a) s) (herror : ∀ s, E s → R none s) :
    Completes P (Effect.outcome x : Effect σ ε' (Option α)) R E' := by
  intro s hs
  rw [start_outcome]
  cases hx s hs with
  | inl h =>
    obtain ⟨a, s₁, hrun, hQ⟩ := h
    exact Or.inl ⟨some a, s₁, by rw [hrun]; rfl, hok a s₁ hQ⟩
  | inr h =>
    obtain ⟨e, s₁, hrun, hE⟩ := h
    exact Or.inl ⟨none, s₁, by rw [hrun]; rfl, herror s₁ hE⟩

theorem mono (hx : Completes P x Q E) (hP : ∀ s, P' s → P s) (hQ : ∀ a s, Q a s → Q' a s)
    (hE : ∀ s, E s → E' s) : Completes P' x Q' E' := by
  intro s hs
  refine (hx s (hP s hs)).imp ?_ ?_
  · exact fun ⟨a, s₁, hrun, h⟩ => ⟨a, s₁, hrun, hQ a s₁ h⟩
  · exact fun ⟨e, s₁, hrun, h⟩ => ⟨e, s₁, hrun, hE s₁ h⟩

theorem of_fact {c : Prop} (h : c → Completes P x Q E) : Completes (fun s => c ∧ P s) x Q E :=
  fun s hs => h hs.1 s hs.2

end Completes

end Effect

end NyksNode
