import NyksNode.Lib.Evaluate
import Mathlib.Control.Basic
import Mathlib.Data.List.Basic

/-!
# Computations that may panic or report an error

A function of a program can return a value, report an error to its caller, or panic.
`Fallible ε α` has all three outcomes: `none` is a panic, and the rest is an `Except`.
`Returns` says that a computation returns a value; the lemmas about it take a `do`
block apart, one line at a time.
-/

namespace NyksNode

open List

abbrev Fallible (ε α : Type) := ExceptT ε Option α

namespace Fallible
variable {ε α β : Type}

def orPanic (x : Option α) : Fallible ε α := ExceptT.lift x

def ensure (condition : Bool) (e : ε) : Fallible ε Unit :=
  if condition then pure () else throw e

/-- The computation neither panics nor reports an error, and returns `a`. -/
def Returns (x : Fallible ε α) (a : α) : Prop := x.run = some (.ok a)

variable {x : Fallible ε α} {a : α}

theorem Returns.unique {b : α} (ha : x.Returns a) (hb : x.Returns b) : a = b := by
  rw [Returns] at ha hb
  rw [ha] at hb
  simpa using hb

@[simp] theorem returns_pure {b : α} : Returns (pure a : Fallible ε α) b ↔ a = b := by
  change some (Except.ok a : Except ε α) = some (.ok b) ↔ _
  simp

variable {e : ε}

@[simp] theorem returns_throw : ¬ Returns (throw e : Fallible ε α) a := by
  change ¬ (some (Except.error e : Except ε α) = some (.ok a))
  simp

@[simp] theorem returns_orPanic {x : Option α} :
    Returns (orPanic x : Fallible ε α) a ↔ x = some a := by
  change Option.map Except.ok x = some (.ok a) ↔ _
  cases x <;> simp

@[simp] theorem returns_liftExcept {x : Except ε α} :
    Returns (liftExcept x : Fallible ε α) a ↔ x = .ok a := by
  cases x with
  | error e => simp [liftExcept]
  | ok b => simp [liftExcept]

theorem eq_ok_of_toOption {x : Except ε α} (h : x.toOption = some a) : x = .ok a := by
  cases x with
  | error e => cases h
  | ok b =>
    cases h
    rfl

@[simp] theorem returns_ensure {c : Bool} {u : Unit} : Returns (ensure c e) u ↔ c = true := by
  cases c with
  | false => simp [ensure]
  | true => simp [ensure]

/-- A computation in two parts stops with the first part, or goes on with its value. -/
theorem run_bind (x : Fallible ε α) (f : α → Fallible ε β) : (x >>= f).run = x.run.bind fun
      | .ok a => (f a).run
      | .error e => some (.error e) := by
  rw [ExceptT.run_bind]
  rfl

/-- A computation in two parts returns what the second part makes of the value of the first. -/
@[simp] theorem returns_bind {f : α → Fallible ε β} {b : β} :
    Returns (x >>= f) b ↔ ∃ a, Returns x a ∧ Returns (f a) b := by
  rw [Returns, run_bind]
  cases hx : x.run with
  | none => simp [Returns, hx]
  | some r =>
    cases r with
    | error e => simp [Returns, hx]
    | ok a => simp [Returns, hx]

variable {l : List α}

@[simp] theorem returns_forM {f : α → Fallible ε Unit} {u : Unit} :
    Returns (l.forM f) u ↔ ∀ a ∈ l, Returns (f a) () := by
  induction l with
  | nil => simp
  | cons a l ih =>
    rw [forM_eq_forM] at ih
    have hunit : (∃ v, (f a).Returns v) ↔ (f a).Returns () :=
      ⟨fun ⟨_, hv⟩ => hv, fun hv => ⟨(), hv⟩⟩
    simp [ih, hunit]

/-! ## Errors and panics -/

/-- The computation reports an error. -/
def Reports (x : Fallible ε α) : Prop := ∃ e, x.run = some (.error e)

def Panics (x : Fallible ε α) : Prop := x.run = none

theorem Returns.not_reports (ha : x.Returns a) : ¬ x.Reports := by
  intro hx
  obtain ⟨e, he⟩ := hx
  rw [Returns, he] at ha
  cases ha

theorem Returns.not_panics (ha : x.Returns a) : ¬ x.Panics := by
  intro hx
  rw [Returns, hx] at ha
  cases ha

theorem Reports.not_panics (hx : x.Reports) : ¬ x.Panics := by
  intro hnone
  obtain ⟨e, he⟩ := hx
  rw [hnone] at he
  cases he

theorem reports_throw (e : ε) : Reports (throw e : Fallible ε α) := ⟨e, rfl⟩

theorem reports_ensure {c : Bool} (hc : c = false) : Reports (ensure c e) := by
  rw [hc]
  exact reports_throw e

theorem panics_orPanic {x : Option α} (hx : x = none) : Panics (orPanic x : Fallible ε α) := by
  rw [hx]
  rfl

@[simp] theorem not_reports_orPanic {x : Option α} : ¬ Reports (orPanic x : Fallible ε α) := by
  intro h
  obtain ⟨e, he⟩ := h
  change Option.map Except.ok x = some (.error e) at he
  cases x with
  | none => cases he
  | some a => cases he

@[simp] theorem not_reports_pure (a : α) : ¬ Reports (pure a : Fallible ε α) :=
  Returns.not_reports (returns_pure.mpr rfl)

@[simp] theorem reports_adapt {ε' : Type} {wrap : ε → ε'} :
    Reports (ExceptT.adapt wrap x) ↔ x.Reports := by
  change (∃ e, (x.run.map fun r => r.mapError wrap) = some (.error e)) ↔ _
  cases hx : x.run with
  | none => simp [Reports, hx]
  | some r =>
    cases r with
    | error e => simp [Reports, hx, Except.mapError]
    | ok a => simp [Reports, hx, Except.mapError]

section
variable {x : Fallible ε α} {f : α → Fallible ε β} {a : α}

theorem Reports.bind (hx : x.Reports) : Reports (x >>= f) := by
  obtain ⟨e, he⟩ := hx
  exact ⟨e, by rw [run_bind, he]; rfl⟩

theorem Panics.bind (hx : x.Panics) : Panics (x >>= f) := by
  rw [Panics, run_bind, hx]
  rfl

/-- After a first part that returns, everything depends on the second. -/
theorem Returns.run_bind_eq (ha : x.Returns a) : (x >>= f).run = (f a).run := by
  rw [run_bind, ha]
  rfl

theorem Returns.bind_reports (ha : x.Returns a) (hf : (f a).Reports) : Reports (x >>= f) := by
  rw [Reports, ha.run_bind_eq]
  exact hf

theorem Returns.bind_panics (ha : x.Returns a) (hf : (f a).Panics) : Panics (x >>= f) := by
  rw [Panics, ha.run_bind_eq]
  exact hf

end

theorem reports_bind_iff {f : α → Fallible ε β} :
    Reports (x >>= f) ↔ x.Reports ∨ ∃ a, x.Returns a ∧ (f a).Reports := by
  rw [Reports, run_bind]
  cases hx : x.run with
  | none => simp [Reports, Returns, hx]
  | some r =>
    cases r with
    | error e => simp [Reports, Returns, hx]
    | ok a => simp [Reports, Returns, hx]

variable {f : β → α → Fallible ε β}

/-- A loop reports an error if it gets to an element at which it does. -/
theorem reports_foldlM_iff {b : β} : Reports (l.foldlM f b) ↔
      ∃ before a after b', l = before ++ a :: after ∧ Returns (before.foldlM f b) b' ∧
        (f b' a).Reports := by
  induction l generalizing b with
  | nil =>
    rw [foldlM_nil]
    constructor
    · intro h
      exact absurd h (not_reports_pure b)
    · intro h
      obtain ⟨before, a, after, b', heq, -⟩ := h
      simp at heq
  | cons a l ih =>
    rw [foldlM_cons, reports_bind_iff]
    constructor
    · intro h
      cases h with
      | inl hfirst => exact ⟨[], a, l, b, rfl, returns_pure.mpr rfl, hfirst⟩
      | inr hrest =>
        obtain ⟨b', hb', hrest⟩ := hrest
        obtain ⟨before, a', after, b'', rfl, hbefore, hreports⟩ := ih.mp hrest
        refine ⟨a :: before, a', after, b'', rfl, ?_, hreports⟩
        rw [foldlM_cons]
        exact returns_bind.mpr ⟨b', hb', hbefore⟩
    · intro h
      obtain ⟨before, a', after, b', heq, hbefore, hreports⟩ := h
      cases before with
      | nil =>
        rw [foldlM_nil, returns_pure] at hbefore
        obtain ⟨rfl, rfl⟩ := List.cons.inj heq
        exact .inl (hbefore ▸ hreports)
      | cons a'' before =>
        obtain ⟨rfl, rfl⟩ := List.cons.inj heq
        rw [foldlM_cons, returns_bind] at hbefore
        obtain ⟨b'', hb'', hbefore⟩ := hbefore
        exact .inr ⟨b'', hb'', ih.mpr ⟨before, a', after, b', rfl, hbefore, hreports⟩⟩

section
variable {f : α → Fallible ε β} {l : List α}

theorem exists_of_returns_mapM {bs : List β} (h : (l.mapM f).Returns bs) :
    ∀ b ∈ bs, ∃ a ∈ l, (f a).Returns b := by
  induction l generalizing bs with
  | nil =>
    cases returns_pure.mp h
    simp
  | cons a l ih =>
    simp only [mapM_cons, returns_bind, returns_pure] at h
    obtain ⟨b, hb, rest, hrest, rfl⟩ := h
    rw [forall_mem_cons]
    refine ⟨⟨a, mem_cons_self, hb⟩, fun b' hb' => ?_⟩
    obtain ⟨a', ha', hreturns⟩ := ih hrest b' hb'
    exact ⟨a', mem_cons_of_mem _ ha', hreturns⟩

theorem exists_returns_mapM {Q : α → β → Prop} (hf : ∀ a ∈ l, ∃ b, (f a).Returns b ∧ Q a b) :
    ∃ bs, (l.mapM f).Returns bs ∧ bs.length = l.length ∧ (∀ a ∈ l, ∃ b ∈ bs, Q a b) ∧
      ∀ b ∈ bs, ∃ a ∈ l, Q a b := by
  induction l with
  | nil => exact ⟨[], returns_pure.mpr rfl, rfl, by simp, by simp⟩
  | cons a l ih =>
    obtain ⟨b, hb, hQ⟩ := hf a mem_cons_self
    obtain ⟨bs, hbs, hlength, hleft, hright⟩ := ih fun a ha => hf a (mem_cons_of_mem _ ha)
    refine ⟨b :: bs, ?_, by rw [length_cons, length_cons, hlength], ?_, ?_⟩
    · rw [mapM_cons, returns_bind]
      refine ⟨b, hb, ?_⟩
      rw [returns_bind]
      exact ⟨bs, hbs, returns_pure.mpr rfl⟩
    · rw [forall_mem_cons]
      refine ⟨⟨b, mem_cons_self, hQ⟩, fun a' ha' => ?_⟩
      obtain ⟨b', hb', hQ'⟩ := hleft a' ha'
      exact ⟨b', mem_cons_of_mem _ hb', hQ'⟩
    · rw [forall_mem_cons]
      refine ⟨⟨a, mem_cons_self, hQ⟩, fun b' hb' => ?_⟩
      obtain ⟨a', ha', hQ'⟩ := hright b' hb'
      exact ⟨a', mem_cons_of_mem _ ha', hQ'⟩

/-- A loop whose rounds do not panic, one of which reports an error. -/
theorem reports_mapM (hf : ∀ a ∈ l, (∃ b, (f a).Returns b) ∨ (f a).Reports)
    (hl : ∃ a ∈ l, (f a).Reports) : (l.mapM f).Reports := by
  induction l with
  | nil =>
    obtain ⟨a, ha, -⟩ := hl
    cases ha
  | cons a l ih =>
    rw [mapM_cons]
    cases hf a mem_cons_self with
    | inr hreports => exact hreports.bind
    | inl hreturns =>
      obtain ⟨b, hb⟩ := hreturns
      refine hb.bind_reports (Reports.bind (ih (fun a ha => hf a (mem_cons_of_mem _ ha)) ?_))
      obtain ⟨a', ha', hreports⟩ := hl
      cases mem_cons.mp ha' with
      | inl heq => exact absurd (heq ▸ hreports) hb.not_reports
      | inr hmem => exact ⟨a', hmem, hreports⟩

theorem reports_mapM_of_head {a : α} (ha : a ∈ l.head?) (hf : (f a).Reports) :
    (l.mapM f).Reports := by
  obtain ⟨l, rfl⟩ := head?_eq_some_iff.mp ha
  rw [mapM_cons]
  exact hf.bind

theorem panics_mapM_of_head {a : α} (ha : a ∈ l.head?) (hf : (f a).Panics) : (l.mapM f).Panics := by
  obtain ⟨l, rfl⟩ := head?_eq_some_iff.mp ha
  rw [mapM_cons]
  exact hf.bind

end

theorem toOption_join_eq_some {x : Except ε (Option α)} :
    x.toOption.join = some a ↔ x = .ok (some a) := by
  cases x <;> simp [Except.toOption]

/-- `unwrap` and `expect`: an error is a panic. -/
def unwrap (x : Fallible ε α) : Option α :=
  x.run.bind fun
    | .ok a => some a
    | .error _ => none

@[simp] theorem unwrap_eq_some_iff : x.unwrap = some a ↔ Returns x a := by
  rw [unwrap, Returns]
  cases hx : x.run with
  | none => simp
  | some r => cases r <;> simp

instance (p : α → Prop) [DecidablePred p] : Decidable (∃ a, x.Returns a ∧ p a) :=
  decidable_of_iff (∃ a, x.unwrap = some a ∧ p a) (by simp only [unwrap_eq_some_iff])

/-! ## Loops with fuel

Where a panic is an error with its reason, `none` is left for a loop that has run out of fuel. -/

def orElse (x : Option α) (reason : ε) : Fallible ε α :=
  match x with
  | some a => pure a
  | none => throw reason

def unfinished : Fallible ε α := orPanic none

@[simp] theorem returns_orElse {x : Option α} {reason : ε} :
    Returns (orElse x reason) a ↔ x = some a := by
  cases x <;> simp [orElse]

@[simp] theorem not_returns_unfinished : ¬ Returns (unfinished : Fallible ε α) a := by
  simp [unfinished]

/-- The computation does not run out of fuel. -/
def Finishes (x : Fallible ε α) : Prop := x.run ≠ none

theorem finishes_pure (a : α) : Finishes (pure a : Fallible ε α) := Option.some_ne_none _

theorem finishes_throw (e : ε) : Finishes (throw e : Fallible ε α) := Option.some_ne_none _

theorem finishes_orElse (x : Option α) (reason : ε) : Finishes (orElse x reason) := by
  cases x with
  | none => exact finishes_throw reason
  | some a => exact finishes_pure a

theorem finishes_liftExcept (x : Except ε α) : Finishes (liftExcept x : Fallible ε α) := by
  cases x with
  | error e => exact finishes_throw e
  | ok a => exact finishes_pure a

theorem Finishes.bind {f : α → Fallible ε β} (hx : x.Finishes)
    (hf : ∀ a, x.Returns a → (f a).Finishes) : Finishes (x >>= f) := by
  rw [Finishes, run_bind]
  cases hrun : x.run with
  | none => exact absurd hrun hx
  | some r =>
    cases r with
    | error e => exact Option.some_ne_none _
    | ok a => exact hf a hrun

theorem returns_foldlM_cons {s s' : β} :
    Returns ((a :: l).foldlM f s) s' ↔ ∃ t, Returns (f s a) t ∧ Returns (l.foldlM f t) s' := by
  rw [foldlM_cons, returns_bind]

theorem finishes_foldlM (hf : ∀ s a, (f s a).Finishes) (l : List α) (s : β) :
    Finishes (l.foldlM f s) := by
  induction l generalizing s with
  | nil => exact finishes_pure s
  | cons a l ih =>
    rw [foldlM_cons]
    exact (hf s a).bind fun t _ => ih t

end Fallible

end NyksNode
