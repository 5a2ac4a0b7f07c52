import Mathlib.Data.Option.Basic

/-!
# Runs that can be evaluated

"The run ends, and what it ends with has this property" is decidable: the run is evaluated, and it
ends with at most one value.
-/

namespace NyksNode

variable {ε α β γ : Type}

instance decidableExistsEqSome (o : Option α) (p : α → Prop) [DecidablePred p] :
    Decidable (∃ a, o = some a ∧ p a) :=
  decidable_of_iff (o.any (fun a => decide (p a)) = true) (by simp [Option.any_eq_true])

instance decidableExistsEqPair (o : Option (α × β)) (p : α → β → Prop)
    [∀ a b, Decidable (p a b)] : Decidable (∃ a b, o = some (a, b) ∧ p a b) :=
  decidable_of_iff (∃ x, o = some x ∧ p x.1 x.2) Prod.exists

instance decidableExistsEqTriple (o : Option (α × β × γ)) (p : α → β → γ → Prop)
    [∀ a b c, Decidable (p a b c)] : Decidable (∃ a b c, o = some (a, b, c) ∧ p a b c) :=
  decidable_of_iff (∃ a y, o = some (a, y) ∧ p a y.1 y.2) (by simp only [Prod.exists])

instance decidableExistsEqOk (o : Option (Except ε (α × β))) (p : α → β → Prop)
    [∀ a b, Decidable (p a b)] : Decidable (∃ a b, o = some (.ok (a, b)) ∧ p a b) :=
  decidable_of_iff (∃ a b, o.bind Except.toOption = some (a, b) ∧ p a b) (by
    rcases o with _ | _ | _ <;> simp [Except.toOption])

instance decidableExistsEqOkFst (o : Option (Except ε α × β)) (p : α → β → Prop)
    [∀ a b, Decidable (p a b)] : Decidable (∃ a b, o = some (.ok a, b) ∧ p a b) :=
  decidable_of_iff (∃ a b, (o.bind fun x => x.1.toOption.map (·, x.2)) = some (a, b) ∧ p a b) (by
    rcases o with _ | ⟨_ | _, _⟩ <;> simp [Except.toOption])

end NyksNode
