import Mathlib.Data.List.Basic
import Mathlib.Data.Option.Basic

/-!
# Picking until it is enough, and asking in batches

A greedy loop runs over the candidates, skips some, and stops as soon as what it has picked is
enough.  What it picks is a part of the candidates whose weights add up to the weight it ends with.

A long list of requests is sent in batches, which put together are the list.
-/

namespace NyksNode

open List

section
variable {α ω : Type} {enough : ω → Bool} {skip : α → Bool} {weigh : ω → α → Option ω}

/-- Pick elements until their weight is enough. -/
def pickUntil (enough : ω → Bool) (skip : α → Bool) (weigh : ω → α → Option ω) :
    ω → List α → Option (List α × ω)
  | w, [] => some ([], w)
  | w, a :: l =>
    if enough w then some ([], w)
    else if skip a then pickUntil enough skip weigh w l
    else do
      let w' ← weigh w a
      let (picked, total) ← pickUntil enough skip weigh w' l
      some (a :: picked, total)

/-- What is picked is a part of the list, has nothing that is skipped, and has the weight that is
returned. -/
theorem pickUntil_eq_some {w total : ω} {l picked : List α}
    (h : pickUntil enough skip weigh w l = some (picked, total)) :
    picked.Sublist l ∧ (∀ a ∈ picked, skip a = false) ∧ picked.foldlM weigh w = some total := by
  induction l generalizing w picked with
  | nil =>
    cases h
    exact ⟨.refl _, by simp, rfl⟩
  | cons a l ih =>
    rw [pickUntil] at h
    by_cases henough : enough w
    · rw [if_pos henough] at h
      cases h
      exact ⟨nil_sublist _, by simp, rfl⟩
    · rw [if_neg henough] at h
      by_cases hskip : skip a
      · rw [if_pos hskip] at h
        obtain ⟨hsub, hrest⟩ := ih h
        exact ⟨hsub.cons a, hrest⟩
      · simp only [if_neg hskip, Option.bind_eq_bind, Option.bind_eq_some_iff, Prod.exists,
          Option.some_inj, Prod.mk.injEq] at h
        obtain ⟨w', hw', rest, total', hpick, rfl, rfl⟩ := h
        obtain ⟨hsub, hnot, hfold⟩ := ih hpick
        refine ⟨hsub.cons_cons a, ?_, ?_⟩
        · rw [forall_mem_cons]
          exact ⟨Bool.eq_false_iff.mpr hskip, hnot⟩
        · rw [foldlM_cons, hw']
          exact hfold

end

section
variable {α : Type*} {n : ℕ}

/-- At most `fuel` pieces of a list. -/
def batchesAux (n : ℕ) : ℕ → List α → List (List α)
  | 0, _ => []
  | _ + 1, [] => []
  | fuel + 1, a :: l => (a :: l).take n :: batchesAux n fuel ((a :: l).drop n)

/-- A list in pieces of length `n`; the last one may be shorter. -/
def batches (n : ℕ) (l : List α) : List (List α) := batchesAux n l.length l

theorem flatten_batchesAux (hn : 0 < n) {fuel : ℕ} {l : List α} (hl : l.length ≤ fuel) :
    (batchesAux n fuel l).flatten = l := by
  induction fuel generalizing l with
  | zero =>
    rw [eq_nil_of_length_eq_zero (Nat.le_zero.mp hl)]
    rfl
  | succ fuel ih =>
    cases l with
    | nil => rfl
    | cons a l =>
      have hdrop : ((a :: l).drop n).length ≤ fuel := by
        rw [length_drop]
        rw [length_cons] at hl ⊢
        omega
      rw [batchesAux, flatten_cons, ih hdrop, take_append_drop]

theorem flatten_batches (hn : 0 < n) (l : List α) : (batches n l).flatten = l :=
  flatten_batchesAux hn (Nat.le_refl _)

end

end NyksNode
