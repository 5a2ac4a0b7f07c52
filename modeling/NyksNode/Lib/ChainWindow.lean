import Mathlib.Data.List.Chain
import Mathlib.Data.List.TakeDrop

/-!
# A window over the end of a linked chain

A follower of a chain of linked blocks keeps the latest ones in a window.  A batch of new blocks is
put on the block of the window that its first block names as its parent; what the window held above
that block is dropped.  Blocks that are deep enough leave the window and are settled.

Nothing connects a window without blocks to the settled ones, so the settled blocks and the window
are one chain exactly as long as no batch leaves a gap there.
-/

namespace NyksNode

open List Option

variable {β δ : Type*} [DecidableEq δ]

/-- How many blocks of a window stay below a batch with the given first parent.  The last block is
looked at first. -/
def attachPoint (p : δ) (hashes : List δ) : Option ℕ :=
  if hashes = [] then some 0
  else if hashes.getLast? = some p then some hashes.length
  else (hashes.idxOf? p).map (· + 1)

theorem getLast?_take_of_attachPoint {p : δ} {hashes : List δ} {n : ℕ} (hne : hashes ≠ [])
    (hn : attachPoint p hashes = some n) : (hashes.take n).getLast? = some p := by
  rw [attachPoint, if_neg hne] at hn
  by_cases hlast : hashes.getLast? = some p
  · rw [if_pos hlast, some_inj] at hn
    rw [← hn, take_length, hlast]
  · rw [if_neg hlast, map_eq_some_iff] at hn
    obtain ⟨i, hi, rfl⟩ := hn
    rw [idxOf?, findIdx?_eq_some_iff_getElem] at hi
    obtain ⟨hlt, heq, -⟩ := hi
    rw [take_add_one, getElem?_eq_getElem hlt, toList_some, getLast?_concat]
    rw [beq_iff_eq] at heq
    rw [heq]

theorem attachPoint_eq_none_iff {p : δ} {hashes : List δ} :
    attachPoint p hashes = none ↔ hashes ≠ [] ∧ p ∉ hashes := by
  rw [attachPoint]
  by_cases hnil : hashes = []
  · simp [hnil]
  · rw [if_neg hnil]
    by_cases hlast : hashes.getLast? = some p
    · have hmem : p ∈ hashes := mem_of_getLast? hlast
      simp [hlast, hmem]
    · simp [hlast, hnil]

variable (hash parent : β → δ)

/-- The blocks of a batch up to its first broken link. -/
def linkedTake (expected : δ) : List β → List β
  | [] => []
  | b :: bs => if parent b = expected then b :: linkedTake (hash b) bs else []

variable {hash parent}

abbrev IsLinked (hash parent : β → δ) (bs : List β) : Prop :=
  bs.IsChain fun a b => parent b = hash a

theorem linkedTake_cons_self (b : β) (bs : List β) :
    linkedTake hash parent (parent b) (b :: bs) = b :: linkedTake hash parent (hash b) bs :=
  if_pos rfl

variable {bs : List β}

theorem parent_of_head?_linkedTake {expected : δ} {b : β}
    (hb : b ∈ (linkedTake hash parent expected bs).head?) : parent b = expected := by
  cases bs with
  | nil => cases hb
  | cons c bs =>
    rw [linkedTake] at hb
    by_cases hc : parent c = expected
    · rw [if_pos hc, head?_cons, mem_some_iff] at hb
      rw [← hb, hc]
    · rw [if_neg hc] at hb
      cases hb

theorem isLinked_linkedTake (expected : δ) (bs : List β) :
    IsLinked hash parent (linkedTake hash parent expected bs) := by
  induction bs generalizing expected with
  | nil => exact isChain_nil
  | cons b bs ih =>
    rw [linkedTake]
    by_cases hb : parent b = expected
    · rw [if_pos hb]
      have htail := ih (hash b)
      cases hrest : linkedTake hash parent (hash b) bs with
      | nil => exact isChain_singleton b
      | cons c cs =>
        rw [hrest] at htail
        have hhead : c ∈ (linkedTake hash parent (hash b) bs).head? := by
          rw [hrest]
          rfl
        exact isChain_cons_cons.mpr ⟨parent_of_head?_linkedTake hhead, htail⟩
    · rw [if_neg hb]
      exact isChain_nil

theorem linkedTake_eq_self_iff {expected : δ} : linkedTake hash parent expected bs = bs ↔
      IsLinked hash parent bs ∧ ∀ b ∈ bs.head?, parent b = expected := by
  constructor
  · intro heq
    refine ⟨heq ▸ isLinked_linkedTake expected bs, fun b hb => ?_⟩
    rw [← heq] at hb
    exact parent_of_head?_linkedTake hb
  · intro h
    induction bs generalizing expected with
    | nil => rfl
    | cons b bs ih =>
      rw [linkedTake, if_pos (h.2 b rfl)]
      congr 1
      refine ih ⟨h.1.tail, fun c hc => ?_⟩
      cases bs with
      | nil => cases hc
      | cons d bs =>
        rw [head?_cons, mem_some_iff] at hc
        rw [← hc]
        exact (isChain_cons_cons.mp h.1).1

variable {as : List β}

section
omit [DecidableEq δ]

/-- Linked blocks are determined by how many they are and by the last of them. -/
theorem eq_of_isLinked_concat {a : β}
    (hinj : ∀ x ∈ as ++ bs, ∀ y ∈ as ++ bs, hash x = hash y → x = y)
    (has : IsLinked hash parent (as ++ [a])) (hbs : IsLinked hash parent (bs ++ [a]))
    (hlength : as.length = bs.length) : as = bs := by
  induction as using reverseRecOn generalizing bs a with
  | nil => exact (eq_nil_of_length_eq_zero hlength.symm).symm
  | append_singleton as x ih =>
    cases bs using reverseRecOn with
    | nil => simp at hlength
    | append_singleton bs y =>
      have hx : parent a = hash x := by
        rw [append_assoc] at has
        exact (isChain_append_cons_cons.mp has).2.1
      have hy : parent a = hash y := by
        rw [append_assoc] at hbs
        exact (isChain_append_cons_cons.mp hbs).2.1
      obtain rfl : x = y := hinj x (by simp) y (by simp) (hx.symm.trans hy)
      have hlength' : as.length = bs.length := by simpa using hlength
      have hinj' : ∀ z ∈ as ++ bs, ∀ z' ∈ as ++ bs, hash z = hash z' → z = z' := by
        intro z hz z' hz'
        refine hinj z ?_ z' ?_
        · simp only [mem_append, mem_singleton] at hz ⊢
          tauto
        · simp only [mem_append, mem_singleton] at hz' ⊢
          tauto
      rw [ih hinj' has.left_of_append hbs.left_of_append hlength']

theorem isPrefix_of_map (hinj : ∀ x ∈ as, ∀ y ∈ bs, hash x = hash y → x = y)
    (h : as.map hash <+: bs.map hash) : as <+: bs := by
  induction as generalizing bs with
  | nil => exact nil_prefix
  | cons a as ih =>
    cases bs with
    | nil => cases prefix_nil.mp h
    | cons b bs =>
      rw [map_cons, map_cons, cons_prefix_cons] at h
      refine cons_prefix_cons.mpr ⟨hinj a (by simp) b (by simp) h.1, ih ?_ h.2⟩
      intro x hx y hy
      exact hinj x (mem_cons_of_mem _ hx) y (mem_cons_of_mem _ hy)

/-- A chain that holds the parent of the next block of another one is the start of it, if blocks
know their position. -/
theorem isPrefix_of_parent {a b : β}
    (hinj : ∀ x ∈ as ++ bs, ∀ y ∈ as ++ bs, hash x = hash y → x = y) (has : IsLinked hash parent as)
    (hbs : IsLinked hash parent bs)
    (hposition : ∀ (i j : ℕ) (x : β), as[i]? = some x → bs[j]? = some x → i = j)
    (hb : bs[as.length]? = some b) (ha : a ∈ as) (hparent : parent b = hash a) : as <+: bs := by
  obtain ⟨i, hi⟩ := mem_iff_getElem?.mp ha
  obtain ⟨hlt, -⟩ := List.getElem?_eq_some_iff.mp hi
  obtain ⟨hlt', hb⟩ := List.getElem?_eq_some_iff.mp hb
  -- The parent of the next block is the block before it, and it is the last one here.
  have hpred : as.length - 1 < bs.length := by omega
  have hlink : parent b = hash bs[as.length - 1] := by
    have hchain := isChain_iff_getElem.mp hbs (as.length - 1) (by omega)
    have hsucc : as.length - 1 + 1 = as.length := by omega
    simp only [hsucc] at hchain
    rw [← hchain, ← hb]
  have heq : a = bs[as.length - 1] :=
    hinj _ (by simp [ha]) _ (by simp) (hparent.symm.trans hlink)
  have hlast : i = as.length - 1 :=
    hposition i (as.length - 1) a hi (heq ▸ getElem?_eq_getElem hpred)
  have hsplit : as = as.take (as.length - 1) ++ [a] := by
    conv_lhs => rw [← take_append_drop (as.length - 1) as]
    rw [hlast] at hi
    obtain ⟨_, hget⟩ := List.getElem?_eq_some_iff.mp hi
    rw [drop_eq_getElem_cons (by omega), hget, drop_of_length_le (by omega)]
  have hsplit' : bs.take as.length = bs.take (as.length - 1) ++ [a] := by
    have hsucc : as.length = as.length - 1 + 1 := by omega
    rw [heq]
    conv_lhs => rw [hsucc]
    exact take_succ_eq_append_getElem hpred
  have hmem : ∀ x ∈ as.take (as.length - 1) ++ bs.take (as.length - 1), x ∈ as ++ bs := by
    intro x hx
    exact mem_append.mpr ((mem_append.mp hx).imp mem_of_mem_take
      mem_of_mem_take)
  have htake : as.take (as.length - 1) = bs.take (as.length - 1) := by
    refine eq_of_isLinked_concat (fun x hx y hy => hinj x (hmem x hx) y (hmem y hy)) (hsplit ▸ has)
      (hsplit' ▸ hbs.take _) ?_
    rw [length_take, length_take]
    omega
  rw [prefix_iff_eq_take, hsplit', ← htake, ← hsplit]

end

/-! ## The window -/

/-- The blocks that have left the window, and those in it. -/
@[ext]
structure ChainWindow (β : Type*) where
  settled : List β
  recent : List β

namespace ChainWindow

def empty : ChainWindow β := ⟨[], []⟩

/-- Settle all blocks but the last few. -/
def settle (depth : ℕ) (w : ChainWindow β) : ChainWindow β :=
  ⟨w.settled ++ w.recent.take (w.recent.length - depth), w.recent.drop (w.recent.length - depth)⟩

theorem settled_append_recent_settle (depth : ℕ) (w : ChainWindow β) :
    (w.settle depth).settled ++ (w.settle depth).recent = w.settled ++ w.recent := by
  rw [settle, append_assoc, take_append_drop]

variable (hash parent)

/-- Put a batch on the window.  If its parent is not there, the window is lost; if it is not linked,
the linked blocks stay and nothing is settled. -/
def advance (depth : ℕ) (w : ChainWindow β) (batch : List β) : ChainWindow β :=
  match batch with
  | [] => w
  | b :: _ =>
    match attachPoint (parent b) (w.recent.map hash) with
    | none => { w with recent := [] }
    | some n =>
      let taken := linkedTake hash parent (parent b) batch
      let w' : ChainWindow β := { w with recent := w.recent.take n ++ taken }
      if taken.length = batch.length then w'.settle depth else w'

/-- The settled blocks and the window are one chain. -/
def OneChain (w : ChainWindow β) : Prop := IsLinked hash parent (w.settled ++ w.recent)

/-- A batch for a window without blocks continues the settled blocks. -/
def Closed (w : ChainWindow β) (batch : List β) : Prop :=
  w.recent = [] → ∀ a ∈ w.settled.getLast?, ∀ b ∈ batch.head?, parent b = hash a

instance (w : ChainWindow β) : Decidable (w.OneChain hash parent) :=
  inferInstanceAs (Decidable (IsLinked hash parent (w.settled ++ w.recent)))

instance [DecidableEq β] (w : ChainWindow β) (batch : List β) :
    Decidable (w.Closed hash parent batch) :=
  inferInstanceAs (Decidable (w.recent = [] → ∀ a ∈ w.settled.getLast?, ∀ b ∈ batch.head?,
    parent b = hash a))

variable {hash parent}

omit [DecidableEq δ] in
theorem oneChain_empty : (empty : ChainWindow β).OneChain hash parent := isChain_nil

variable {depth : ℕ} {w : ChainWindow β}

omit [DecidableEq δ] in
theorem oneChain_settle_iff : (w.settle depth).OneChain hash parent ↔ w.OneChain hash parent := by
  rw [OneChain, settled_append_recent_settle]
  rfl

theorem OneChain.attach (h : w.OneChain hash parent) {n : ℕ} {b : β} {bs : List β}
    (hne : w.recent ≠ []) (hn : attachPoint (parent b) (w.recent.map hash) = some n) :
    IsLinked hash parent
      (w.settled ++ (w.recent.take n ++ linkedTake hash parent (parent b) (b :: bs))) := by
  have hlast := getLast?_take_of_attachPoint (by simpa using hne) hn
  rw [← map_take, getLast?_map, map_eq_some_iff] at hlast
  obtain ⟨a, ha, hab⟩ := hlast
  rw [← append_assoc]
  refine isChain_append.mpr ⟨?_, isLinked_linkedTake _ _, ?_⟩
  · have hsplit : w.settled ++ w.recent = (w.settled ++ w.recent.take n) ++ w.recent.drop n := by
      rw [append_assoc, take_append_drop]
    rw [OneChain, hsplit] at h
    exact h.left_of_append
  · intro x hx y hy
    rw [parent_of_head?_linkedTake hy]
    have hax : (w.settled ++ w.recent.take n).getLast? = some a := by
      rw [getLast?_append, ha, some_or]
    rw [hax, mem_some_iff] at hx
    rw [← hx, hab]

theorem oneChain_advance_iff (h : w.OneChain hash parent) (batch : List β) :
    (w.advance hash parent depth batch).OneChain hash parent ↔ w.Closed hash parent batch := by
  cases batch with
  | nil =>
    refine iff_of_true h fun _ _ _ b hb => ?_
    cases hb
  | cons b bs =>
    have hstep : ∀ (c : Prop) [Decidable c] (w' : ChainWindow β),
        (if c then w'.settle depth else w').OneChain hash parent ↔ w'.OneChain hash parent := by
      intro c _ w'
      by_cases hc : c
      · rw [if_pos hc, oneChain_settle_iff]
      · rw [if_neg hc]
    by_cases hne : w.recent = []
    · -- Nothing is cut off, so the link to the settled blocks decides.
      have hpoint : attachPoint (parent b) (w.recent.map hash) = some 0 := by
        rw [hne]
        rfl
      rw [advance, hpoint, hstep, OneChain, hne, take_nil, nil_append, linkedTake_cons_self]
      have hsettled : IsLinked hash parent w.settled := h.left_of_append
      have hnew : IsLinked hash parent (b :: linkedTake hash parent (hash b) bs) := by
        rw [← linkedTake_cons_self]
        exact isLinked_linkedTake _ _
      refine isChain_append.trans ?_
      constructor
      · intro hchain _
        exact hchain.2.2
      · intro hclosed
        exact ⟨hsettled, hnew, hclosed hne⟩
    · refine iff_of_true ?_ fun hnil => absurd hnil hne
      cases hpoint : attachPoint (parent b) (w.recent.map hash) with
      | none =>
        rw [advance, hpoint, OneChain, append_nil]
        exact h.left_of_append
      | some n =>
        rw [advance, hpoint, hstep]
        exact h.attach hne hpoint

theorem attachPoint_of_isLinked {b : β} {bs : List β}
    (h : IsLinked hash parent (w.settled ++ w.recent ++ b :: bs)) :
    attachPoint (parent b) (w.recent.map hash) = some w.recent.length := by
  rw [attachPoint]
  by_cases hnil : w.recent = []
  · simp [hnil]
  · have hlast : (w.recent.map hash).getLast? = some (parent b) := by
      rw [getLast?_map, getLast?_eq_some_getLast hnil, map_some]
      have hmem : w.recent.getLast hnil ∈ (w.settled ++ w.recent).getLast? := by
        rw [getLast?_append, getLast?_eq_some_getLast hnil]
        rfl
      rw [(isChain_append.mp h).2.2 _ hmem b rfl]
    rw [if_neg (by simpa using hnil), if_pos hlast, length_map]

theorem settled_append_recent_advance {batch : List β}
    (h : IsLinked hash parent (w.settled ++ w.recent ++ batch)) :
    (w.advance hash parent depth batch).settled ++ (w.advance hash parent depth batch).recent =
      w.settled ++ w.recent ++ batch := by
  cases batch with
  | nil => rw [advance, append_nil]
  | cons b bs =>
    have htaken : linkedTake hash parent (parent b) (b :: bs) = b :: bs := by
      refine linkedTake_eq_self_iff.mpr ⟨h.right_of_append, fun c hc => ?_⟩
      rw [head?_cons, mem_some_iff] at hc
      rw [hc]
    simp only [advance, attachPoint_of_isLinked h, htaken, take_length, if_pos]
    rw [settled_append_recent_settle, append_assoc]

end ChainWindow

end NyksNode
