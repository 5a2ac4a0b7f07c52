import NyksNode.Lib.MountainRangeUpdate

/-!
# Batches of leaf mutations

A batch names several leafs of one mountain range, each with its path *before* the
batch.  Applying the mutations one at a time invalidates the paths of those still
to come, so every step also refreshes the rest of the batch.

A path in the batch matters only beside the subtrees that the batch leaves alone: what lies
beside a mutated subtree is recomputed.  `Settled` says that a path is right in all other places.
-/

namespace NyksNode.Merkle

open List Function

variable {D : Type*} (h : D → D → D)

/-! ## Leaf lists -/

/-- The leaf row of a list, with a default beyond its end. -/
def row [Inhabited D] (ls : List D) (i : ℕ) : D := ls.getD i default

section
variable [Inhabited D] {ls : List D} {i : ℕ}

theorem row_eq_getElem (hi : i < ls.length) : row ls i = ls[i] := by
  simp [row, getElem?_eq_getElem hi]

theorem row_append_of_lt (ms : List D) (hi : i < ls.length) : row (ls ++ ms) i = row ls i := by
  simp [row, getElem?_append_left hi]

theorem row_concat_length (ls : List D) (d : D) : row (ls ++ [d]) ls.length = d := by
  simp [row]

theorem row_set (hi : i < ls.length) (d : D) : row (ls.set i d) = Function.update (row ls) i d := by
  funext j
  by_cases hij : j = i
  · subst hij
    simp [row, hi]
  · rw [update_of_ne hij]
    simp [row, getElem?_set_ne (Ne.symm hij)]

end

/-! ## Batches -/

/-- One leaf to change: its index, the new digest, and its path before the batch. -/
structure LeafMutation (D : Type*) where
  leafIndex : ℕ
  newLeaf : D
  membershipProof : List D
  deriving DecidableEq, Repr

def applyMutations (ls : List D) (ms : List (LeafMutation D)) : List D :=
  ms.foldl (fun ls m => ls.set m.leafIndex m.newLeaf) ls

@[simp] theorem length_applyMutations (ls : List D) (ms : List (LeafMutation D)) :
    (applyMutations ls ms).length = ls.length := by
  induction ms generalizing ls with
  | nil => rfl
  | cons m ms ih => simpa [applyMutations] using ih (ls.set m.leafIndex m.newLeaf)

variable {ls : List D} {ms : List (LeafMutation D)}

theorem getElem?_applyMutations_of_notMem {i : ℕ} (hi : ∀ m ∈ ms, m.leafIndex ≠ i) :
    (applyMutations ls ms)[i]? = ls[i]? := by
  induction ms generalizing ls with
  | nil => rfl
  | cons m ms ih =>
    have htail := @ih (ls.set m.leafIndex m.newLeaf)
      fun m' hm' => hi m' (mem_cons_of_mem _ hm')
    rw [getElem?_set_ne (hi m mem_cons_self)] at htail
    exact htail

theorem getElem?_applyMutations_of_mem (hnd : (ms.map (·.leafIndex)).Nodup) {m : LeafMutation D}
    (hm : m ∈ ms) (hlt : m.leafIndex < ls.length) :
    (applyMutations ls ms)[m.leafIndex]? = some m.newLeaf := by
  induction ms generalizing ls with
  | nil => simp at hm
  | cons m' ms ih =>
    rw [map_cons, nodup_cons] at hnd
    rcases mem_cons.mp hm with rfl | hm
    · have hne : ∀ m' ∈ ms, m'.leafIndex ≠ m.leafIndex :=
        fun m' hm' he => hnd.1 (he ▸ mem_map_of_mem hm')
      have htail := @getElem?_applyMutations_of_notMem D (ls.set m.leafIndex m.newLeaf) _ _ hne
      rw [getElem?_set_self hlt] at htail
      exact htail
    · exact @ih (ls.set m'.leafIndex m'.newLeaf) hnd.2 hm (by simpa using hlt)

/-- A batch that writes the values of `g`, at every position where `f` differs from it. -/
theorem applyMutations_map_range {f g : ℕ → D} {n : ℕ} (hnd : (ms.map (·.leafIndex)).Nodup)
    (hms : ∀ m ∈ ms, m.newLeaf = g m.leafIndex)
    (hfg : ∀ c < n, c ∉ ms.map (·.leafIndex) → f c = g c) :
    applyMutations ((List.range n).map f) ms = (List.range n).map g := by
  apply ext_getElem?
  intro c
  by_cases hc : c < n
  · by_cases hmem : c ∈ ms.map (·.leafIndex)
    · obtain ⟨m, hm, rfl⟩ := mem_map.mp hmem
      rw [getElem?_applyMutations_of_mem hnd hm (by simpa using hc), hms m hm]
      simp [hc]
    · rw [getElem?_applyMutations_of_notMem fun m hm heq => hmem (mem_map.mpr ⟨m, hm, heq⟩)]
      simp [hc, hfg c hc hmem]
  · rw [getElem?_eq_none (by simpa using hc), getElem?_eq_none (by simpa using hc)]

/-- A batch whose paths are those of the leafs `ls`. -/
def Authentic [Inhabited D] (ls : List D) (ms : List (LeafMutation D)) : Prop :=
  ∀ m ∈ ms, m.leafIndex < ls.length ∧ m.membershipProof = authPath h (row ls) ls.length m.leafIndex

/-- Keep the pending mutation `m'` in step with the mutation `m`. -/
def LeafMutation.refresh (m m' : LeafMutation D) : LeafMutation D :=
  { m' with membershipProof :=
      refreshPath h m.leafIndex m.newLeaf m.membershipProof m'.leafIndex m'.membershipProof }

@[simp] theorem LeafMutation.leafIndex_refresh (m m' : LeafMutation D) :
    (m.refresh h m').leafIndex = m'.leafIndex := rfl

@[simp] theorem LeafMutation.newLeaf_refresh (m m' : LeafMutation D) :
    (m.refresh h m').newLeaf = m'.newLeaf := rfl

/-- The peaks after a batch, for a range of `n` leafs. -/
def mutateAll (n : ℕ) : List (LeafMutation D) → List D → List D
  | [], ps => ps
  | m :: ms, ps =>
      mutateAll n (ms.map (m.refresh h))
        (mutatePeaks h ps n m.leafIndex m.newLeaf m.membershipProof)
  termination_by ms => ms.length
  decreasing_by simp

/-- Paths, each with its leaf index, after a batch. -/
def refreshAll : List (LeafMutation D) → List (ℕ × List D) → List (ℕ × List D)
  | [], qs => qs
  | m :: ms, qs =>
      refreshAll (ms.map (m.refresh h)) (qs.map fun q =>
        (q.1, refreshPath h m.leafIndex m.newLeaf m.membershipProof q.1 q.2))
  termination_by ms => ms.length
  decreasing_by simp

variable {h} [Inhabited D]

omit [Inhabited D] in
theorem applyMutations_refresh (ls : List D) (m : LeafMutation D) (ms : List (LeafMutation D)) :
    applyMutations ls (ms.map (m.refresh h)) = applyMutations ls ms := by
  simp [applyMutations, foldl_map]

/-- The step of the batch: the rest of the batch is authentic for the mutated leafs. -/
theorem Authentic.refresh {m : LeafMutation D} (ha : Authentic h ls (m :: ms)) :
    Authentic h (ls.set m.leafIndex m.newLeaf) (ms.map (m.refresh h)) := by
  intro m' hm'
  obtain ⟨m₀, hm₀, rfl⟩ := mem_map.mp hm'
  obtain ⟨hm, hp⟩ := ha m mem_cons_self
  obtain ⟨hlt, hp₀⟩ := ha m₀ (mem_cons_of_mem _ hm₀)
  refine ⟨by simpa using hlt, ?_⟩
  rw [length_set, row_set hm, LeafMutation.leafIndex_refresh, ← refreshPath_authPath h _ hlt,
    ← hp, ← hp₀]
  rfl

/-- **The peaks after an authentic batch** are those of the mutated leafs. -/
theorem mutateAll_peaks (ha : Authentic h ls ms) :
    mutateAll h ls.length ms (peaks h (row ls) ls.length) =
      peaks h (row (applyMutations ls ms)) ls.length := by
  induction hn : ms.length generalizing ls ms with
  | zero =>
    obtain rfl := length_eq_zero_iff.mp hn
    simp [mutateAll, applyMutations]
  | succ n ih =>
    obtain ⟨m, ms, rfl⟩ := exists_cons_of_length_eq_add_one hn
    obtain ⟨hm, hp⟩ := ha m mem_cons_self
    have htail := ih ha.refresh (by simpa using hn)
    rw [length_set, row_set hm] at htail
    rw [mutateAll, hp, mutatePeaks_peaks h _ hm, htail, applyMutations_refresh]
    rfl

/-- **The paths after an authentic batch** are those of the mutated leafs. -/
theorem refreshAll_authPath (ha : Authentic h ls ms) {is : List ℕ} (his : ∀ i ∈ is, i < ls.length) :
    refreshAll h ms (is.map fun i => (i, authPath h (row ls) ls.length i)) =
      is.map fun i => (i, authPath h (row (applyMutations ls ms)) ls.length i) := by
  induction hn : ms.length generalizing ls ms with
  | zero =>
    obtain rfl := length_eq_zero_iff.mp hn
    simp [refreshAll, applyMutations]
  | succ n ih =>
    obtain ⟨m, ms, rfl⟩ := exists_cons_of_length_eq_add_one hn
    obtain ⟨hm, hp⟩ := ha m mem_cons_self
    have htail := ih ha.refresh (by simpa using his) (by simpa using hn)
    rw [length_set, row_set hm, applyMutations_refresh] at htail
    rw [refreshAll, map_map, hp]
    have hstep : (is.map ((fun q : ℕ × List D =>
        (q.1, refreshPath h m.leafIndex m.newLeaf (authPath h (row ls) ls.length m.leafIndex)
          q.1 q.2)) ∘ fun i => (i, authPath h (row ls) ls.length i))) =
        is.map fun i => (i, authPath h (update (row ls) m.leafIndex m.newLeaf)
          ls.length i) := by
      apply map_congr_left
      intro i hi
      simp only [comp_apply]
      rw [refreshPath_authPath h _ (his i hi)]
    rw [hstep, htail]
    rfl

/-! ## Paths from before and after a batch -/

/-- The path of leaf `i` in the range of the leafs `g` below `n`, up to the places beside a
subtree with a leaf of `pending`. -/
structure Settled (h : D → D → D) (g : ℕ → D) (n : ℕ) (pending : List ℕ) (i : ℕ) (p : List D) :
    Prop where
  length_eq : p.length = height i n
  getElem?_eq : ∀ t < height i n, (∀ j ∈ pending, j / 2 ^ t ≠ sibling (i / 2 ^ t)) →
    p[t]? = some (node h g t (sibling (i / 2 ^ t)))

section
variable {f g : ℕ → D} {n i j : ℕ} {pending : List ℕ} {p q : List D}

section
omit [Inhabited D]

/-- The path in a range that differs at the leafs of `pending` only. -/
theorem settled_authPath (hfg : ∀ k ∉ pending, f k = g k) :
    Settled h g n pending i (authPath h f n i) where
  length_eq := length_authPath h f n i
  getElem?_eq t ht hpending := by
    rw [authPath, getElem?_pathFrom, if_pos ht, Nat.zero_add]
    refine congrArg some (node_congr h t _ fun k hlo hhi => hfg k fun hk => hpending k hk ?_)
    exact Nat.div_eq_of_lt_le hlo hhi

theorem Settled.eq_authPath (hp : Settled h g n [] i p) : p = authPath h g n i := by
  apply ext_getElem?
  intro t
  rw [authPath, getElem?_pathFrom, Nat.zero_add]
  by_cases ht : t < height i n
  · rw [if_pos ht, hp.getElem?_eq t ht (by simp)]
  · rw [if_neg ht, getElem?_eq_none (by rw [hp.length_eq]; omega)]

/-- Climbing a settled path gives an ancestor, if no other leaf below it is pending. -/
theorem Settled.climb (hp : Settled h g n pending i p) {t : ℕ} (ht : t ≤ height i n)
    (hpending : ∀ j ∈ pending, j / 2 ^ t = i / 2 ^ t → j = i) :
    climb h (g i) i (p.take t) = node h g t (i / 2 ^ t) := by
  have htake : p.take t = pathFrom h g 0 t i := by
    apply ext_getElem?
    intro s
    rw [getElem?_pathFrom, Nat.zero_add]
    by_cases hs : s < t
    · rw [getElem?_take_of_lt hs, if_pos hs, hp.getElem?_eq s (by omega)]
      intro j hj hsib
      -- the sibling at height `s` lies below the ancestor at height `t`
      obtain ⟨e, rfl⟩ := Nat.exists_eq_add_of_lt hs
      have hup : j / 2 ^ (s + e + 1) = i / 2 ^ (s + e + 1) := by
        rw [show s + e + 1 = s + 1 + e by omega, pow_add, ← Nat.div_div_eq_div_mul,
          ← Nat.div_div_eq_div_mul, div_pow_succ, div_pow_succ, hsib, sibling_div_two]
      rw [hpending j hj hup] at hsib
      exact sibling_ne _ hsib.symm
    · rw [if_neg hs, getElem?_eq_none]
      exact (length_take_le _ _).trans (by omega)
  have hclimb := climb_pathFrom h g 0 t i
  rw [node_zero, Nat.zero_add] at hclimb
  rw [htake, hclimb]

/-- The step: once leaf `i` has been mutated, it is not pending any more. -/
theorem Settled.refresh (hp : Settled h g n (i :: pending) i p)
    (hq : Settled h g n (i :: pending) j q) (hj : j < n) :
    Settled h g n pending j (refreshPath h i (g i) p j q) where
  length_eq := by simp [refreshPath, hq.length_eq]
  getElem?_eq t ht hpending := by
    have hlt : t < q.length := by rw [hq.length_eq]; exact ht
    simp only [refreshPath, getElem?_mapIdx, getElem?_eq_getElem hlt, Option.map_some,
      Option.some_inj]
    by_cases hs : i / 2 ^ t = sibling (j / 2 ^ t)
    · rw [if_pos hs, ← hs]
      refine hp.climb (by rw [height_eq_of_sibling hj ht hs]; exact ht.le) fun k hk hki => ?_
      rcases mem_cons.mp hk with rfl | hk
      · rfl
      · exact absurd (hki.trans hs) (hpending k hk)
    · rw [if_neg hs]
      have hold := hq.getElem?_eq t ht (forall_mem_cons.mpr ⟨hs, hpending⟩)
      rw [getElem?_eq_getElem hlt, Option.some_inj] at hold
      exact hold

end

end

omit [Inhabited D] in
/-- **The paths after a batch of settled paths** are those of the leafs `g`. -/
theorem refreshAll_of_settled {g : ℕ → D} {n : ℕ} {qs : List (ℕ × List D)}
    (hnew : ∀ m ∈ ms, m.newLeaf = g m.leafIndex) (hlt : ∀ m ∈ ms, m.leafIndex < n)
    (hms : ∀ m ∈ ms, Settled h g n (ms.map (·.leafIndex)) m.leafIndex m.membershipProof)
    (hqs : ∀ q ∈ qs, q.1 < n ∧ Settled h g n (ms.map (·.leafIndex)) q.1 q.2) :
    refreshAll h ms qs = qs.map fun q => (q.1, authPath h g n q.1) := by
  induction hn : ms.length generalizing ms qs with
  | zero =>
    obtain rfl := length_eq_zero_iff.mp hn
    rw [refreshAll]
    conv_lhs => rw [← map_id qs]
    exact map_congr_left fun q hq => by rw [← (hqs q hq).2.eq_authPath]; rfl
  | succ k ih =>
    obtain ⟨m, ms, rfl⟩ := exists_cons_of_length_eq_add_one hn
    rw [forall_mem_cons] at hnew hlt hms
    have hindices : (ms.map (m.refresh h)).map (·.leafIndex) = ms.map (·.leafIndex) := by
      simp [comp_def]
    rw [refreshAll, hnew.1, ih]
    · rw [map_map]
      rfl
    · intro m' hm'
      obtain ⟨m₀, hm₀, rfl⟩ := mem_map.mp hm'
      exact hnew.2 m₀ hm₀
    · intro m' hm'
      obtain ⟨m₀, hm₀, rfl⟩ := mem_map.mp hm'
      exact hlt.2 m₀ hm₀
    · intro m' hm'
      obtain ⟨m₀, hm₀, rfl⟩ := mem_map.mp hm'
      rw [hindices, LeafMutation.refresh, hnew.1]
      exact hms.1.refresh (hms.2 m₀ hm₀) (hlt.2 m₀ hm₀)
    · intro q' hq'
      obtain ⟨q, hq, rfl⟩ := mem_map.mp hq'
      rw [hindices]
      exact ⟨(hqs q hq).1, hms.1.refresh (hqs q hq).2 (hqs q hq).1⟩
    · simpa using hn

end NyksNode.Merkle
