import NyksNode.Lib.Merkle
import NyksNode.Lib.Sorted

/-!
# Authentication structures

The nodes of one Merkle tree of height `n` are numbered in heap order: the root is `1`,
the children of `k` are `2 * k` and `2 * k + 1`, and leaf `j` is `2 ^ n + j`.  An
authentication structure for several leafs lists the siblings on their paths that are
not on a path themselves.

The second part reads a tree downwards from its root.  When the compression function
is injective, a root has at most one value below it at every position
(`valueBelow`), and every path that climbs to the root consists of these values, no
matter who supplied it.
-/

namespace NyksNode.Merkle

open List

/-! ## The nodes of a structure -/

/-- Node `x` is an ancestor of one of the leafs `js`, or the leaf itself. -/
def OnPath (n : ℕ) (js : List ℕ) (x : ℕ) : Prop := ∃ j ∈ js, ∃ t ≤ n, x = (2 ^ n + j) / 2 ^ t

/-- The nodes on the path of leaf `j`, without the root. -/
def pathNodes (n j : ℕ) : List ℕ := (List.range n).map fun t => (2 ^ n + j) / 2 ^ t

/-- The siblings on the paths of `js` that are on no path themselves, in descending order. -/
def authStructure (n : ℕ) (js : List ℕ) : List ℕ :=
  (ascending ((js.flatMap fun j => (pathNodes n j).map sibling).filter
    fun x => x ∉ js.flatMap (pathNodes n))).reverse

section
variable {n : ℕ} {js : List ℕ} {j x : ℕ}

theorem mem_pathNodes : x ∈ pathNodes n j ↔ ∃ t < n, x = (2 ^ n + j) / 2 ^ t := by
  simp [pathNodes, eq_comm]

theorem div_pow_ge_two {t : ℕ} (ht : t < n) : 2 ≤ (2 ^ n + j) / 2 ^ t := by
  rw [Nat.le_div_iff_mul_le (by positivity), ← pow_succ']
  exact (Nat.pow_le_pow_right (by decide) ht).trans (Nat.le_add_right _ _)

theorem div_pow_self (hj : j < 2 ^ n) : (2 ^ n + j) / 2 ^ n = 1 := by
  rw [Nat.add_div_left _ (by positivity), Nat.div_eq_of_lt hj]

/-- Every node on a path but the root is on `pathNodes`. -/
theorem onPath_iff (hjs : ∀ j ∈ js, j < 2 ^ n) (hx : x ≠ 1) :
    OnPath n js x ↔ x ∈ js.flatMap (pathNodes n) := by
  simp only [OnPath, mem_flatMap, mem_pathNodes]
  constructor
  · rintro ⟨j, hj, t, ht, rfl⟩
    rcases Nat.lt_or_eq_of_le ht with ht | rfl
    · exact ⟨j, hj, t, ht, rfl⟩
    · exact absurd (div_pow_self (hjs j hj)) hx
  · rintro ⟨j, hj, t, ht, rfl⟩
    exact ⟨j, hj, t, ht.le, rfl⟩

theorem authStructure_congr {ks : List ℕ} (h : ∀ j, j ∈ js ↔ j ∈ ks) :
    authStructure n js = authStructure n ks := by
  rw [authStructure, authStructure]
  congr 1
  apply ascending_congr
  intro x
  simp [h]

theorem nodup_authStructure (n : ℕ) (js : List ℕ) : (authStructure n js).Nodup :=
  nodup_reverse.mpr (nodup_ascending _)

theorem two_le_sibling (hx : 2 ≤ x) : 2 ≤ sibling x := by
  have := sibling_div_two x
  omega

theorem mem_authStructure (hjs : ∀ j ∈ js, j < 2 ^ n) :
    x ∈ authStructure n js ↔ 2 ≤ x ∧ OnPath n js (sibling x) ∧ ¬ OnPath n js x := by
  rw [authStructure, mem_reverse, mem_ascending, mem_filter, decide_eq_true_iff]
  constructor
  · rintro ⟨hx, hnot⟩
    obtain ⟨j, hj, hx⟩ := mem_flatMap.mp hx
    obtain ⟨y, hy, rfl⟩ := mem_map.mp hx
    obtain ⟨t, ht, rfl⟩ := mem_pathNodes.mp hy
    have htwo : 2 ≤ sibling ((2 ^ n + j) / 2 ^ t) := two_le_sibling (div_pow_ge_two ht)
    refine ⟨htwo, ⟨j, hj, t, ht.le, by rw [sibling_sibling]⟩, ?_⟩
    rwa [onPath_iff hjs (by omega)]
  · rintro ⟨htwo, hsib, hnot⟩
    have htwo' := two_le_sibling htwo
    rw [onPath_iff hjs (by omega)] at hsib hnot
    refine ⟨?_, hnot⟩
    obtain ⟨j, hj, hmem⟩ := mem_flatMap.mp hsib
    exact mem_flatMap.mpr ⟨j, hj, mem_map.mpr ⟨_, hmem, sibling_sibling x⟩⟩

/-- The sibling of a node on a path is on a path or in the structure. -/
theorem sibling_mem (hjs : ∀ j ∈ js, j < 2 ^ n) (hx : OnPath n js x) (htwo : 2 ≤ x) :
    OnPath n js (sibling x) ∨ sibling x ∈ authStructure n js := by
  by_cases hs : OnPath n js (sibling x)
  · exact .inl hs
  · refine .inr ((mem_authStructure hjs).mpr ⟨two_le_sibling htwo, ?_, hs⟩)
    rwa [sibling_sibling]

theorem OnPath.lt (hx : OnPath n js x) (hjs : ∀ j ∈ js, j < 2 ^ n) : x < 2 ^ (n + 1) := by
  obtain ⟨j, hj, t, -, rfl⟩ := hx
  have := hjs j hj
  have := Nat.div_le_self (2 ^ n + j) (2 ^ t)
  rw [pow_succ]
  omega

theorem OnPath.parent (hx : OnPath n js x) (htwo : 2 ≤ x) (hjs : ∀ j ∈ js, j < 2 ^ n) :
    OnPath n js (x / 2) := by
  obtain ⟨j, hj, t, ht, rfl⟩ := hx
  have htn : t ≠ n := by
    rintro rfl
    rw [div_pow_self (hjs j hj)] at htwo
    omega
  refine ⟨j, hj, t + 1, by omega, ?_⟩
  rw [Nat.div_div_eq_div_mul, pow_succ]

/-- Of two siblings that are on a path or in the structure, one is on a path, so their parent
is. -/
theorem onPath_parent_of_siblings (hjs : ∀ j ∈ js, j < 2 ^ n) (htwo : 2 ≤ x)
    (hx : OnPath n js x ∨ x ∈ authStructure n js)
    (hs : OnPath n js (sibling x) ∨ sibling x ∈ authStructure n js) : OnPath n js (x / 2) := by
  rcases hx with hx | hx
  · exact hx.parent htwo hjs
  · rcases hs with hs | hs
    · have := hs.parent (two_le_sibling htwo) hjs
      rwa [sibling_div_two] at this
    · exact absurd ((mem_authStructure hjs).mp hx).2.1 ((mem_authStructure hjs).mp hs).2.2

end

/-! ## Values below a root -/

section
variable {D : Type*} (h : D → D → D) (root : D)

/-- What a digest was compressed from, if it was. -/
noncomputable def preimage (d : D) : D × D :=
  open Classical in
  if hex : ∃ p : D × D, h p.1 p.2 = d then hex.choose else (d, d)

variable {h} in
theorem preimage_compress (hinj : Function.Injective2 h) (a b : D) :
    preimage h (h a b) = (a, b) := by
  have hex : ∃ p : D × D, h p.1 p.2 = h a b := ⟨(a, b), rfl⟩
  obtain ⟨h1, h2⟩ := hinj hex.choose_spec
  rw [preimage, dif_pos hex]
  exact Prod.ext h1 h2

/-- The value of node `k` below a root: a child's value is what its parent was compressed from. -/
noncomputable def valueBelow (k : ℕ) : D :=
  if k ≤ 1 then root
  else if k % 2 = 0 then (preimage h (valueBelow (k / 2))).1
  else (preimage h (valueBelow (k / 2))).2
termination_by k
decreasing_by all_goals omega

theorem valueBelow_one : valueBelow h root 1 = root := by
  rw [valueBelow, if_pos le_rfl]

variable {h root}

theorem valueBelow_of_combine (hinj : Function.Injective2 h) {k : ℕ} (hk : 2 ≤ k) {a s : D}
    (hc : valueBelow h root (k / 2) = combine h k a s) :
    valueBelow h root k = a ∧ valueBelow h root (sibling k) = s := by
  rw [combine] at hc
  rcases Nat.mod_two_eq_zero_or_one k with hk2 | hk2
  · rw [if_pos hk2] at hc
    have hs : sibling k / 2 = k / 2 := sibling_div_two k
    rw [sibling_of_even hk2] at hs ⊢
    rw [valueBelow, valueBelow.eq_def h root (k + 1), hs, hc, preimage_compress hinj]
    exact ⟨by rw [if_neg (by omega), if_pos hk2], by rw [if_neg (by omega), if_neg (by omega)]⟩
  · rw [if_neg (by omega)] at hc
    have hs : sibling k / 2 = k / 2 := sibling_div_two k
    rw [sibling_of_odd hk2] at hs ⊢
    rw [valueBelow, valueBelow.eq_def h root (k - 1), hs, hc, preimage_compress hinj]
    exact ⟨by rw [if_neg (by omega), if_neg (by omega)],
      by rw [if_neg (by omega), if_pos (by omega)]⟩

/-- **Every path to a root consists of the values below it.** -/
theorem valueBelow_of_climb (hinj : Function.Injective2 h) {k : ℕ} {a : D} {p : List D}
    (hk : k / 2 ^ p.length = 1) (hc : climb h a k p = root) : a = valueBelow h root k ∧
      p = (List.range p.length).map (fun t => valueBelow h root (sibling (k / 2 ^ t))) ∧
      ∀ t < p.length, valueBelow h root (k / 2 ^ t / 2) =
        combine h (k / 2 ^ t) (valueBelow h root (k / 2 ^ t))
          (valueBelow h root (sibling (k / 2 ^ t))) := by
  induction p generalizing k a with
  | nil =>
    rw [length_nil, pow_zero, Nat.div_one] at hk
    subst hk
    exact ⟨by rw [valueBelow_one, ← hc, climb_nil], rfl, by simp⟩
  | cons s p ih =>
    rw [length_cons, ← div_two_div_pow] at hk
    obtain ⟨hparent, hpath, hnodes⟩ := ih hk hc
    have htwo : 2 ≤ k := by
      by_contra hlt
      have : k / 2 = 0 := by omega
      rw [this, Nat.zero_div] at hk
      omega
    obtain ⟨ha, hs⟩ := valueBelow_of_combine hinj htwo hparent.symm
    refine ⟨ha.symm, ?_, ?_⟩
    · rw [length_cons, range_succ_eq_map, map_cons, pow_zero, Nat.div_one, hs]
      congr 1
      refine hpath.trans ?_
      rw [map_map]
      exact map_congr_left fun t _ => by
        rw [Function.comp_apply, Nat.succ_eq_add_one, ← div_two_div_pow]
    · intro t ht
      cases t with
      | zero => rw [pow_zero, Nat.div_one, ha, hs, ← hparent]
      | succ t =>
        rw [← div_two_div_pow]
        exact hnodes t (by simpa using ht)

end

end NyksNode.Merkle
