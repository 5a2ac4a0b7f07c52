import Mathlib.Data.Nat.Bitwise
import Mathlib.Tactic.Ring
import Mathlib.Tactic.Linarith

/-!
# Perfect binary trees over an infinite row of leafs

Every Merkle tree of a mountain range is an aligned subtree of one infinite
binary tree whose bottom row is indexed by `ℕ`.  `node h f t k` is the value at
height `t` and position `k` of that tree, over the leaf row `f` and the two-to-one
compression function `h`.  A node only reads the leafs below it
(`node_congr`), so a finite list of leafs can be extended arbitrarily.

`climb` is the walk an authentication path describes, and `pathFrom` the path an
honest prover supplies.  `climb_pathFrom` is completeness; `climb_sound` says that
an injective compression function admits no other leaf and no other path.
-/

namespace NyksNode.Merkle

open List Function

variable {D : Type*} (h : D → D → D) (f : ℕ → D)

/-- The node at height `t` and position `k`, over the leaf row `f`. -/
def node : ℕ → ℕ → D
  | 0, k => f k
  | t + 1, k => h (node t (2 * k)) (node t (2 * k + 1))

@[simp] theorem node_zero (k : ℕ) : node h f 0 k = f k := rfl

theorem node_succ (t k : ℕ) :
    node h f (t + 1) k = h (node h f t (2 * k)) (node h f t (2 * k + 1)) := rfl

def sibling (k : ℕ) : ℕ := k ^^^ 1

theorem sibling_of_even {k : ℕ} (hk : k % 2 = 0) : sibling k = k + 1 := by
  obtain ⟨m, rfl⟩ : ∃ m, k = 2 * m := ⟨k / 2, by omega⟩
  apply Nat.eq_of_testBit_eq
  intro i
  cases i with
  | zero => simp [sibling]
  | succ i =>
    rw [sibling, Nat.testBit_xor, Nat.testBit_succ, Nat.testBit_succ, Nat.testBit_succ]
    have h1 : (2 * m + 1) / 2 = 2 * m / 2 := by omega
    simp [h1]

theorem sibling_of_odd {k : ℕ} (hk : k % 2 = 1) : sibling k = k - 1 := by
  have heven : (k - 1) % 2 = 0 := by omega
  have hk' : k = sibling (k - 1) := by rw [sibling_of_even heven]; omega
  conv_lhs => rw [hk', sibling, sibling, Nat.xor_assoc]
  simp

theorem sibling_div_two (k : ℕ) : sibling k / 2 = k / 2 := by
  rcases Nat.mod_two_eq_zero_or_one k with hk | hk
  · rw [sibling_of_even hk]; omega
  · rw [sibling_of_odd hk]; omega

theorem sibling_ne (k : ℕ) : sibling k ≠ k := by
  rcases Nat.mod_two_eq_zero_or_one k with hk | hk
  · rw [sibling_of_even hk]; omega
  · rw [sibling_of_odd hk]; omega

@[simp] theorem sibling_sibling (k : ℕ) : sibling (sibling k) = k := by
  simp [sibling]

/-- Combine a node at position `k` with its sibling, in tree order. -/
def combine (k : ℕ) (a s : D) : D := if k % 2 = 0 then h a s else h s a

theorem combine_node (t k : ℕ) :
    combine h k (node h f t k) (node h f t (sibling k)) = node h f (t + 1) (k / 2) := by
  rcases Nat.mod_two_eq_zero_or_one k with hk | hk
  · have h2 : 2 * (k / 2) = k := by omega
    simp [combine, hk, sibling_of_even hk, node_succ, h2]
  · have h2 : 2 * (k / 2) + 1 = k := by omega
    have h1 : 2 * (k / 2) = k - 1 := by omega
    rw [node_succ, h2, h1, sibling_of_odd hk]
    simp [combine, hk]

theorem node_congr {f g : ℕ → D} (t k : ℕ)
    (hfg : ∀ i, k * 2 ^ t ≤ i → i < (k + 1) * 2 ^ t → f i = g i) : node h f t k = node h g t k := by
  induction t generalizing k with
  | zero => exact hfg k (by simp) (by simp)
  | succ t ih =>
    rw [node_succ, node_succ, ih (2 * k), ih (2 * k + 1)]
    · intro i hlo hhi
      refine hfg i (le_trans ?_ hlo) (lt_of_lt_of_le hhi ?_) <;>
        (rw [pow_succ]; nlinarith [Nat.pos_of_ne_zero (pow_ne_zero t (two_ne_zero (α := ℕ)))])
    · intro i hlo hhi
      refine hfg i (le_trans ?_ hlo) (lt_of_lt_of_le hhi ?_) <;>
        (rw [pow_succ]; nlinarith [Nat.pos_of_ne_zero (pow_ne_zero t (two_ne_zero (α := ℕ)))])

theorem eq_of_node_eq (hh : Function.Injective2 h) {f g : ℕ → D} {t k : ℕ}
    (hfg : node h f t k = node h g t k) {i : ℕ} (hlo : k * 2 ^ t ≤ i) (hhi : i < (k + 1) * 2 ^ t) :
    f i = g i := by
  induction t generalizing k with
  | zero =>
    obtain rfl : i = k := by omega
    exact hfg
  | succ t ih =>
    rw [node_succ, node_succ] at hfg
    obtain ⟨hleft, hright⟩ := hh hfg
    rw [Nat.pow_succ'] at hlo hhi
    by_cases hi : i < (2 * k + 1) * 2 ^ t
    · exact ih hleft (by linarith) hi
    · exact ih hright (by omega) (by linarith)

/-- A row that starts `c` aligned blocks further on. -/
theorem node_shift (c t k : ℕ) : node h (fun i => f (c * 2 ^ t + i)) t k = node h f t (c + k) := by
  induction t generalizing c k with
  | zero => simp
  | succ t ih =>
    have hrow : (fun i => f (c * 2 ^ (t + 1) + i)) = fun i => f (2 * c * 2 ^ t + i) := by
      funext i
      rw [pow_succ', ← mul_assoc, mul_comm c 2]
    rw [node_succ, node_succ, hrow, ih, ih, mul_add, add_assoc]

/-! ## Authentication paths -/

/-- The digest reached from `a` at position `k` by absorbing the siblings `p`. -/
def climb : D → ℕ → List D → D
  | a, _, [] => a
  | a, k, s :: p => climb (combine h k a s) (k / 2) p

@[simp] theorem climb_nil (a : D) (k : ℕ) : climb h a k [] = a := rfl

@[simp] theorem climb_cons (a s : D) (k : ℕ) (p : List D) :
    climb h a k (s :: p) = climb h (combine h k a s) (k / 2) p := rfl

theorem climb_congr {a : D} {j k : ℕ} {p : List D} (hjk : j % 2 ^ p.length = k % 2 ^ p.length) :
    climb h a j p = climb h a k p := by
  induction p generalizing a j k with
  | nil => rfl
  | cons s p ih =>
    rw [length_cons, pow_succ', Nat.mod_mul, Nat.mod_mul] at hjk
    have hlow : j % 2 = k % 2 := by omega
    rw [climb_cons, climb_cons, combine, combine, hlow]
    exact ih (by omega)

/-- The `n` siblings met when climbing from position `k` at height `t`. -/
def pathFrom : ℕ → ℕ → ℕ → List D
  | _, 0, _ => []
  | t, n + 1, k => node h f t (sibling k) :: pathFrom (t + 1) n (k / 2)

@[simp] theorem pathFrom_zero (t k : ℕ) : pathFrom h f t 0 k = [] := rfl

theorem pathFrom_succ (t n k : ℕ) :
    pathFrom h f t (n + 1) k = node h f t (sibling k) :: pathFrom h f (t + 1) n (k / 2) := rfl

@[simp] theorem length_pathFrom (t n k : ℕ) : (pathFrom h f t n k).length = n := by
  induction n generalizing t k with
  | zero => rfl
  | succ n ih => simp [pathFrom_succ, ih]

theorem div_two_div_pow (k n : ℕ) : k / 2 / 2 ^ n = k / 2 ^ (n + 1) := by
  rw [Nat.div_div_eq_div_mul, pow_succ']

theorem pathFrom_add (t m n k : ℕ) :
    pathFrom h f t (m + n) k = pathFrom h f t m k ++ pathFrom h f (t + m) n (k / 2 ^ m) := by
  induction m generalizing t k with
  | zero => simp
  | succ m ih =>
    rw [show m + 1 + n = (m + n) + 1 by omega, pathFrom_succ, ih, pathFrom_succ,
      div_two_div_pow, show t + 1 + m = t + (m + 1) by omega, cons_append]

theorem take_pathFrom {t m n k : ℕ} (hmn : m ≤ n) :
    (pathFrom h f t n k).take m = pathFrom h f t m k := by
  obtain ⟨d, rfl⟩ := Nat.exists_eq_add_of_le hmn
  rw [pathFrom_add]
  exact take_left' (length_pathFrom h f t m k)

theorem drop_pathFrom {t m n k : ℕ} (hmn : m ≤ n) :
    (pathFrom h f t n k).drop m = pathFrom h f (t + m) (n - m) (k / 2 ^ m) := by
  obtain ⟨d, rfl⟩ := Nat.exists_eq_add_of_le hmn
  rw [pathFrom_add, Nat.add_sub_cancel_left]
  exact drop_left' (length_pathFrom h f t m k)

theorem getElem?_pathFrom (t n k j : ℕ) : (pathFrom h f t n k)[j]? =
      if j < n then some (node h f (t + j) (sibling (k / 2 ^ j))) else none := by
  induction n generalizing t k j with
  | zero => simp
  | succ n ih =>
    rw [pathFrom_succ]
    cases j with
    | zero => simp
    | succ j =>
      rw [getElem?_cons_succ, ih, div_two_div_pow, show t + 1 + j = t + (j + 1) by omega]
      simp

/-- Two leaf rows give the same path when the sibling nodes agree. -/
theorem pathFrom_congr {f g : ℕ → D} (t n k : ℕ) (hn : ∀ j < n,
      node h f (t + j) (sibling (k / 2 ^ j)) = node h g (t + j) (sibling (k / 2 ^ j))) :
    pathFrom h f t n k = pathFrom h g t n k := by
  apply ext_getElem?
  intro j
  rw [getElem?_pathFrom, getElem?_pathFrom]
  by_cases hj : j < n
  · simp [hj, hn j hj]
  · simp [hj]

/-- **Completeness.**  The honest path leads from a node to its ancestor. -/
theorem climb_pathFrom (t n k : ℕ) :
    climb h (node h f t k) k (pathFrom h f t n k) = node h f (t + n) (k / 2 ^ n) := by
  induction n generalizing t k with
  | zero => simp
  | succ n ih =>
    rw [pathFrom_succ, climb_cons, combine_node, ih, div_two_div_pow,
      show t + 1 + n = t + (n + 1) by omega]

theorem combine_injective {h : D → D → D} (hinj : Function.Injective2 h) {k : ℕ} {a b s u : D}
    (he : combine h k a s = combine h k b u) : a = b ∧ s = u := by
  unfold combine at he
  split at he
  · exact hinj he
  · exact (hinj he).symm

/-- **Soundness.**  A path of the right length that reaches the tree's own ancestor starts at the
tree's own node and is the honest path, whoever supplied it. -/
theorem climb_sound {h : D → D → D} (hinj : Function.Injective2 h) (f : ℕ → D) {t k : ℕ}
    {a : D} {p : List D} (hp : climb h a k p = node h f (t + p.length) (k / 2 ^ p.length)) :
    a = node h f t k ∧ p = pathFrom h f t p.length k := by
  induction p generalizing t k a with
  | nil => simpa using hp
  | cons s p ih =>
    rw [climb_cons, length_cons, ← div_two_div_pow,
      show t + (p.length + 1) = t + 1 + p.length by omega] at hp
    obtain ⟨hpar, htail⟩ := ih hp
    rw [← combine_node] at hpar
    obtain ⟨ha, hs⟩ := combine_injective hinj hpar
    refine ⟨ha, ?_⟩
    rw [length_cons, pathFrom_succ, ← hs, ← htail]

/-! ## Replacing one leaf -/

variable {h f}

theorem node_update_of_ne {i t k : ℕ} (d : D) (hne : i / 2 ^ t ≠ k) :
    node h (Function.update f i d) t k = node h f t k := by
  apply node_congr
  intro j hlo hhi
  rw [update_of_ne]
  rintro rfl
  exact hne ((Nat.div_eq_iff (by positivity)).mpr ⟨by linarith, by
    have : (k + 1) * 2 ^ t = k * 2 ^ t + 2 ^ t := by ring
    omega⟩)

theorem pathFrom_update_self (i n : ℕ) (d : D) :
    pathFrom h (Function.update f i d) 0 n i = pathFrom h f 0 n i := by
  apply pathFrom_congr
  intro j _
  rw [Nat.zero_add]
  exact node_update_of_ne d (sibling_ne _).symm

/-- An ancestor of the replaced leaf is reached by climbing the old path. -/
theorem node_update_self (i t : ℕ) (d : D) :
    node h (Function.update f i d) t (i / 2 ^ t) = climb h d i (pathFrom h f 0 t i) := by
  have hc := climb_pathFrom h (update f i d) 0 t i
  rw [pathFrom_update_self, node_zero, update_self, Nat.zero_add] at hc
  exact hc.symm

end NyksNode.Merkle
