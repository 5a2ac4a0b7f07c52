import NyksNode.Lib.MountainRange

/-!
# Post-order numbers of the nodes of a mountain range

A mountain range that keeps all its nodes stores them in the order in which they come into
being: a leaf, and then every parent that the leaf completes.  Numbers start at one.  The
number of a node does not depend on how many leafs come after it.
-/

namespace NyksNode.Merkle

/-- The number of trees over `n` leafs. -/
def popCount (n : ℕ) : ℕ := n.bitIndices.length

@[simp] theorem popCount_zero : popCount 0 = 0 := by simp [popCount]

theorem popCount_two_mul (n : ℕ) : popCount (2 * n) = popCount n := by
  simp [popCount, Nat.bitIndices_two_mul]

theorem popCount_two_mul_add_one (n : ℕ) : popCount (2 * n + 1) = popCount n + 1 := by
  simp [popCount, Nat.bitIndices_two_mul_add_one]

theorem popCount_mul_two_pow (n t : ℕ) : popCount (n * 2 ^ t) = popCount n := by
  induction t with
  | zero => simp
  | succ t ih => rw [pow_succ', ← mul_assoc, mul_comm n 2, mul_assoc, popCount_two_mul, ih]

theorem popCount_le (n : ℕ) : popCount n ≤ n := by
  induction n using Nat.strong_induction_on with
  | _ n ih =>
    rcases Nat.even_or_odd' n with ⟨m, rfl | rfl⟩
    · cases m with
      | zero => simp
      | succ m =>
        have := ih (m + 1) (by omega)
        rw [popCount_two_mul]
        omega
    · have := ih m (by omega)
      rw [popCount_two_mul_add_one]
      omega

theorem popCount_succ_le (n : ℕ) : popCount (n + 1) ≤ popCount n + 1 := by
  induction n using Nat.strong_induction_on with
  | _ n ih =>
    rcases Nat.even_or_odd' n with ⟨m, rfl | rfl⟩
    · rw [popCount_two_mul_add_one, popCount_two_mul]
    · have := ih m (by omega)
      rw [show 2 * m + 1 + 1 = 2 * (m + 1) by ring, popCount_two_mul, popCount_two_mul_add_one]
      omega

def nodeCount (n : ℕ) : ℕ := 2 * n - popCount n

@[simp] theorem nodeCount_zero : nodeCount 0 = 0 := by simp [nodeCount]

/-- How many parents the leaf `i` completes: the number of ones at the end of `i`. -/
def rightLineage (i : ℕ) : ℕ := popCount i + 1 - popCount (i + 1)

theorem rightLineage_two_mul (n : ℕ) : rightLineage (2 * n) = 0 := by
  rw [rightLineage, popCount_two_mul_add_one, popCount_two_mul, Nat.sub_self]

theorem rightLineage_two_mul_add_one (n : ℕ) : rightLineage (2 * n + 1) = rightLineage n + 1 := by
  have := popCount_succ_le n
  rw [rightLineage, rightLineage, show 2 * n + 1 + 1 = 2 * (n + 1) by ring, popCount_two_mul,
    popCount_two_mul_add_one]
  omega

theorem nodeCount_succ (n : ℕ) : nodeCount (n + 1) = nodeCount n + 1 + rightLineage n := by
  have h := popCount_le n
  have h' := popCount_succ_le n
  rw [nodeCount, nodeCount, rightLineage]
  omega

theorem nodeCount_strictMono : StrictMono nodeCount := by
  apply strictMono_nat_of_lt_succ
  intro n
  rw [nodeCount_succ]
  omega

theorem le_rightLineage_iff {i t : ℕ} : t ≤ rightLineage i ↔ 2 ^ t ∣ i + 1 := by
  induction t generalizing i with
  | zero => simp
  | succ t ih =>
    rcases Nat.even_or_odd' i with ⟨m, rfl | rfl⟩
    · rw [rightLineage_two_mul]
      constructor
      · intro hle
        omega
      · intro hdvd
        have hdvd2 : 2 ∣ 2 * m + 1 := (dvd_pow_self 2 (Nat.succ_ne_zero t)).trans hdvd
        omega
    · rw [rightLineage_two_mul_add_one, Nat.add_le_add_iff_right, ih, pow_succ',
        show 2 * m + 1 + 1 = 2 * (m + 1) by ring, Nat.mul_dvd_mul_iff_left (by decide)]

/-- The number of the node at height `t` and position `k`: the nodes left of its tree, and then
its tree. -/
def nodeIndex (t k : ℕ) : ℕ := nodeCount (k * 2 ^ t) + 2 ^ (t + 1) - 1

theorem nodeIndex_zero (k : ℕ) : nodeIndex 0 k = nodeCount k + 1 := by simp [nodeIndex]

theorem nodeCount_mul_two_pow (k t : ℕ) : nodeCount (k * 2 ^ t) + popCount k = k * 2 ^ (t + 1) := by
  have h := popCount_le (k * 2 ^ t)
  rw [popCount_mul_two_pow] at h
  rw [nodeCount, popCount_mul_two_pow, pow_succ']
  have : k * (2 * 2 ^ t) = 2 * (k * 2 ^ t) := by ring
  omega

theorem nodeIndex_add (t k : ℕ) : nodeIndex t k + popCount k + 1 = (k + 1) * 2 ^ (t + 1) := by
  have h := nodeCount_mul_two_pow k t
  have hpos : 0 < 2 ^ (t + 1) := by positivity
  have hmul : (k + 1) * 2 ^ (t + 1) = k * 2 ^ (t + 1) + 2 ^ (t + 1) := by ring
  rw [nodeIndex]
  omega

theorem nodeIndex_right (t k : ℕ) :
    nodeIndex t (2 * k + 1) = nodeIndex t (2 * k) + (2 ^ (t + 1) - 1) := by
  have h := nodeIndex_add t (2 * k)
  have h' := nodeIndex_add t (2 * k + 1)
  rw [popCount_two_mul] at h
  rw [popCount_two_mul_add_one] at h'
  have hpos : 0 < 2 ^ (t + 1) := by positivity
  have hmul : (2 * k + 1 + 1) * 2 ^ (t + 1) = (2 * k + 1) * 2 ^ (t + 1) + 2 ^ (t + 1) := by ring
  omega

theorem nodeIndex_parent (t k : ℕ) : nodeIndex (t + 1) k = nodeIndex t (2 * k + 1) + 1 := by
  have h := nodeIndex_add (t + 1) k
  have h' := nodeIndex_add t (2 * k + 1)
  rw [popCount_two_mul_add_one] at h'
  have hmul : (2 * k + 1 + 1) * 2 ^ (t + 1) = (k + 1) * 2 ^ (t + 1 + 1) := by ring
  omega

theorem nodeIndex_eq_last (t k : ℕ) : nodeIndex t k = nodeCount ((k + 1) * 2 ^ t - 1) + 1 + t := by
  induction t generalizing k with
  | zero => simp [nodeIndex_zero]
  | succ t ih =>
    rw [nodeIndex_parent, ih, show (2 * k + 1 + 1) * 2 ^ t = (k + 1) * 2 ^ (t + 1) by ring]
    omega

theorem lt_nodeIndex (t k : ℕ) : nodeCount ((k + 1) * 2 ^ t - 1) < nodeIndex t k := by
  rw [nodeIndex_eq_last]
  omega

theorem nodeIndex_le (t k : ℕ) : nodeIndex t k ≤ nodeCount ((k + 1) * 2 ^ t) := by
  have hpos : 0 < (k + 1) * 2 ^ t := by positivity
  obtain ⟨r, hr⟩ : ∃ r, (k + 1) * 2 ^ t = r + 1 := ⟨(k + 1) * 2 ^ t - 1, by omega⟩
  have ht : t ≤ rightLineage r := le_rightLineage_iff.mpr ⟨k + 1, by rw [← hr, mul_comm]⟩
  rw [nodeIndex_eq_last, hr, nodeCount_succ, Nat.add_sub_cancel]
  omega

/-- The nodes over `n` leafs have the first numbers. -/
theorem nodeIndex_le_iff {t k n : ℕ} : nodeIndex t k ≤ nodeCount n ↔ (k + 1) * 2 ^ t ≤ n := by
  constructor
  · intro hle
    have hlt := (lt_nodeIndex t k).trans_le hle
    have := nodeCount_strictMono.lt_iff_lt.mp hlt
    omega
  · intro hle
    exact (nodeIndex_le t k).trans (nodeCount_strictMono.monotone hle)

theorem le_nodeIndex (t k : ℕ) : t ≤ nodeIndex t k ∧ k ≤ nodeIndex t k := by
  have hlast := popCount_le ((k + 1) * 2 ^ t - 1)
  have hpos : 0 < 2 ^ t := by positivity
  have hk : k + 1 ≤ (k + 1) * 2 ^ t := Nat.le_mul_of_pos_right _ hpos
  rw [nodeIndex_eq_last, nodeCount]
  omega

theorem nodeIndex_injective {t k t' k' : ℕ} (heq : nodeIndex t k = nodeIndex t' k') :
    t = t' ∧ k = k' := by
  -- the number lies between the counts before and after the last leaf
  have hle : ∀ {t k t' k' : ℕ}, nodeIndex t k = nodeIndex t' k' →
      (k + 1) * 2 ^ t ≤ (k' + 1) * 2 ^ t' := by
    intro t k t' k' heq
    rw [← nodeIndex_le_iff, heq]
    exact nodeIndex_le t' k'
  have hlast := le_antisymm (hle heq) (hle heq.symm)
  rw [nodeIndex_eq_last, nodeIndex_eq_last, hlast] at heq
  have ht : t = t' := by omega
  subst ht
  have hk := Nat.eq_of_mul_eq_mul_right (by positivity) hlast
  exact ⟨rfl, by omega⟩

/-- Below a parent that the leaf completes, the leaf is on the right. -/
theorem div_two_pow_of_lt_rightLineage {n j : ℕ} (hj : j < rightLineage n) :
    n / 2 ^ j = 2 * (n / 2 ^ (j + 1)) + 1 := by
  obtain ⟨q, hq⟩ := le_rightLineage_iff.mp (Nat.succ_le_of_lt hj)
  have hpos : 0 < 2 ^ j := by positivity
  have hq0 : 0 < q := Nat.pos_of_ne_zero fun h0 => by simp [h0] at hq
  rw [Nat.succ_eq_add_one, pow_succ] at hq
  have hdiv : n / 2 ^ j = 2 * q - 1 := by
    rw [Nat.div_eq_iff hpos]
    obtain ⟨r, rfl⟩ : ∃ r, q = r + 1 := ⟨q - 1, by omega⟩
    have hexp : 2 ^ j * 2 * (r + 1) = (2 * r + 1) * 2 ^ j + 2 ^ j := by ring
    have hsub : 2 * (r + 1) - 1 = 2 * r + 1 := by omega
    rw [hsub]
    omega
  rw [div_pow_succ, hdiv]
  omega

/-- The tree of the last leaf is the highest node that the leaf completes. -/
theorem height_last (n : ℕ) : height n (n + 1) = rightLineage n := by
  have hdvd : 2 ^ rightLineage n ∣ n + 1 := le_rightLineage_iff.mp le_rfl
  have hndvd : ¬ 2 ^ (rightLineage n + 1) ∣ n + 1 := fun h => by
    have := le_rightLineage_iff.mpr h
    omega
  obtain ⟨q, hq⟩ := hdvd
  have hpos : 0 < 2 ^ rightLineage n := by positivity
  have hq0 : 0 < q := by
    rcases Nat.eq_zero_or_pos q with rfl | h
    · omega
    · exact h
  have hdiv : n / 2 ^ rightLineage n = q - 1 := by
    rw [Nat.div_eq_iff hpos]
    have : 2 ^ rightLineage n * q = (q - 1) * 2 ^ rightLineage n + 2 ^ rightLineage n := by
      obtain ⟨r, rfl⟩ : ∃ r, q = r + 1 := ⟨q - 1, by omega⟩
      rw [Nat.add_sub_cancel]
      ring
    omega
  have hodd : q % 2 = 1 := by
    by_contra heven
    apply hndvd
    rw [pow_succ, hq]
    exact Nat.mul_dvd_mul_left _ (Nat.dvd_of_mod_eq_zero (by omega))
  apply height_unique
  · rw [hq, Nat.mul_div_cancel_left _ hpos, hdiv]
    omega
  · rw [hdiv]
    omega

theorem nodeIndex_rightLineage (n : ℕ) :
    nodeIndex (rightLineage n) (n / 2 ^ rightLineage n) = nodeCount (n + 1) := by
  have hspec := (height_spec (Nat.lt_succ_self n)).1
  rw [Nat.succ_eq_add_one, height_last] at hspec
  have hend : (n / 2 ^ rightLineage n + 1) * 2 ^ rightLineage n = n + 1 := by
    rw [← hspec]
    exact Nat.div_mul_cancel (le_rightLineage_iff.mp le_rfl)
  rw [nodeIndex_eq_last, hend, Nat.add_sub_cancel, nodeCount_succ]

/-- The ancestors of a leaf that are complete are those up to the root of its tree. -/
theorem complete_iff {i n t : ℕ} (hi : i < n) : (i / 2 ^ t + 1) * 2 ^ t ≤ n ↔ t ≤ height i n := by
  constructor
  · intro hle
    by_contra hlt
    rw [div_pow_eq_of_height_lt hi (not_le.mp hlt)] at hle
    have := Nat.lt_div_mul_add (a := n) (b := 2 ^ t) (by positivity)
    rw [Nat.add_mul, one_mul] at hle
    omega
  · intro hle
    obtain ⟨d, hd⟩ := Nat.exists_eq_add_of_le hle
    have hend : (i / 2 ^ height i n + 1) * 2 ^ height i n ≤ n := by
      rw [← (height_spec hi).1]
      exact Nat.div_mul_le_self _ _
    refine le_trans ?_ hend
    rw [hd, pow_add, ← Nat.div_div_eq_div_mul]
    have hq : i / 2 ^ t + 1 ≤ (i / 2 ^ t / 2 ^ d + 1) * 2 ^ d := by
      have := Nat.lt_div_mul_add (a := i / 2 ^ t) (b := 2 ^ d) (by positivity)
      rw [Nat.add_mul, one_mul]
      omega
    calc (i / 2 ^ t + 1) * 2 ^ t ≤ (i / 2 ^ t / 2 ^ d + 1) * 2 ^ d * 2 ^ t :=
          Nat.mul_le_mul_right _ hq
      _ = (i / 2 ^ t / 2 ^ d + 1) * (2 ^ t * 2 ^ d) := by ring

theorem exists_nodeIndex {x n : ℕ} (hpos : 0 < x) (hx : x ≤ nodeCount n) :
    ∃ t k, nodeIndex t k = x ∧ (k + 1) * 2 ^ t ≤ n := by
  induction n with
  | zero =>
    rw [nodeCount_zero] at hx
    omega
  | succ n ih =>
    by_cases hold : x ≤ nodeCount n
    · obtain ⟨t, k, hindex, hle⟩ := ih hold
      exact ⟨t, k, hindex, hle.trans n.le_succ⟩
    · -- the leaf `n` and the nodes that it completes
      rw [nodeCount_succ] at hx
      obtain ⟨k, hk⟩ := le_rightLineage_iff.mp (show x - nodeCount n - 1 ≤ rightLineage n by omega)
      have hk0 : k ≠ 0 := by
        rintro rfl
        simp at hk
      have hend : (k - 1 + 1) * 2 ^ (x - nodeCount n - 1) = n + 1 := by
        rw [Nat.sub_add_cancel (Nat.pos_of_ne_zero hk0), hk, mul_comm]
      refine ⟨x - nodeCount n - 1, k - 1, ?_, hend.le⟩
      rw [nodeIndex_eq_last, hend, Nat.add_sub_cancel]
      omega

end NyksNode.Merkle
