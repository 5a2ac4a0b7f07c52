import NyksNode.Block.Pow
import NyksNode.Block.Symbolic
import NyksNode.Lib.Fold

/-!
# Guessers and verifiers agree

A guesser computes all leafs of its tree layer by layer, and stores them in bit-reversed
order; a verifier recomputes the two opened leafs on their own.  Both are described by
nodes of perfect trees: the leaf at `k` is the root over the buds from `k` on, and the
tree of the guesser is the tree over the leafs in reversed order.
-/

namespace NyksNode

open Option Tip5 Merkle

variable {D : Type} [Tip5 D]

/-! ## Trees -/

namespace MTree

@[simp] theorem length_merkleZip (ps cs : List D) : (merkleZip ps cs).length = ps.length := by
  fun_induction merkleZip ps cs with
  | case1 _ ps a b cs ih => simp [ih]
  | case2 => rfl

theorem getElem?_merkleZip {ps cs : List D} {j : ℕ} (hj : j < ps.length) {a b : D}
    (ha : cs[2 * j]? = some a) (hb : cs[2 * j + 1]? = some b) :
    (merkleZip ps cs)[j]? = some (hashPair a b) := by
  match ps, cs with
  | [], _ => exact absurd hj (Nat.not_lt_zero j)
  | _ :: _, [] => simp at ha
  | _ :: _, [_] => simp at hb
  | _ :: ps, x :: y :: cs =>
    rw [merkleZip]
    cases j with
    | zero => simp_all
    | succ j =>
      rw [List.getElem?_cons_succ]
      exact getElem?_merkleZip (by simpa using hj) (by simpa [Nat.mul_succ] using ha)
        (by simpa [Nat.mul_succ] using hb)

section
variable {nodes children : List D} {start stop : ℕ} (hle : start ≤ stop)
  (hlen : stop ≤ nodes.length)
include hle hlen

theorem length_zipSlice : (zipSlice nodes start stop children).length = nodes.length := by
  simp only [zipSlice, List.length_append, length_merkleZip, List.length_take, List.length_drop]
  omega

theorem getElem?_zipSlice_of_not_mem {i : ℕ} (hi : i < start ∨ stop ≤ i) :
    (zipSlice nodes start stop children)[i]? = nodes[i]? := by
  have hstart : (nodes.take start).length = start := by
    rw [List.length_take]
    omega
  have hstop : (nodes.take start ++ merkleZip ((nodes.take stop).drop start) children).length =
      stop := by
    simp only [List.length_append, length_merkleZip, List.length_drop, List.length_take]
    omega
  rw [zipSlice]
  rcases hi with hi | hi
  · rw [List.append_assoc, List.getElem?_append_left (hstart.symm ▸ hi),
      List.getElem?_take_of_lt hi]
  · rw [List.getElem?_append_right (hstop.symm ▸ hi), hstop, List.getElem?_drop,
      Nat.add_sub_cancel' hi]

theorem getElem?_zipSlice {j : ℕ} (hj : j < stop - start) {a b : D}
    (ha : children[2 * j]? = some a) (hb : children[2 * j + 1]? = some b) :
    (zipSlice nodes start stop children)[start + j]? = some (hashPair a b) := by
  have hstart : (nodes.take start).length = start := by
    rw [List.length_take]
    omega
  have hslice : ((nodes.take stop).drop start).length = stop - start := by
    rw [List.length_drop, List.length_take]
    omega
  rw [zipSlice, List.append_assoc, List.getElem?_append_right (by omega), hstart,
    Nat.add_sub_cancel_left, List.getElem?_append_left (by rw [length_merkleZip]; omega)]
  exact getElem?_merkleZip (hslice.symm ▸ hj) ha hb

end

/-- The layers of the internal nodes up to height `t` are those of the tree over `f`. -/
structure Layered (f : ℕ → D) (height t : ℕ) (internalNodes : List D) : Prop where
  le_length : 2 ^ height ≤ internalNodes.length
  getElem?_eq : ∀ s, 1 ≤ s → s ≤ t → ∀ j < 2 ^ (height - s),
    internalNodes[2 ^ (height - s) + j]? = some (node Tip5.hashPair f s j)

section
variable {f : ℕ → D} {height t : ℕ}

theorem Layered.zipSlice {nodes children : List D} (h : Layered f height t nodes) (hlt : t < height)
    (hchildren : ∀ j < 2 ^ (height - t), children[j]? = some (node hashPair f t j)) :
    Layered f height (t + 1)
      (zipSlice nodes (2 ^ (height - (t + 1))) (2 ^ (height - t)) children) := by
  have hpow : 2 ^ (height - t) = 2 * 2 ^ (height - (t + 1)) := by
    rw [← pow_succ', show height - (t + 1) + 1 = height - t by omega]
  have hle : 2 ^ (height - (t + 1)) ≤ 2 ^ (height - t) := by omega
  have hlen : 2 ^ (height - t) ≤ nodes.length :=
    (Nat.pow_le_pow_right Nat.zero_lt_two (Nat.sub_le _ _)).trans h.le_length
  refine ⟨(length_zipSlice hle hlen).symm ▸ h.le_length, ?_⟩
  intro s hs hst j hj
  rcases Nat.lt_or_ge t s with hts | hts
  · -- the new layer
    obtain rfl : s = t + 1 := by omega
    exact getElem?_zipSlice hle hlen (by omega) (hchildren (2 * j) (by omega))
      (hchildren (2 * j + 1) (by omega))
  · rw [getElem?_zipSlice_of_not_mem hle hlen, h.getElem?_eq s hs hts j hj]
    right
    exact (Nat.pow_le_pow_right Nat.zero_lt_two (by omega)).trans (Nat.le_add_right _ _)

/-- **One layer.** -/
theorem Layered.zipLayer {nodes : List D} (ht : 1 ≤ t)
    (hlt : t < height) (h : Layered f height t nodes) :
    Layered f height (t + 1) (zipLayer height nodes t) := by
  rw [MTree.zipLayer, show height - 1 - t = height - (t + 1) by omega]
  refine h.zipSlice hlt fun j hj => ?_
  rw [List.getElem?_drop]
  exact h.getElem?_eq t ht le_rfl j hj

/-- **All layers.** -/
theorem Layered.foldl_zipLayer {nodes : List D} (ht : 1 ≤ t) (n : ℕ)
    (hle : t + n ≤ height) (h : Layered f height t nodes) :
    Layered f height (t + n) ((List.range' t n).foldl (MTree.zipLayer height) nodes) := by
  induction n generalizing t nodes with
  | zero => exact h
  | succ n ih =>
    rw [List.range'_succ, List.foldl_cons, ← Nat.add_assoc, Nat.add_right_comm]
    exact ih (by omega) (by omega) (h.zipLayer ht (by omega))

end

/-- A tree of the source that is the perfect tree over the row `f`. -/
structure Over (f : ℕ → D) (height : ℕ) (t : MTree D) : Prop where
  length_leafs : t.leafs.length = 2 ^ height
  getElem?_leafs : ∀ j < 2 ^ height, t.leafs[j]? = some (f j)
  layered : Layered f height height t.internalNodes

/-- **What `build_inplace` builds.** -/
theorem exists_buildInplace {f : ℕ → D} {height : ℕ} {leafs internalNodes : List D}
    (hpos : 1 ≤ height) (hlen : leafs.length = 2 ^ height)
    (hleafs : ∀ j < 2 ^ height, leafs[j]? = some (f j))
    (hnodes : 2 ^ height ≤ internalNodes.length) :
    ∃ t, buildInplace leafs internalNodes = some t ∧ t.Over f height := by
  have hheight : Nat.log2 leafs.length = height := by rw [hlen, Nat.log2_two_pow]
  have hzero : Layered f height 0 internalNodes := ⟨hnodes, fun s hs hs' => by omega⟩
  have hfirst := hzero.zipSlice hpos hleafs
  have hall := hfirst.foldl_zipLayer le_rfl (height - 1) (by omega)
  rw [show 0 + 1 + (height - 1) = height by omega] at hall
  refine ⟨⟨leafs, _⟩, ?_, hlen, hleafs, hall⟩
  rw [buildInplace, hheight, if_neg (by omega)]
  rfl

theorem shift_eq {height s index : ℕ} (hs : s < height) :
    (2 ^ (height - s) + index / 2 ^ s) >>> 1 = 2 ^ (height - (s + 1)) + index / 2 ^ (s + 1) := by
  rw [Nat.shiftRight_one, show height - s = height - (s + 1) + 1 by omega, pow_succ',
    Nat.mul_add_div Nat.zero_lt_two, Nat.div_div_eq_div_mul, pow_succ]

theorem xor_one_eq {k j : ℕ} (hk : 1 ≤ k) : (2 ^ k + j) ^^^ 1 = 2 ^ k + sibling j := by
  have heven : 2 ^ k % 2 = 0 := by
    obtain ⟨k, rfl⟩ := Nat.exists_eq_add_of_le' hk
    rw [pow_succ]
    omega
  change sibling (2 ^ k + j) = _
  rcases Nat.mod_two_eq_zero_or_one j with hj | hj
  · rw [sibling_of_even (by omega), sibling_of_even hj, Nat.add_assoc]
  · have hpos : 1 ≤ j := by omega
    rw [sibling_of_odd (by omega), sibling_of_odd hj, Nat.add_sub_assoc hpos]

theorem sibling_lt {k j : ℕ} (hk : 1 ≤ k) (hj : j < 2 ^ k) : sibling j < 2 ^ k := by
  obtain ⟨k, rfl⟩ := Nat.exists_eq_add_of_le' hk
  rw [pow_succ] at *
  rcases Nat.mod_two_eq_zero_or_one j with h | h
  · rw [sibling_of_even h]
    omega
  · rw [sibling_of_odd h]
    omega

namespace Over
variable {f : ℕ → D} {height : ℕ} {t : MTree D}

theorem root_eq (h : t.Over f height) (hpos : 1 ≤ height) : t.root = node hashPair f height 0 := by
  have hroot := h.layered.getElem?_eq height hpos le_rfl 0 (by simp)
  rw [Nat.sub_self, pow_zero, Nat.add_zero] at hroot
  rw [root, hroot, getD_some]

/-- The loop of `path` above height `s`. -/
theorem ascend_eq (h : t.Over f height) {index : ℕ} (hindex : index < 2 ^ height) {s n : ℕ}
    (hs : s + n + 1 = height) : t.ascend n (2 ^ (height - s) + index / 2 ^ s) =
      some (pathFrom hashPair f (s + 1) n (index / 2 ^ (s + 1))) := by
  induction n generalizing s with
  | zero => rfl
  | succ n ih =>
    have hlt : index / 2 ^ (s + 1) < 2 ^ (height - (s + 1)) := by
      rw [Nat.div_lt_iff_lt_mul (Nat.two_pow_pos _), ← pow_add,
        show height - (s + 1) + (s + 1) = height by omega]
      exact hindex
    have hnode := h.layered.getElem?_eq (s + 1) (by omega) (by omega) _
      (sibling_lt (by omega) hlt)
    rw [ascend, shift_eq (by omega), xor_one_eq (by omega), hnode, pathFrom_succ,
      ih (by omega), Nat.div_div_eq_div_mul, ← pow_succ]
    rfl

theorem path_eq (h : t.Over f height) (hpos : 1 ≤ height) {index : ℕ}
    (hindex : index < 2 ^ height) : t.path index = some (pathFrom hashPair f 0 height index) := by
  have hleaf := h.getElem?_leafs (sibling index) (sibling_lt hpos hindex)
  have hrest := h.ascend_eq hindex (s := 0) (n := height - 1) (by omega)
  rw [Nat.sub_zero, pow_zero, Nat.div_one, Nat.zero_add, pow_one, Nat.add_comm] at hrest
  rw [path, h.length_leafs, Nat.log2_two_pow, hrest,
    show t.leafs[index ^^^ 1]? = some (f (sibling index)) from hleaf]
  obtain ⟨n, rfl⟩ := Nat.exists_eq_add_of_le' hpos
  rfl

end Over

theorem climb_eq (index : ℕ) (d : D) (path : List D) :
    climb index d path = Merkle.climb hashPair d index path := by
  induction path generalizing index d with
  | nil => rfl
  | cons s path ih =>
    have hcombine : (if index &&& 1 = 1 then hashPair s d else hashPair d s) =
        combine hashPair index d s := by
      rw [combine, Nat.and_one_is_mod]
      split_ifs <;> first | rfl | omega
    rw [climb, climb_cons, hcombine, Nat.shiftRight_one, ih]

theorem verify_pathFrom [DecidableEq D] (f : ℕ → D) {height index : ℕ}
    (hindex : index < 2 ^ height) :
    verify (node hashPair f height 0) index (pathFrom hashPair f 0 height index)
      (f index) = true := by
  have hclimb := climb_pathFrom hashPair f 0 height index
  rw [Nat.zero_add, Nat.div_eq_of_lt hindex, node_zero] at hclimb
  rw [verify, length_pathFrom, Nat.one_shiftLeft, if_neg (by omega), climb_eq, hclimb]
  exact decide_eq_true rfl

/-- The bound of `verify` lets through the number of leafs, with the siblings of the first leaf. -/
theorem verify_two_pow [DecidableEq D] (root : D) (path : List D) (element : D) :
    verify root (2 ^ path.length) path element = verify root 0 path element := by
  have hclimb : Merkle.climb hashPair element (2 ^ path.length) path =
      Merkle.climb hashPair element 0 path := climb_congr _ (by simp)
  rw [verify, verify, Nat.one_shiftLeft, if_neg (lt_irrefl _), if_neg (Nat.not_lt_zero _), climb_eq,
    climb_eq, hclimb]

/-- **Openings of a tree** are accepted, if it can be built.  An index that is the number of leafs
passes for the first one. -/
theorem openings_accepted_iff [DecidableEq D] {leafs path : List D}
    (hlen : leafs.length = 2 ^ path.length) (internalNodes : List D) (root element : D) :
    ((∃ t, buildInplace leafs internalNodes = some t ∧ ∀ i (hi : i < leafs.length),
        ∃ p, t.path i = some p ∧ verify t.root i p leafs[i] = true) ∧
      ∀ index, 2 ^ path.length ≤ index → verify root index path element = false) ↔
    (1 ≤ path.length ∧ 2 ^ path.length ≤ internalNodes.length) ∧
      verify root 0 path element = false := by
  constructor
  · rintro ⟨⟨t, ht, -⟩, hreject⟩
    rw [buildInplace, hlen, Nat.log2_two_pow] at ht
    split_ifs at ht
    have hfirst := hreject _ le_rfl
    rw [verify_two_pow] at hfirst
    exact ⟨by omega, hfirst⟩
  · rintro ⟨⟨hpos, hnodes⟩, hfirst⟩
    have hleafs : ∀ j < 2 ^ path.length, leafs[j]? = some (leafs.getD j zeroDigest) := by
      intro j hj
      have hj' := hlen ▸ hj
      rw [List.getElem?_eq_getElem hj', List.getD_eq_getElem _ _ hj']
    obtain ⟨t, ht, hover⟩ := exists_buildInplace hpos hlen hleafs hnodes
    refine ⟨⟨t, ht, fun i hi => ⟨_, hover.path_eq hpos (hlen ▸ hi), ?_⟩⟩, ?_⟩
    · rw [hover.root_eq hpos, ← List.getD_eq_getElem _ zeroDigest hi]
      exact verify_pathFrom _ (hlen ▸ hi)
    · intro index hindex
      rcases hindex.eq_or_lt with rfl | hlt
      · rw [verify_two_pow, hfirst]
      · rw [verify, Nat.one_shiftLeft, if_pos hlt]

/-- A tree of four leafs, and an opening that fails at the first leaf. -/
theorem openings_accepted_four :
    let leafs : List SymbolicDigest := [.atom 0, .atom 1, .atom 2, .atom 3]
    let path : List SymbolicDigest := [.atom 1, .pair (.atom 2) (.atom 3)]
    (∃ t, buildInplace leafs (.replicate 4 .zero) = some t ∧ ∀ i (hi : i < leafs.length),
        ∃ p, t.path i = some p ∧ verify t.root i p leafs[i] = true) ∧
      ∀ index, 2 ^ path.length ≤ index → verify (.atom 9) index path (.atom 0) = false := by
  intro leafs path
  exact (openings_accepted_iff (show leafs.length = 2 ^ path.length from rfl) _ _ _).mpr (by decide)

/-- Index 2 of a tree of two leafs is opened with the first leaf. -/
theorem verify_accepts_leaf_count :
    ∃ t p, buildInplace [SymbolicDigest.atom 0, .atom 1] [.zero, .zero] = some t ∧
      t.path 0 = some p ∧ p.length = 1 ∧ verify t.root 2 p (.atom 0) = true :=
  ⟨_, _, rfl, rfl, rfl, by decide⟩

end MTree

namespace Pow

/-! ## Bit reversal -/

/-- The four stages on 32 bits, without the rotation. -/
def stages (k : ℕ) : ℕ :=
  exchange 8 0x00ff00ff 0xff00ff00 (exchange 4 0x0f0f0f0f 0xf0f0f0f0
    (exchange 2 0x33333333 0xcccccccc (exchange 1 0x55555555 0xaaaaaaaa k)))

theorem testBit_stages (k : ℕ) {i : ℕ} (hi : i < 32) :
    (stages k).testBit i = k.testBit (i ^^^ 8 ^^^ 4 ^^^ 2 ^^^ 1) := by
  have h1 : Exchanges 32 1 0x55555555 0xaaaaaaaa := by decide
  have h2 : Exchanges 32 2 0x33333333 0xcccccccc := by decide
  have h4 : Exchanges 32 4 0x0f0f0f0f 0xf0f0f0f0 := by decide
  have h8 : Exchanges 32 8 0x00ff00ff 0xff00ff00 := by decide
  have hxor : ∀ j < 32, ∀ s < 32, j ^^^ s < 32 := fun j hj s hs =>
    Nat.xor_lt_two_pow (n := 5) hj hs
  have hi8 := hxor i hi 8 (by decide)
  have hi4 := hxor _ hi8 4 (by decide)
  have hi2 := hxor _ hi4 2 (by decide)
  rw [stages, h8.testBit_exchange _ hi, h4.testBit_exchange _ hi8, h2.testBit_exchange _ hi4,
    h1.testBit_exchange _ hi2]

theorem testBit_rotate {k : ℕ} (hk : k < 2 ^ 32) (i : ℕ) :
    ((k >>> 16) ||| ((k <<< 16) % u32Bound)).testBit i =
      (decide (i < 32) && k.testBit (i ^^^ 16)) := by
  rw [Nat.testBit_or, Nat.testBit_shiftRight, u32Bound, Nat.testBit_mod_two_pow,
    Nat.testBit_shiftLeft]
  have hhigh : ∀ j, 32 ≤ j → k.testBit j = false := fun j hj =>
    Nat.testBit_lt_two_pow (hk.trans_le (Nat.pow_le_pow_right Nat.zero_lt_two hj))
  rcases Nat.lt_or_ge i 32 with hi | hi
  · have hcases : ∀ i < 32, (i < 16 ∧ 16 + i = i ^^^ 16) ∨ (16 ≤ i ∧ i - 16 = i ^^^ 16) := by
      decide
    rcases hcases i hi with ⟨hlt, heq⟩ | ⟨hge, heq⟩
    · rw [← heq]
      simp [hi, hlt]
    · rw [← heq]
      simp [hi, hge, hhigh (16 + i) (by omega)]
  · simp [not_lt.mpr hi, hhigh (16 + i) (by omega)]

/-- **The reversal of the source**, in terms of bits. -/
theorem bitreverse_eq {height k : ℕ} (hpos : 1 ≤ height) (hle : height ≤ 32) :
    bitreverse k height = some (bitReverse height k) := by
  have hstages : stages k < 2 ^ 32 := exchange_lt (by decide) (by decide) _
  have hshift : (32 - height) &&& 0x1f = 32 - height := by
    rw [show 0x1f = 2 ^ 5 - 1 from rfl, Nat.and_two_pow_sub_one_eq_mod]
    exact Nat.mod_eq_of_lt (by omega)
  have hreverse : ∀ i < 32, i ^^^ 16 ^^^ 8 ^^^ 4 ^^^ 2 ^^^ 1 = 31 - i := by decide
  rw [bitreverse, if_neg (by omega), some_inj]
  change ((stages k >>> 16) ||| ((stages k <<< 16) % u32Bound)) >>> _ = _
  apply Nat.eq_of_testBit_eq
  intro j
  rw [hshift, Nat.testBit_shiftRight, testBit_rotate hstages, testBit_bitReverse]
  rcases Nat.lt_or_ge j height with hj | hj
  · have hlt : 32 - height + j < 32 := by omega
    rw [testBit_stages k (Nat.xor_lt_two_pow (n := 5) hlt (by decide)), hreverse _ hlt,
      show 31 - (32 - height + j) = height - 1 - j by omega, decide_eq_true hlt, decide_eq_true hj]
  · rw [decide_eq_false (by omega), decide_eq_false (by omega), Bool.false_and, Bool.false_and]

theorem swapIndices_eq {height : ℕ} (hpos : 1 ≤ height) (hle : height ≤ 32) :
    swapIndices (2 ^ height) = some ((List.range (2 ^ height)).map fun k =>
      if k < bitReverse height k then some (bitReverse height k) else none) := by
  apply mapM_eq_some
  intro k hk
  have hlt : k < u32Bound :=
    (List.mem_range.mp hk).trans_le (Nat.pow_le_pow_right Nat.zero_lt_two hle)
  rw [Nat.mod_eq_of_lt hlt, Nat.log2_two_pow, bitreverse_eq hpos hle]
  rfl

theorem le_of_swapIndices {height : ℕ} {r : List (Option ℕ)}
    (hr : swapIndices (2 ^ height) = some r) : height ≤ 32 := by
  have hsome := isSome_mapM_iff.mp (isSome_of_mem hr) 0
    (List.mem_range.mpr (Nat.two_pow_pos height))
  by_contra hgt
  rw [Nat.log2_two_pow, bitreverse, if_pos (by omega)] at hsome
  simp at hsome

omit [Tip5 D] in
/-- **The loop over the swaps** permutes the leafs. -/
theorem exists_foldlM_swapRound {height : ℕ} {leafs : List D} (hlen : leafs.length = 2 ^ height) :
    ∃ leafs', (((List.range (2 ^ height)).map fun k =>
        if k < bitReverse height k then some (bitReverse height k) else none).zipIdx.foldlM
          swapRound leafs) = some leafs' ∧ leafs'.length = 2 ^ height ∧
      ∀ j < 2 ^ height, leafs'[j]? = leafs[bitReverse height j]? := by
  have hloop : ∀ l : List D, (((List.range (2 ^ height)).map fun k =>
      if k < bitReverse height k then some (bitReverse height k) else none).zipIdx.foldlM
        swapRound l) = swapAll (bitReverse height) (2 ^ height) l := by
    intro l
    have hidx :
        (List.range (2 ^ height)).zipIdx = (List.range (2 ^ height)).map fun k => (k, k) := by
      apply List.ext_getElem <;> simp
    rw [swapAll, List.zipIdx_map, hidx, List.foldlM_map, List.foldlM_map]
    congr 1
    funext l k
    simp only [swapRound, Prod.map_apply]
    split_ifs <;> rfl
  rw [hloop]
  exact getElem?_swapAll (fun k _ => bitReverse_lt height k) (fun k => bitReverse_bitReverse) hlen

/-! ## Leafs -/

section
variable [DigestOps D]

/-- The root over the `2 ^ t` buds from `k` on. -/
def leafValue (height : ℕ) (commitment : D) (t k : ℕ) : D :=
  node Tip5.hashPair (fun j => bud commitment ((k + j) % 2 ^ height)) t 0

theorem leafValue_succ (height : ℕ) (commitment : D) (t k : ℕ) :
    leafValue height commitment (t + 1) k = hashPair (leafValue height commitment t k)
        (leafValue height commitment t ((k + 2 ^ t) % 2 ^ height)) := by
  have hright : leafValue height commitment t ((k + 2 ^ t) % 2 ^ height) =
      node hashPair (fun j => bud commitment ((k + j) % 2 ^ height)) t 1 := by
    rw [← Nat.add_zero 1, ← node_shift, leafValue]
    congr 1
    funext j
    rw [Nat.mod_add_mod, Nat.one_mul, Nat.add_assoc]
  rw [hright]
  rfl

/-- **What a verifier recomputes.** -/
theorem leaf_eq (height : ℕ) (commitment : D) (index : ℕ) :
    leaf height commitment index = some (leafValue height commitment numBudLayers index) := by
  set buds := (List.range budsPerLeaf).map fun i =>
    bud commitment ((index + i) % numLeafs height) with hbuds
  have hlen : buds.length = 2 ^ numBudLayers := by
    rw [hbuds, List.length_map, List.length_range]
    rfl
  obtain ⟨t, ht, hover⟩ := MTree.exists_buildInplace
    (f := fun j => bud commitment ((index + j) % 2 ^ height)) (by decide) hlen (fun j hj => by
      rw [hbuds, List.getElem?_map, budsPerLeaf, List.getElem?_range hj]
      rfl) hlen.ge
  rw [leaf, ← hbuds, ht]
  change some t.root = _
  rw [hover.root_eq (by decide)]
  rfl

theorem budLayer_eq (height : ℕ) (commitment : D) (t : ℕ) :
    budLayer (2 ^ height) t ((List.range (2 ^ height)).map (leafValue height commitment t)) =
      some ((List.range (2 ^ height)).map (leafValue height commitment (t + 1))) := by
  apply mapM_eq_some
  intro k hk
  have hmod : (k + 2 ^ t) % 2 ^ height < 2 ^ height := Nat.mod_lt _ (Nat.two_pow_pos _)
  rw [List.getElem?_map, List.getElem?_map, List.getElem?_range (List.mem_range.mp hk),
    List.getElem?_range hmod, leafValue_succ]
  rfl

/-- The buffers after `t` layers: `buds` is layer `t`. -/
structure Buffers.AtLayer (height : ℕ) (commitment : D) (t : ℕ) (b : Buffers D) : Prop where
  buds_eq : (if b.budsAreIns then b.ins else b.outs) =
    (List.range (2 ^ height)).map (leafValue height commitment t)
  length_ins : b.ins.length = 2 ^ height
  budsAreIns_eq : b.budsAreIns = decide (t % 2 = 0)
  numSwaps_eq : b.numSwaps = t

theorem Buffers.AtLayer.round {height t : ℕ} {commitment : D} {b : Buffers D}
    (hb : b.AtLayer height commitment t) :
    ∃ b', b.round (2 ^ height) t = some b' ∧ b'.AtLayer height commitment (t + 1) := by
  have hlayer := budLayer_eq height commitment t
  set layer := (List.range (2 ^ height)).map (leafValue height commitment (t + 1)) with hl
  have hparity := hb.budsAreIns_eq
  have hbuds := hb.buds_eq
  cases hflag : b.budsAreIns with
  | true =>
    rw [hflag] at hparity hbuds
    have ht : t % 2 = 0 := of_decide_eq_true hparity.symm
    refine ⟨swap { b with outs := layer }, ?_, ?_, hb.length_ins, ?_, ?_⟩
    · rw [Buffers.round, if_pos hflag, show b.ins = _ from hbuds, hlayer]
      rfl
    · simp [swap, hflag, hl]
    · simp only [swap, hflag, Bool.not_true]
      exact (decide_eq_false (by omega)).symm
    · rw [swap, hb.numSwaps_eq]
  | false =>
    rw [hflag] at hparity hbuds
    have ht : t % 2 ≠ 0 := of_decide_eq_false hparity.symm
    refine ⟨swap { b with ins := layer }, ?_, ?_, ?_, ?_, ?_⟩
    · rw [Buffers.round, if_neg (Bool.eq_false_iff.mp hflag), show b.outs = _ from hbuds, hlayer]
      rfl
    · simp [swap, hflag, hl]
    · simp [swap, hl]
    · simp only [swap, hflag, Bool.not_false]
      exact (decide_eq_true (by omega)).symm
    · rw [swap, hb.numSwaps_eq]

theorem exists_foldlM_round (height : ℕ) (commitment : D) (t : ℕ) :
    ∃ b, (List.range t).foldlM (Buffers.round (2 ^ height))
        ⟨(List.range (2 ^ height)).map (bud commitment),
          (List.range (2 ^ height)).map (bud commitment), true, 0⟩ = some b ∧
      b.AtLayer height commitment t := by
  induction t with
  | zero =>
    refine ⟨_, rfl, ?_, by simp, rfl, rfl⟩
    apply List.map_congr_left
    intro k hk
    rw [leafValue, node_zero, Nat.add_zero, Nat.mod_eq_of_lt (List.mem_range.mp hk)]
  | succ t ih =>
    obtain ⟨b, hrun, hb⟩ := ih
    obtain ⟨b', hround, hb'⟩ := hb.round
    refine ⟨b', ?_, hb'⟩
    rw [List.range_succ, List.foldlM_append, hrun, some_bind, List.foldlM_cons, hround]
    rfl

/-- The leafs before they are swapped: the buffers end in the order that the source counts on. -/
theorem preprocess_eq (height : ℕ) (prevBlockDigest : D) :
    ∃ internalNodes : List D, internalNodes.length = 2 ^ height ∧
      preprocess height prevBlockDigest = (do
        let swaps ← swapIndices (2 ^ height)
        let leafs ← swaps.zipIdx.foldlM swapRound
          ((List.range (2 ^ height)).map (leafValue height prevBlockDigest numBudLayers))
        let merkleTree ← MTree.buildInplace leafs internalNodes
        some ⟨merkleTree, prevBlockDigest⟩) := by
  obtain ⟨b, hrun, hb⟩ := exists_foldlM_round height prevBlockDigest numBudLayers
  have hflag : b.budsAreIns = false := hb.budsAreIns_eq
  have houts := hb.buds_eq
  rw [hflag, if_neg Bool.false_ne_true] at houts
  have hswaps : (b.numSwaps + 1) &&& 1 ≠ 1 := by
    rw [hb.numSwaps_eq]
    decide
  refine ⟨b.ins, hb.length_ins, ?_⟩
  rw [preprocess, numLeafs, hrun, some_bind]
  simp only [Buffers.swap, if_neg hswaps, houts, List.length_map, List.length_range]

omit [Tip5 D] [DigestOps D] in
theorem length_foldlM_swapRound {swaps : List (Option ℕ × ℕ)} {leafs leafs' : List D}
    (hrun : swaps.foldlM swapRound leafs = some leafs') : leafs'.length = leafs.length := by
  refine foldlM_invariant (P := fun l => l.length = leafs.length) ?_ rfl hrun
  intro l swap _ l' hl hround
  rw [swapRound] at hround
  split at hround
  · simp only [swapAt, bind_eq_some, some_inj] at hround
    obtain ⟨_, -, _, -, rfl⟩ := hround
    simpa using hl
  · cases hround
    exact hl

theorem bounds_of_preprocess {height : ℕ} {prevBlockDigest : D} {buffer : GuesserBuffer D height}
    (hbuffer : preprocess height prevBlockDigest = some buffer) : 1 ≤ height ∧ height ≤ 32 := by
  obtain ⟨internalNodes, -, heq⟩ := preprocess_eq height prevBlockDigest
  rw [heq] at hbuffer
  simp only [bind_eq_some] at hbuffer
  obtain ⟨swaps, hswaps, leafs, hleafs, tree, htree, -⟩ := hbuffer
  have hlen := length_foldlM_swapRound hleafs
  rw [List.length_map, List.length_range] at hlen
  refine ⟨?_, le_of_swapIndices hswaps⟩
  by_contra hzero
  obtain rfl : height = 0 := by omega
  have hlog : Nat.log2 leafs.length = 0 := by rw [hlen, Nat.log2_two_pow]
  simp [MTree.buildInplace, hlog] at htree

/-- **The tree of a guesser**: over the leafs, in reversed order. -/
theorem exists_preprocess {height : ℕ} (hpos : 1 ≤ height) (hle : height ≤ 32)
    (prevBlockDigest : D) :
    ∃ buffer : GuesserBuffer D height, preprocess height prevBlockDigest = some buffer ∧
      buffer.merkleTree.Over (fun j => leafValue height prevBlockDigest numBudLayers
        (bitReverse height j)) height := by
  obtain ⟨internalNodes, hnodes, heq⟩ := preprocess_eq height prevBlockDigest
  have hcount : ((List.range (2 ^ height)).map
      (leafValue height prevBlockDigest numBudLayers)).length = 2 ^ height := by simp
  obtain ⟨leafs, hleafs, hlen, hget⟩ := exists_foldlM_swapRound hcount
  obtain ⟨tree, htree, hover⟩ := MTree.exists_buildInplace hpos hlen
    (f := fun j => leafValue height prevBlockDigest numBudLayers (bitReverse height j))
    (fun j hj => by
      rw [hget j hj, List.getElem?_map, List.getElem?_range (bitReverse_lt height j)]
      rfl) hnodes.ge
  refine ⟨⟨tree, prevBlockDigest⟩, ?_, hover⟩
  rw [heq, swapIndices_eq hpos hle]
  simp [hleafs, htree]

end

/-! ## Solutions -/

section
variable [DigestOps D]

theorem indices_lt (height : ℕ) (hash nonce : D) :
    (indices height hash nonce).1 < 2 ^ height ∧ (indices height hash nonce).2 < 2 ^ height :=
  ⟨Nat.mod_lt _ (Nat.two_pow_pos _), Nat.mod_lt _ (Nat.two_pow_pos _)⟩

/-- The leaf that a verifier computes is the one at this index of the tree. -/
theorem leafAt_eq {height : ℕ} (hpos : 1 ≤ height) (hle : height ≤ 32) (parentDigest : D)
    {index : ℕ} (hindex : index < 2 ^ height) : leafAt height parentDigest index =
      some (leafValue height parentDigest numBudLayers (bitReverse height index)) := by
  have hlt : index < u32Bound :=
    hindex.trans_le (Nat.pow_le_pow_right Nat.zero_lt_two hle)
  rw [leafAt, if_neg (not_le.mpr hlt), bitreverse_eq hpos hle]
  exact leaf_eq height parentDigest _

variable [ConsensusOps D]

/-- **What `guess` returns**: the honest paths at the two indices, if the target is met. -/
theorem guess_eq {height : ℕ} (hpos : 1 ≤ height) {buffer : GuesserBuffer D height} {f : ℕ → D}
    (hover : buffer.merkleTree.Over f height) (mastAuthPaths : PowMastPaths D)
    (preimage nonce target : D) : ∃ pow : Pow D height,
      pow.root = node hashPair f height 0 ∧ pow.nonce = nonce ∧ pow.pathA.toList =
        pathFrom hashPair f 0 height (indices height preimage nonce).1 ∧
      pow.pathB.toList = pathFrom hashPair f 0 height (indices height preimage nonce).2 ∧
      guess buffer mastAuthPaths preimage nonce target =
        some (if DigestOps.le (mastAuthPaths.fastMastHash pow) target then some pow else none) := by
  obtain ⟨hA, hB⟩ := indices_lt height preimage nonce
  have harray : ∀ k, toArrayOf (pathFrom hashPair f 0 height k) =
      some (⟨(pathFrom hashPair f 0 height k).toArray, by simp⟩ : Vector D height) :=
    fun k => dif_pos (length_pathFrom ..)
  refine ⟨⟨_, ⟨(pathFrom hashPair f 0 height (indices height preimage nonce).1).toArray,
    by simp⟩, ⟨(pathFrom hashPair f 0 height (indices height preimage nonce).2).toArray,
    by simp⟩, nonce⟩, hover.root_eq hpos, rfl, by simp [Vector.toList], by simp [Vector.toList], ?_⟩
  simp only [guess, hover.path_eq hpos hA, hover.path_eq hpos hB, harray, some_bind]
  rfl

variable [DecidableEq D]

/-- **Guessed solutions are valid.**  A solution that a guesser finds with the preimage of its
buffer and paths passes the validation for the same paths, target and previous block. -/
theorem guess_validates {height : ℕ} {prevBlockDigest : D} {buffer : GuesserBuffer D height}
    {mastAuthPaths : PowMastPaths D} {nonce target : D} {pow : Pow D height}
    (hbuffer : preprocess height prevBlockDigest = some buffer)
    (hguess : guess buffer mastAuthPaths (buffer.indexPickerPreimage mastAuthPaths) nonce target =
      some (some pow)) : (pow.validate mastAuthPaths target prevBlockDigest).Returns () := by
  obtain ⟨hpos, hle⟩ := bounds_of_preprocess hbuffer
  obtain ⟨buffer', hbuffer', hover⟩ := exists_preprocess hpos hle prevBlockDigest
  obtain rfl : buffer = buffer' := some_inj.mp (hbuffer.symm.trans hbuffer')
  obtain ⟨pow', hroot, hnonce, hpathA, hpathB, heq⟩ := guess_eq hpos hover mastAuthPaths
    (buffer.indexPickerPreimage mastAuthPaths) nonce target
  rw [heq, some_inj, ite_none_right_eq_some, some_inj] at hguess
  obtain ⟨hmet, rfl⟩ := hguess
  -- the preimage that the verifier computes is the one of the buffer
  have hpreimage : hashPair pow'.root mastAuthPaths.commit =
      buffer.indexPickerPreimage mastAuthPaths := by
    rw [GuesserBuffer.indexPickerPreimage, hover.root_eq hpos, hroot]
  obtain ⟨hA, hB⟩ := indices_lt height (buffer.indexPickerPreimage mastAuthPaths) nonce
  simp only [validate, hpreimage, hnonce, leafAt_eq hpos hle _ hA, leafAt_eq hpos hle _ hB,
    hpathA, hpathB, Fallible.returns_bind, Fallible.returns_orPanic, Fallible.returns_ensure]
  rw [hroot]
  exact ⟨_, rfl, _, rfl, (), MTree.verify_pathFrom _ hA, (), MTree.verify_pathFrom _ hB, hmet⟩

end

def zeroPaths : PowMastPaths SymbolicDigest :=
  ⟨.replicate 3 .zero, .replicate 2 .zero, .replicate 1 .zero⟩

theorem guess_validates_symbolic :
    ∃ (buffer : GuesserBuffer SymbolicDigest 1) (pow : Pow SymbolicDigest 1),
      preprocess 1 .zero = some buffer ∧
      guess buffer zeroPaths (buffer.indexPickerPreimage zeroPaths) (.atom 7) (.atom (10 ^ 100)) =
        some (some pow) ∧ (pow.validate zeroPaths (.atom (10 ^ 100)) .zero).Returns () := by
  have hrun : ((preprocess 1 (.zero : SymbolicDigest)).bind fun buffer =>
      guess buffer zeroPaths (buffer.indexPickerPreimage zeroPaths) (.atom 7)
        (.atom (10 ^ 100))).map Option.isSome = some true := by
    decide +kernel
  simp only [map_eq_some_iff, bind_eq_some_iff] at hrun
  obtain ⟨r, ⟨buffer, hbuffer, hguess⟩, hr⟩ := hrun
  obtain ⟨pow, rfl⟩ := isSome_iff_exists.mp hr
  exact ⟨buffer, pow, hbuffer, hguess, guess_validates hbuffer hguess⟩

/-- **Another preimage** leads to paths for other indices: the solution is returned, and does not
validate. -/
theorem guess_other_preimage :
    ∃ (buffer : GuesserBuffer SymbolicDigest 1) (pow : Pow SymbolicDigest 1),
      preprocess 1 .zero = some buffer ∧
      guess buffer zeroPaths (.atom 1) (.atom 7) (.atom (10 ^ 100)) = some (some pow) ∧
      ¬ (pow.validate zeroPaths (.atom (10 ^ 100)) .zero).Returns () := by
  have hrun : ∃ buffer, preprocess 1 (.zero : SymbolicDigest) = some buffer ∧
      ∃ r, guess buffer zeroPaths (.atom 1) (.atom 7) (.atom (10 ^ 100)) = some r ∧
        ∃ pow, r = some pow ∧
          (pow.validate zeroPaths (.atom (10 ^ 100)) .zero).run.any Except.isOk = false := by
    decide +kernel
  obtain ⟨buffer, hbuffer, _, hguess, pow, rfl, hfails⟩ := hrun
  refine ⟨buffer, pow, hbuffer, hguess, fun hok => ?_⟩
  rw [Fallible.Returns] at hok
  rw [hok] at hfails
  exact Bool.noConfusion hfails

end Pow

end NyksNode
