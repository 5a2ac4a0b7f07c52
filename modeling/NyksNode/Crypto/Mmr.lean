import NyksNode.Lib.MountainRangeBatch

/-!
# The hash function and the mountain ranges of `twenty_first`

The node hashes with `Tip5` and authenticates with the Merkle mountain ranges of
the `twenty_first` crate.  Neither is part of the repository, so both are
parameters: `Tip5` and `MmrOps` list the functions the node calls, and
`Tip5.CollisionFree` and `LawfulMmr` state what it relies on.

A mountain range of the crate is a list of peaks and a leaf count.  `LawfulMmr`
speaks about ranges that come from a list of leafs: on those, appending, updating a
membership proof and mutating a batch of leafs do what the documentation of the
crate says.  A panic is `none`.

`MmrOps.reference` implements the interface with the operations of
`NyksNode.Merkle`, so the laws have a model.
-/

namespace NyksNode

open List Option

open Merkle (row authPath peaks applyMutations)

/-- `Tip5`, as far as the node uses it. -/
class Tip5 (D : Type) where
  /-- `Digest::default()`, the digest of five zeros. -/
  zeroDigest : D
  toHex : D → String
  hashPair : D → D → D
  /-- `Tip5::hash` of a chunk with the given relative indices. -/
  hashChunk : List ℕ → D
  /-- `Tip5::hash` of an active window with the given locations. -/
  hashActiveWindow : List ℕ → D
  /-- `Sponge::sample_indices(upper_bound, num_indices)` after absorbing an item, the sender
  randomness, the receiver preimage and a leaf index. -/
  sampleIndices : D → D → D → ℕ → (upperBound numIndices : ℕ) → List ℕ
  length_sampleIndices (item sender receiver : D) (leafIndex upperBound numIndices : ℕ) :
    (sampleIndices item sender receiver leafIndex upperBound numIndices).length = numIndices
  sampleIndices_lt (item sender receiver : D) (leafIndex upperBound numIndices : ℕ)
    (hpos : 0 < upperBound) :
    ∀ i ∈ sampleIndices item sender receiver leafIndex upperBound numIndices, i < upperBound

/-- `Digest::hash`: a digest hashed together with the zero digest. -/
def digestHash {D : Type} [Tip5 D] (d : D) : D := Tip5.hashPair d Tip5.zeroDigest

/-- No two inputs of one hash function collide. -/
class Tip5.CollisionFree (D : Type) [Tip5 D] : Prop where
  hashPair_injective : Function.Injective2 (Tip5.hashPair : D → D → D)
  hashChunk_injective : Function.Injective (Tip5.hashChunk : List ℕ → D)
  hashActiveWindow_injective : Function.Injective (Tip5.hashActiveWindow : List ℕ → D)

/-! ## Data types of the crate -/

/-- The peaks of a mountain range, highest tree first, and its number of leafs. -/
structure MmrAccumulator (D : Type) where
  peaks : List D
  leafCount : ℕ
  deriving DecidableEq, Repr

abbrev MmrMembershipProof (D : Type) := List D

abbrev LeafMutation (D : Type) := Merkle.LeafMutation D

def u64Bound : ℕ := 2 ^ 64

/-- The functions of the crate that the node calls.  `none` is a panic. -/
class MmrOps (D : Type) where
  /-- `Mmr::append`: the longer range and the path of the new leaf. -/
  append : MmrAccumulator D → D → Option (MmrAccumulator D × MmrMembershipProof D)
  /-- `MmrMembershipProof::verify(leaf_index, leaf, peaks, num_leafs)`. -/
  verify : MmrMembershipProof D → ℕ → D → List D → ℕ → Bool
  /-- `MmrMembershipProof::update_from_append(leaf_index, num_leafs, new_leaf, peaks)`: the new
  path, and whether it changed. -/
  updateFromAppend : MmrMembershipProof D → ℕ → ℕ → D → List D → MmrMembershipProof D × Bool
  /-- `MmrMembershipProof::batch_update_from_append`: the new paths, and the positions of those
  that changed. -/
  batchUpdateFromAppend :
    List (MmrMembershipProof D) → List ℕ → ℕ → D → List D → List (MmrMembershipProof D) × List ℕ
  /-- `MmrMembershipProof::batch_update_from_batch_leaf_mutation`. -/
  batchUpdateFromBatchLeafMutation : List (MmrMembershipProof D) → List ℕ → List (LeafMutation D) →
      Option (List (MmrMembershipProof D) × List ℕ)
  batchMutateLeafAndUpdateMps :
    MmrAccumulator D → List (MmrMembershipProof D) → List ℕ → List (LeafMutation D) →
      Option (MmrAccumulator D × List (MmrMembershipProof D) × List ℕ)
  bagPeaks : MmrAccumulator D → D

namespace MmrAccumulator
variable {D : Type}

/-- `MmrAccumulator::new_from_leafs(vec![])`. -/
def empty : MmrAccumulator D := ⟨[], 0⟩

def numLeafs (m : MmrAccumulator D) : ℕ := m.leafCount

variable [Tip5 D] [Inhabited D]

def ofLeafs (ls : List D) : MmrAccumulator D :=
  ⟨Merkle.peaks Tip5.hashPair (row ls) ls.length, ls.length⟩

@[simp] theorem peaks_ofLeafs (ls : List D) :
    (ofLeafs ls).peaks = Merkle.peaks Tip5.hashPair (row ls) ls.length := rfl

@[simp] theorem leafCount_ofLeafs (ls : List D) : (ofLeafs ls).leafCount = ls.length := rfl

@[simp] theorem numLeafs_ofLeafs (ls : List D) : (ofLeafs ls).numLeafs = ls.length := rfl

theorem ofLeafs_nil : (ofLeafs [] : MmrAccumulator D) = empty := by
  simp [ofLeafs, empty, Merkle.peaks, Merkle.peakHeights]

end MmrAccumulator

open MmrAccumulator

section
variable {D : Type} [Tip5 D] [Inhabited D]

/-- The membership proof of leaf `i` in the range over `ls`. -/
def membershipProof (ls : List D) (i : ℕ) : MmrMembershipProof D :=
  authPath Tip5.hashPair (row ls) ls.length i

/-- A batch of mutations whose paths are those of the leafs `ls`. -/
def AuthenticMutations (ls : List D) (ms : List (LeafMutation D)) : Prop :=
  ∀ m ∈ ms, m.leafIndex < ls.length ∧ m.membershipProof = membershipProof ls m.leafIndex

theorem membershipProof_concat_last (ls : List D) (d e : D) :
    membershipProof (ls ++ [d]) ls.length = membershipProof (ls ++ [e]) ls.length := by
  have hrow : row (ls ++ [d]) = Function.update (row (ls ++ [e])) ls.length d := by
    rw [← Merkle.row_set (by simp)]
    simp
  simp only [membershipProof, length_append, length_singleton, authPath, hrow]
  exact Merkle.pathFrom_update_self _ _ _

/-- A path in a longer range, cut to the height of the tree that the leaf had before. -/
theorem take_membershipProof (ls ds : List D) {i : ℕ} (hi : i < ls.length) :
    (membershipProof (ls ++ ds) i).take (Merkle.height i ls.length) = membershipProof ls i := by
  rw [membershipProof, Merkle.take_authPath _ _ hi (by simp)]
  exact Merkle.authPath_congr hi fun _ hj => Merkle.row_append_of_lt ds hj

end

/-- What the node relies on.  The leafs of a range are given as a list; a range of
`2 ^ 64` leafs cannot be represented, so appending to the last representable one
overflows. -/
class LawfulMmr (D : Type) [Tip5 D] [Inhabited D] [DecidableEq D] [MmrOps D] : Prop where
  append_ofLeafs (ls : List D) (d : D) (hlt : ls.length + 1 < u64Bound) :
    MmrOps.append (.ofLeafs ls) d =
      some (.ofLeafs (ls ++ [d]), membershipProof (ls ++ [d]) ls.length)
  append_overflow (ls : List D) (d : D) (hge : u64Bound ≤ ls.length + 1) :
    MmrOps.append (.ofLeafs ls) d = none
  verify_eq (p : MmrMembershipProof D) (i : ℕ) (d : D) (ps : List D) (n : ℕ) :
    MmrOps.verify p i d ps n = Merkle.verify Tip5.hashPair p i d ps n
  updateFromAppend_ofLeafs (ls : List D) (d : D) (i : ℕ) (hi : i < ls.length) :
    (MmrOps.updateFromAppend (membershipProof ls i) i ls.length d
      (MmrAccumulator.ofLeafs ls).peaks).1 = membershipProof (ls ++ [d]) i
  batchUpdateFromAppend_ofLeafs (ls : List D) (d : D) (is : List ℕ)
      (his : ∀ i ∈ is, i < ls.length) :
    (MmrOps.batchUpdateFromAppend (is.map (membershipProof ls)) is ls.length d
      (MmrAccumulator.ofLeafs ls).peaks).1 = is.map (membershipProof (ls ++ [d]))
  batchUpdateFromBatchLeafMutation_ofLeafs (ls : List D) (is : List ℕ)
      (ms : List (LeafMutation D)) (his : ∀ i ∈ is, i < ls.length)
      (hnd : (ms.map (·.leafIndex)).Nodup) (ha : AuthenticMutations ls ms) :
    (MmrOps.batchUpdateFromBatchLeafMutation (is.map (membershipProof ls)) is ms).map (·.1) =
      some (is.map (membershipProof (applyMutations ls ms)))
  batchMutateLeafAndUpdateMps_ofLeafs (ls : List D) (is : List ℕ)
      (ms : List (LeafMutation D)) (his : ∀ i ∈ is, i < ls.length)
      (hnd : (ms.map (·.leafIndex)).Nodup) (ha : AuthenticMutations ls ms) :
    (MmrOps.batchMutateLeafAndUpdateMps (.ofLeafs ls) (is.map (membershipProof ls)) is ms).map
        (fun r => (r.1, r.2.1)) =
      some (.ofLeafs (applyMutations ls ms), is.map (membershipProof (applyMutations ls ms)))
  batchMutateLeafAndUpdateMps_dup (m : MmrAccumulator D) (ps : List (MmrMembershipProof D))
      (is : List ℕ) (ms : List (LeafMutation D)) (hdup : ¬ (ms.map (·.leafIndex)).Nodup) :
    MmrOps.batchMutateLeafAndUpdateMps m ps is ms = none

/-- The positions that a batch update reports as changed are positions in the batch. -/
class MmrOps.ReportsPositions (D : Type) [MmrOps D] : Prop where
  batchUpdateFromAppend_changed (ps : List (MmrMembershipProof D)) (is : List ℕ) (n : ℕ) (d : D)
      (peaks : List D) :
    ∀ j ∈ (MmrOps.batchUpdateFromAppend ps is n d peaks).2, j < ps.length
  batchUpdateFromBatchLeafMutation_changed (ps : List (MmrMembershipProof D)) (is : List ℕ)
      (ms : List (LeafMutation D)) (r : List (MmrMembershipProof D) × List ℕ)
      (hr : MmrOps.batchUpdateFromBatchLeafMutation ps is ms = some r) :
    ∀ j ∈ r.2, j < ps.length

/-- A batch update recomputes what lies beside a mutated subtree.  So a path that authenticates a
mutation may be that of the range before the batch or of the range after it. -/
class MmrOps.RefreshesFromEither (D : Type) [Tip5 D] [Inhabited D] [MmrOps D] : Prop where
  batchUpdateFromBatchLeafMutation_either (ls : List D) (is : List ℕ) (ms : List (LeafMutation D))
      (his : ∀ i ∈ is, i < ls.length) (hnd : (ms.map (·.leafIndex)).Nodup)
      (hlt : ∀ m ∈ ms, m.leafIndex < ls.length)
      (hpaths : ∀ m ∈ ms, m.membershipProof = membershipProof ls m.leafIndex ∨
        m.membershipProof = membershipProof (applyMutations ls ms) m.leafIndex) :
    (MmrOps.batchUpdateFromBatchLeafMutation (is.map (membershipProof ls)) is ms).map (·.1) =
      some (is.map (membershipProof (applyMutations ls ms)))

/-- Bagging commits to the peaks and the leaf count. -/
class MmrOps.CollisionFree (D : Type) [MmrOps D] : Prop where
  bagPeaks_injective : Function.Injective (MmrOps.bagPeaks : MmrAccumulator D → D)

section
variable {D : Type} [Tip5 D] [Inhabited D] [DecidableEq D] [MmrOps D] [LawfulMmr D]

/-- Against a range over a list of leafs, exactly the honest proof verifies. -/
theorem verify_ofLeafs_iff [Tip5.CollisionFree D] {ls : List D} {p : MmrMembershipProof D}
    {i : ℕ} {d : D} : MmrOps.verify p i d (ofLeafs ls).peaks (ofLeafs ls).numLeafs = true ↔
      ls[i]? = some d ∧ p = membershipProof ls i := by
  rw [LawfulMmr.verify_eq, peaks_ofLeafs, numLeafs_ofLeafs,
    Merkle.verify_iff Tip5.CollisionFree.hashPair_injective, getElem?_eq_some_iff]
  constructor
  · rintro ⟨hi, rfl, hp⟩
    exact ⟨⟨hi, (Merkle.row_eq_getElem hi).symm⟩, hp⟩
  · rintro ⟨⟨hi, rfl⟩, hp⟩
    exact ⟨hi, (Merkle.row_eq_getElem hi).symm, hp⟩

end

/-! ## A reference implementation -/

namespace MmrReference
variable {D : Type} [Tip5 D] [DecidableEq D]

def changedPositions (ps qs : List (List D)) : List ℕ :=
  ((ps.zip qs).zipIdx.filter fun x => x.1.1 ≠ x.1.2).map (·.2)

omit [Tip5 D] in
theorem lt_of_mem_changedPositions {ps qs : List (List D)} {j : ℕ}
    (hj : j ∈ changedPositions ps qs) : j < ps.length := by
  obtain ⟨x, hx, rfl⟩ := mem_map.mp hj
  have hlt := (mem_zipIdx (mem_of_mem_filter hx)).2.1
  simp only [length_zip] at hlt
  omega

def append (m : MmrAccumulator D) (d : D) : Option (MmrAccumulator D × MmrMembershipProof D) :=
  if m.leafCount + 1 < u64Bound then
    let r := Merkle.appendPeaks Tip5.hashPair m.peaks m.leafCount d
    some (⟨r.1, m.leafCount + 1⟩, r.2)
  else none

def updateFromAppend (p : MmrMembershipProof D) (i n : ℕ) (d : D) (ps : List D) :
    MmrMembershipProof D × Bool :=
  let p' := Merkle.extendPath Tip5.hashPair (Merkle.appendPeaks Tip5.hashPair ps n d).2 n d i p
  (p', decide (p' ≠ p))

def batchUpdateFromAppend (ps : List (MmrMembershipProof D)) (is : List ℕ) (n : ℕ) (d : D)
    (peaks : List D) : List (MmrMembershipProof D) × List ℕ :=
  let np := (Merkle.appendPeaks Tip5.hashPair peaks n d).2
  let ps' := (ps.zip is).map fun x => Merkle.extendPath Tip5.hashPair np n d x.2 x.1
  (ps', changedPositions ps ps')

/-- Refresh paths after a batch; a batch that names a leaf twice is refused. -/
def batchUpdateFromBatchLeafMutation (ps : List (MmrMembershipProof D)) (is : List ℕ)
    (ms : List (LeafMutation D)) : Option (List (MmrMembershipProof D) × List ℕ) :=
  if (ms.map (·.leafIndex)).Nodup then
    let ps' := (Merkle.refreshAll Tip5.hashPair ms (is.zip ps)).map (·.2)
    some (ps', changedPositions ps ps')
  else none

def batchMutateLeafAndUpdateMps (m : MmrAccumulator D) (ps : List (MmrMembershipProof D))
    (is : List ℕ) (ms : List (LeafMutation D)) :
    Option (MmrAccumulator D × List (MmrMembershipProof D) × List ℕ) :=
  (batchUpdateFromBatchLeafMutation ps is ms).map fun r =>
    (⟨Merkle.mutateAll Tip5.hashPair m.leafCount ms m.peaks, m.leafCount⟩, r)

end MmrReference

open MmrReference

/-- The interface, implemented on peaks and paths.  Bagging starts from the digest
that `leafCountDigest` gives the leaf count. -/
@[reducible] def MmrOps.reference (D : Type) [Tip5 D] [DecidableEq D] (leafCountDigest : ℕ → D) :
    MmrOps D where
  append := MmrReference.append
  verify := Merkle.verify Tip5.hashPair
  updateFromAppend := MmrReference.updateFromAppend
  batchUpdateFromAppend := MmrReference.batchUpdateFromAppend
  batchUpdateFromBatchLeafMutation := MmrReference.batchUpdateFromBatchLeafMutation
  batchMutateLeafAndUpdateMps := MmrReference.batchMutateLeafAndUpdateMps
  bagPeaks m := m.peaks.foldr Tip5.hashPair (leafCountDigest m.leafCount)

section
variable {D : Type} [Tip5 D] [Inhabited D] [DecidableEq D]

omit [Tip5 D] [Inhabited D] [DecidableEq D] in
private theorem zip_map_left (g : ℕ → MmrMembershipProof D) (is : List ℕ) :
    is.zip (is.map g) = is.map fun i => (i, g i) := by
  induction is with
  | nil => rfl
  | cons i is ih => simp [ih]

section
omit [DecidableEq D]

private theorem peaks_concat (ls : List D) (d : D) :
    peaks Tip5.hashPair (row ls) ls.length = peaks Tip5.hashPair (row (ls ++ [d])) ls.length :=
  Merkle.peaks_congr fun _ hi => (Merkle.row_append_of_lt [d] hi).symm

private theorem appendPeaks_ofLeafs (ls : List D) (d : D) :
    Merkle.appendPeaks Tip5.hashPair (peaks Tip5.hashPair (row ls) ls.length) ls.length d =
      (peaks Tip5.hashPair (row (ls ++ [d])) (ls.length + 1),
        authPath Tip5.hashPair (row (ls ++ [d])) (ls.length + 1) ls.length) := by
  have hd : row (ls ++ [d]) ls.length = d := Merkle.row_concat_length ls d
  rw [peaks_concat ls d, ← Merkle.appendPeaks_peaks, hd]

private theorem extendPath_ofLeafs (ls : List D) (d : D) {i : ℕ} (hi : i < ls.length) :
    Merkle.extendPath Tip5.hashPair
        (authPath Tip5.hashPair (row (ls ++ [d])) (ls.length + 1) ls.length) ls.length d i
        (membershipProof ls i) = membershipProof (ls ++ [d]) i := by
  have hd : row (ls ++ [d]) ls.length = d := Merkle.row_concat_length ls d
  have hold : membershipProof ls i = authPath Tip5.hashPair (row (ls ++ [d])) ls.length i :=
    Merkle.authPath_congr hi fun _ hj => (Merkle.row_append_of_lt [d] hj).symm
  have he := Merkle.extendPath_authPath Tip5.hashPair (row (ls ++ [d])) hi
  rw [hd, ← hold] at he
  rw [he, membershipProof, length_append, length_singleton]

private theorem refreshAll_ofLeafs {ls : List D} {is : List ℕ} {ms : List (LeafMutation D)}
    (his : ∀ i ∈ is, i < ls.length) (ha : AuthenticMutations ls ms) :
    (Merkle.refreshAll Tip5.hashPair ms (is.zip (is.map (membershipProof ls)))).map (·.2) =
      is.map (membershipProof (applyMutations ls ms)) := by
  rw [zip_map_left]
  have hr := Merkle.refreshAll_authPath ha his
  simp only [membershipProof]
  rw [hr, List.map_map]
  refine List.map_congr_left fun i _ => ?_
  simp [membershipProof]

end

/-- **The laws have a model**: the reference implementation satisfies them. -/
theorem lawfulMmr_reference (leafCountDigest : ℕ → D) :
    @LawfulMmr D _ _ _ (MmrOps.reference D leafCountDigest) := by
  refine @LawfulMmr.mk D _ _ _ (MmrOps.reference D leafCountDigest) ?_ ?_ ?_ ?_ ?_ ?_ ?_ ?_
  · intro ls d hlt
    change append _ _ = _
    simp only [append, leafCount_ofLeafs, if_pos hlt, peaks_ofLeafs, appendPeaks_ofLeafs]
    simp [ofLeafs, membershipProof]
  · intro ls d hge
    exact if_neg (by simpa using hge)
  · intro p i d ps n
    rfl
  · intro ls d i hi
    change (updateFromAppend _ _ _ _ _).1 = _
    simp only [updateFromAppend, peaks_ofLeafs, appendPeaks_ofLeafs]
    exact extendPath_ofLeafs ls d hi
  · intro ls d is his
    change (batchUpdateFromAppend _ _ _ _ _).1 = _
    simp only [batchUpdateFromAppend, peaks_ofLeafs, appendPeaks_ofLeafs]
    rw [map_zip_eq_zipWith, zipWith_map_left, zipWith_self]
    exact map_congr_left fun i hi => extendPath_ofLeafs ls d (his i hi)
  · intro ls is ms his hnd ha
    change (batchUpdateFromBatchLeafMutation _ _ _).map _ = _
    simp only [batchUpdateFromBatchLeafMutation, if_pos hnd, map_some]
    rw [refreshAll_ofLeafs his ha]
  · intro ls is ms his hnd ha
    change (batchMutateLeafAndUpdateMps _ _ _ _).map _ = _
    simp only [batchMutateLeafAndUpdateMps, batchUpdateFromBatchLeafMutation, if_pos hnd, map_some]
    rw [refreshAll_ofLeafs his ha, peaks_ofLeafs, leafCount_ofLeafs, Merkle.mutateAll_peaks ha]
    simp [ofLeafs]
  · intro m ps is ms hdup
    change batchMutateLeafAndUpdateMps _ _ _ _ = _
    simp [batchMutateLeafAndUpdateMps, batchUpdateFromBatchLeafMutation, hdup]

omit [Inhabited D] in
theorem reportsPositions_reference (leafCountDigest : ℕ → D) :
    @MmrOps.ReportsPositions D (MmrOps.reference D leafCountDigest) := by
  refine @MmrOps.ReportsPositions.mk D (MmrOps.reference D leafCountDigest) ?_ ?_
  · intro ps is n d peaks j hj
    exact lt_of_mem_changedPositions hj
  · intro ps is ms r hr j hj
    change batchUpdateFromBatchLeafMutation _ _ _ = _ at hr
    rw [batchUpdateFromBatchLeafMutation] at hr
    split at hr
    · rw [← some_inj.mp hr] at hj
      exact lt_of_mem_changedPositions hj
    · simp at hr

/-- The reference implementation takes paths from before and after the batch. -/
theorem refreshesFromEither_reference (leafCountDigest : ℕ → D) :
    @MmrOps.RefreshesFromEither D _ _ (MmrOps.reference D leafCountDigest) := by
  refine @MmrOps.RefreshesFromEither.mk D _ _ (MmrOps.reference D leafCountDigest) ?_
  intro ls is ms his hnd hlt hpaths
  have hagree : ∀ k ∉ ms.map (·.leafIndex), row ls k = row (applyMutations ls ms) k := by
    intro k hk
    simp only [row, getD_eq_getElem?_getD]
    rw [Merkle.getElem?_applyMutations_of_notMem fun m hm heq =>
      hk (mem_map.mpr ⟨m, hm, heq⟩)]
  have hsettled : ∀ i, Merkle.Settled Tip5.hashPair (row (applyMutations ls ms)) ls.length
      (ms.map (·.leafIndex)) i (membershipProof ls i) :=
    fun i => Merkle.settled_authPath hagree
  have hmutations : ∀ m ∈ ms, Merkle.Settled Tip5.hashPair (row (applyMutations ls ms)) ls.length
      (ms.map (·.leafIndex)) m.leafIndex m.membershipProof := by
    intro m hm
    rcases hpaths m hm with hp | hp
    · rw [hp]
      exact hsettled _
    · rw [hp, membershipProof, Merkle.length_applyMutations]
      exact Merkle.settled_authPath fun _ _ => rfl
  have hnew : ∀ m ∈ ms, m.newLeaf = row (applyMutations ls ms) m.leafIndex := by
    intro m hm
    rw [row, getD_eq_getElem?_getD,
      Merkle.getElem?_applyMutations_of_mem hnd hm (hlt m hm), getD_some]
  change (batchUpdateFromBatchLeafMutation _ _ _).map _ = _
  simp only [batchUpdateFromBatchLeafMutation, if_pos hnd, map_some]
  rw [zip_map_left, Merkle.refreshAll_of_settled hnew hlt hmutations]
  · rw [List.map_map, List.map_map]
    refine congrArg some (map_congr_left fun i _ => ?_)
    simp [membershipProof]
  · intro q hq
    obtain ⟨i, hi, rfl⟩ := mem_map.mp hq
    exact ⟨his i hi, hsettled i⟩

end

end NyksNode
