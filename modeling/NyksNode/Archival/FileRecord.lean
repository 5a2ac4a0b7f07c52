import NyksNode.Archival.BlockMmr

/-!
# Block files

The database has a record of each block file: how many blocks it has, how long it is, and between
which heights and timestamps its blocks lie.  The record is updated with each block, and the updates
of two bounds start from the wrong field.
-/

namespace NyksNode

open List

variable {D : Type}

structure FileRecord where
  blocksInFileCount : ℕ
  fileSize : ℕ
  minBlockHeight : BlockHeight
  maxBlockHeight : BlockHeight
  minBlockTimestamp : Timestamp
  maxBlockTimestamp : Timestamp
  deriving DecidableEq

namespace FileRecord

def new (blockSize : ℕ) (header : BlockHeader D) : FileRecord :=
  ⟨1, blockSize, header.height, header.height, header.timestamp, header.timestamp⟩

/-- `add`, which panics if a counter overflows. -/
def add (r : FileRecord) (blockSize : ℕ) (header : BlockHeader D) : Option FileRecord :=
  let minBlockTimestamp := ⟨min r.minBlockTimestamp.value header.timestamp.value⟩
  if r.blocksInFileCount + 1 < 2 ^ 32 ∧ r.fileSize + blockSize < 2 ^ 64 then
    some
      { blocksInFileCount := r.blocksInFileCount + 1
        fileSize := r.fileSize + blockSize
        minBlockHeight := ⟨min r.maxBlockHeight.value header.height.value⟩
        maxBlockHeight := ⟨max r.maxBlockHeight.value header.height.value⟩
        minBlockTimestamp
        maxBlockTimestamp := ⟨max minBlockTimestamp.value header.timestamp.value⟩ }
  else none

/-- The record of a file that the blocks were stored in, one after the other. -/
def addAll (first : ℕ × BlockHeader D) (rest : List (ℕ × BlockHeader D)) : Option FileRecord :=
  rest.foldlM (fun r b => r.add b.1 b.2) (new first.1 first.2)

section
variable (r : FileRecord) (blocks : List (ℕ × BlockHeader D))

def heights : List BFieldElement := blocks.map (·.2.height.value)

def timestamps : List BFieldElement := blocks.map (·.2.timestamp.value)

/-- What every update keeps exact. -/
structure Tracks : Prop where
  count : r.blocksInFileCount = blocks.length
  size : r.fileSize = (blocks.map Prod.fst).sum
  maxHeight : (heights blocks).max? = some r.maxBlockHeight.value
  minTimestamp : (timestamps blocks).min? = some r.minBlockTimestamp.value

def Exact : Prop :=
  r.Tracks blocks ∧ (heights blocks).min? = some r.minBlockHeight.value ∧
    (timestamps blocks).max? = some r.maxBlockTimestamp.value

/-- The counters do not overflow. -/
def Fits : Prop := blocks.length < 2 ^ 32 ∧ (blocks.map Prod.fst).sum < 2 ^ 64

/-- The last block is not above the lowest of the others, unless these have one height, and not
earlier than the latest of them. -/
def LastSuits (last : ℕ × BlockHeader D) : Prop :=
  (∀ low ∈ (heights blocks).min?, last.2.height.value ≤ low ∨ (heights blocks).max? = some low) ∧
    ∀ late ∈ (timestamps blocks).max?, late ≤ last.2.timestamp.value

end

section
variable {xs : List BFieldElement} {m low top : BFieldElement} (x : BFieldElement)

theorem max?_concat (h : xs.max? = some m) : (xs ++ [x]).max? = some (max m x) := by
  rw [max?_eq_some_iff] at h ⊢
  grind

theorem min?_concat (h : xs.min? = some m) : (xs ++ [x]).min? = some (min m x) := by
  rw [min?_eq_some_iff] at h ⊢
  grind

theorem min_eq_min_iff (hlow : xs.min? = some low) (htop : xs.max? = some top) :
    min low x = min top x ↔ x ≤ low ∨ top = low := by
  rw [min?_eq_some_iff] at hlow
  rw [max?_eq_some_iff] at htop
  grind

end

variable {r r' : FileRecord} {blocks rest : List (ℕ × BlockHeader D)} {first b : ℕ × BlockHeader D}

theorem exact_new (b : ℕ × BlockHeader D) : (new b.1 b.2).Exact [b] :=
  ⟨⟨rfl, (add_zero _).symm, rfl, rfl⟩, rfl, rfl⟩

/-- An update keeps four fields exact, and the others under a condition on the new block. -/
theorem Tracks.add (h : r.Tracks blocks) (hadd : r.add b.1 b.2 = some r') :
    r'.Tracks (blocks ++ [b]) ∧ (r'.Exact (blocks ++ [b]) ↔ LastSuits blocks b) := by
  have hr' := Option.some_inj.mp (Option.ite_none_right_eq_some.mp hadd).2
  have hheights : heights (blocks ++ [b]) = heights blocks ++ [b.2.height.value] := map_append
  have htimes : timestamps (blocks ++ [b]) = timestamps blocks ++ [b.2.timestamp.value] :=
    map_append
  have hne : blocks ≠ [] := by
    rintro rfl
    cases h.maxHeight
  obtain ⟨low, hlow⟩ : ∃ low, (heights blocks).min? = some low := by
    simpa [← Option.isSome_iff_exists, heights] using hne
  obtain ⟨late, hlate⟩ : ∃ late, (timestamps blocks).max? = some late := by
    simpa [← Option.isSome_iff_exists, timestamps] using hne
  have htracks : r'.Tracks (blocks ++ [b]) := by
    subst hr'
    exact ⟨by simp [h.count], by simp [h.size], hheights ▸ max?_concat _ h.maxHeight,
      htimes ▸ min?_concat _ h.minTimestamp⟩
  refine ⟨htracks, ?_⟩
  rw [Exact, and_iff_right htracks, hheights, htimes, min?_concat _ hlow, max?_concat _ hlate,
    Option.some_inj, Option.some_inj, ← hr', min_eq_min_iff _ hlow h.maxHeight,
    max_eq_right (min_le_right _ _), max_eq_right_iff]
  simp [LastSuits, hlow, hlate, h.maxHeight]

theorem addAll_concat (rest : List (ℕ × BlockHeader D)) :
    addAll first (rest ++ [b]) = (addAll first rest).bind (·.add b.1 b.2) := by
  simp [addAll]

theorem tracks_addAll (h : addAll first rest = some r) : r.Tracks (first :: rest) := by
  induction rest using reverseRecOn generalizing r with
  | nil =>
    cases h
    exact (exact_new first).1
  | append_singleton rest b ih =>
    rw [addAll_concat] at h
    obtain ⟨r₀, h₀, hadd⟩ := Option.bind_eq_some_iff.mp h
    exact ((ih h₀).add hadd).1

theorem isSome_addAll_iff (rest : List (ℕ × BlockHeader D)) :
    (addAll first rest).isSome = true ↔ rest = [] ∨ Fits (first :: rest) := by
  induction rest using reverseRecOn with
  | nil => exact iff_of_true rfl (Or.inl rfl)
  | append_singleton rest b ih =>
    have hfits : Fits (first :: rest ++ [b]) → Fits (first :: rest) := by
      simp only [Fits, length_append, map_append, sum_append]
      omega
    rw [addAll_concat]
    cases hrest : addAll first rest with
    | none =>
      rw [hrest] at ih
      simpa using fun h => by simpa using ih.mpr (Or.inr (hfits h))
    | some r =>
      have h := tracks_addAll hrest
      simp [FileRecord.add, Fits, h.count, h.size, add_assoc]

/-- **When the record of a file is exact.**  The counters have to fit, and the last block has to
suit those before it. -/
theorem exact_addAll_iff (first : ℕ × BlockHeader D) (rest : List (ℕ × BlockHeader D)) :
    (∃ r, addAll first rest = some r ∧ r.Exact (first :: rest)) ↔
      (rest = [] ∨ Fits (first :: rest)) ∧
        LastSuits (first :: rest).dropLast ((first :: rest).getLast (cons_ne_nil _ _)) := by
  rw [← isSome_addAll_iff, Option.isSome_iff_exists, ← exists_and_right]
  refine exists_congr fun r => and_congr_right fun hr => ?_
  rcases eq_nil_or_concat' rest with rfl | ⟨rest, last, rfl⟩
  · cases hr
    exact iff_of_true (exact_new first) (by simp [LastSuits, heights, timestamps])
  · simp only [← cons_append, dropLast_concat, getLast_append_singleton]
    rw [addAll_concat] at hr
    obtain ⟨r₀, h₀, hadd⟩ := Option.bind_eq_some_iff.mp hr
    exact ((tracks_addAll h₀).add hadd).2

def stored (n : BFieldElement) : ℕ × BlockHeader SymbolicDigest :=
  (10, { ArchivalState.Forks.genesis.header with height := ⟨n⟩, timestamp := ⟨n⟩ })

/-- Of three blocks in order, the record says that the second one is the lowest. -/
theorem minBlockHeight_skips_first :
    addAll (stored 0) [stored 1, stored 2] = some ⟨3, 30, ⟨1⟩, ⟨2⟩, ⟨0⟩, ⟨2⟩⟩ ∧
      (heights [stored 0, stored 1, stored 2]).min? = some 0 := by
  decide +kernel

end FileRecord

end NyksNode
