import NyksNode.Lib.BigEndian
import NyksNode.MutatorSet.Data

/-!
# Packed chunks

`Chunk::pack` writes the number of indices and then the indices themselves as a stream
of 12-bit elements, cut into 32-bit words; `Chunk::try_unpack` reads them back.

Both loops carry a word that is shifted through.  Their invariants say that the same
number has been written and read: `bigEndian` is the number that a stream of digits
spells, and `Packs`, `Unpacks` relate it to the states of the two loops.
-/

namespace NyksNode

open List Option Nat

inductive ChunkUnpackError where
  | payloadTooBig
  | inconsistentLength
  | nonzeroTrailingPadding
  | nonCanonicalEmptyChunk
  | nonMinimalLengthIndicator
  deriving DecidableEq, Repr

namespace Chunk

def maxPackedLength : ℕ := 34561

def maxUnpackedLength : ℕ := 92160

def longLengthFlag : ℕ := 2 ^ 11

def elementMask : ℕ := 2 ^ 12 - 1

/-! ## Packing -/

structure PackState where
  packed : List ℕ
  width : ℕ
  current : ℕ

/-- One round of the packing loop: shift an element in, and emit a word once it is full. -/
def packElement (s : PackState) (element : ℕ) : Option PackState :=
  let width := s.width + 12
  let current := s.current <<< 12 ||| element
  if 32 ≤ width then
    let remainder := width % 32
    if current >>> remainder < u32Bound then
      some ⟨s.packed ++ [current >>> remainder], width - 32, current &&& (2 ^ remainder - 1)⟩
    else none
  else some ⟨s.packed, width, current⟩

/-- Emit what is left in the carried word. -/
def packRemainder (s : PackState) : Option Chunk :=
  if s.width ≠ 0 then
    if s.current <<< (32 - s.width) < u32Bound then
      some ⟨s.packed ++ [s.current <<< (32 - s.width)]⟩
    else none
  else some ⟨s.packed⟩

def packWithLengthEncoding (c : Chunk) (lengthEncoding : List ℕ) : Option Chunk := do
  let s ← (lengthEncoding ++ c.relativeIndices).foldlM packElement ⟨[], 0, 0⟩
  packRemainder s

/-- The length indicator that `pack` writes. -/
def lengthEncoding (numElements : ℕ) : List ℕ :=
  if numElements < longLengthFlag then [numElements]
  else [numElements >>> 12 ||| longLengthFlag, numElements &&& elementMask]

/-- `pack`, which asserts that the chunk is not packed already and not too long. -/
def pack (c : Chunk) : Option Chunk :=
  if c.relativeIndices = [] then some ⟨[]⟩
  else if ¬ ∀ i ∈ c.relativeIndices, i < chunkSize then none
  else if maxUnpackedLength < c.relativeIndices.length then none
  else c.packWithLengthEncoding (lengthEncoding c.relativeIndices.length)

/-! ## Unpacking -/

structure UnpackState where
  unpacked : List ℕ
  current : ℕ
  width : ℕ
  remaining : ℕ

/-- The inner loop: take elements from the top of the carried word while there are any.  The first
argument is `remaining_elements`. -/
def unpackElements : ℕ → List ℕ → ℕ → ℕ → Option UnpackState
  | 0, unpacked, current, width => some ⟨unpacked, current, width, 0⟩
  | remaining + 1, unpacked, current, width =>
    if 12 ≤ width then
      let shift := width % 12 + (width / 12 - 1) * 12
      let element := current >>> shift &&& elementMask
      if element < u32Bound then
        unpackElements remaining (unpacked ++ [element])
          (current &&& ((u64Bound - 1) ^^^ (elementMask <<< shift))) (width - 12)
      else none
    else some ⟨unpacked, current, width, remaining + 1⟩

/-- One round of the outer loop: shift a word in. -/
def unpackWord (s : UnpackState) (word : ℕ) : Option UnpackState :=
  unpackElements s.remaining s.unpacked (s.current <<< 32 ||| word) (s.width + 32)

/-- The number of indices that the first word announces, and the number of elements in which it
does. -/
def indicatedLength (word : ℕ) : ℕ × ℕ :=
  let firstLengthElement := word >>> 20 &&& elementMask
  if firstLengthElement < longLengthFlag then (firstLengthElement, 1)
  else
    let lengthHi := firstLengthElement &&& (longLengthFlag - 1)
    let lengthLo := word >>> 8 &&& elementMask
    (lengthHi <<< 12 ||| lengthLo, 2)

/-- The number of padding bits behind a number of elements. -/
def tailLength (numElements : ℕ) : ℕ :=
  if numElements * 12 % 32 ≠ 0 then 32 - numElements * 12 % 32 else 0

/-- `try_unpack`.  The slice at the end panics when there are fewer elements than the length
indicator takes up. -/
def tryUnpack (c : Chunk) : Option (Except ChunkUnpackError Chunk) :=
  match c.relativeIndices with
  | [] => some (.ok ⟨[]⟩)
  | first :: rest =>
    let words := first :: rest
    if maxPackedLength < words.length then some (.error .payloadTooBig)
    else
      let (length, numLengthElements) := indicatedLength first
      if length = 0 then some (.error .nonCanonicalEmptyChunk)
      else if numLengthElements = 2 ∧ length < longLengthFlag then
        some (.error .nonMinimalLengthIndicator)
      else if ((length + numLengthElements) * 12 + 31) / 32 ≠ words.length then
        some (.error .inconsistentLength)
      else do
        let s ← words.foldlM unpackWord ⟨[], 0, 0, length + numLengthElements⟩
        if words.getLastD 0 &&& (2 ^ tailLength (length + numLengthElements) - 1) ≠ 0 then
          some (.error .nonzeroTrailingPadding)
        else if s.unpacked.length < numLengthElements then none
        else some (.ok ⟨s.unpacked.drop numLengthElements⟩)

/-! ## The packing loop -/

/-- The loop state after the elements `es`: the emitted words and the carried one spell what the
elements spell. -/
structure Packs (s : PackState) (es : List ℕ) : Prop where
  words_lt : ∀ w ∈ s.packed, w < 2 ^ 32
  width_lt : s.width < 32
  current_lt : s.current < 2 ^ s.width
  bits : 32 * s.packed.length + s.width = 12 * es.length
  value : bigEndian (2 ^ 32) s.packed * 2 ^ s.width + s.current = bigEndian (2 ^ 12) es

theorem Packs.nil : Packs ⟨[], 0, 0⟩ [] := ⟨by simp, by simp, by simp, by simp, by simp⟩

variable {es : List ℕ}

theorem Packs.step {s : PackState} (hs : Packs s es) {e : ℕ} (he : e < 2 ^ 12) :
    ∃ s', packElement s e = some s' ∧ Packs s' (es ++ [e]) := by
  obtain ⟨hwords, hwidth, hcurrent, hbits, hvalue⟩ := hs
  have hor : s.current <<< 12 ||| e = s.current * 2 ^ 12 + e := shiftLeft_or_of_lt he
  have hnew : s.current * 2 ^ 12 + e < 2 ^ (s.width + 12) := by
    rw [pow_add]
    nlinarith
  have hvalue' : bigEndian (2 ^ 32) s.packed * 2 ^ (s.width + 12) + (s.current * 2 ^ 12 + e) =
      bigEndian (2 ^ 12) (es ++ [e]) := by
    rw [bigEndian_concat, ← hvalue, pow_add]
    ring
  rw [packElement, hor]
  by_cases hfull : 32 ≤ s.width + 12
  · -- a word is full: it is the top of the carried word
    obtain ⟨r, hr⟩ := Nat.exists_eq_add_of_le hfull
    have hmod : (s.width + 12) % 32 = r := by omega
    have hsub : s.width + 12 - 32 = r := by omega
    have hword : (s.current * 2 ^ 12 + e) / 2 ^ r < 2 ^ 32 := by
      rw [Nat.div_lt_iff_lt_mul (by positivity), ← pow_add, ← hr]
      exact hnew
    simp only [if_pos hfull, hmod, hsub, shiftRight_eq_div_pow, and_two_pow_sub_one_eq_mod]
    rw [if_pos (show _ < u32Bound from hword)]
    refine ⟨_, rfl, ?_, show r < 32 by omega, mod_lt _ (by positivity), ?_, ?_⟩
    · exact forall_mem_append.mpr ⟨hwords, forall_mem_singleton.mpr hword⟩
    · simp only [length_append, length_singleton]
      omega
    · dsimp only
      rw [← hvalue', hr, bigEndian_concat, pow_add]
      conv_rhs => rw [← div_add_mod (s.current * 2 ^ 12 + e) (2 ^ r)]
      ring
  · simp only [if_neg hfull]
    refine ⟨_, rfl, hwords, show s.width + 12 < 32 by omega, hnew, ?_, hvalue'⟩
    simp only [length_append, length_singleton]
    omega

theorem Packs.foldlM {s : PackState} (hs : Packs s es) {fs : List ℕ} (hfs : ∀ e ∈ fs, e < 2 ^ 12) :
    ∃ s', fs.foldlM packElement s = some s' ∧ Packs s' (es ++ fs) := by
  induction fs generalizing s es with
  | nil => exact ⟨s, rfl, by simpa using hs⟩
  | cons f fs ih =>
    obtain ⟨s₁, hstep, hs₁⟩ := hs.step (hfs f mem_cons_self)
    obtain ⟨s₂, hrun, hs₂⟩ := ih hs₁ fun e he => hfs e (mem_cons_of_mem _ he)
    refine ⟨s₂, ?_, by simpa using hs₂⟩
    rw [foldlM_cons, hstep, bind_eq_bind, bind_some, hrun]

/-- The words of a packed stream, with the padding behind its last element. -/
structure Spells (words es : List ℕ) : Prop where
  words_lt : ∀ w ∈ words, w < 2 ^ 32
  bits : 32 * words.length = 12 * es.length + tailLength es.length
  value : bigEndian (2 ^ 32) words = bigEndian (2 ^ 12) es * 2 ^ tailLength es.length

theorem Packs.remainder {s : PackState} (hs : Packs s es) :
    ∃ words, packRemainder s = some ⟨words⟩ ∧ Spells words es := by
  obtain ⟨hwords, hwidth, hcurrent, hbits, hvalue⟩ := hs
  have hmod : es.length * 12 % 32 = s.width := by omega
  rw [packRemainder]
  by_cases hzero : s.width = 0
  · have htail : tailLength es.length = 0 := by
      rw [tailLength, hmod, if_neg (by simpa using hzero)]
    have hcurrent' : s.current = 0 := by simpa [hzero] using hcurrent
    rw [if_neg (by simpa using hzero)]
    refine ⟨s.packed, rfl, hwords, by omega, ?_⟩
    rw [htail, ← hvalue, hzero, hcurrent']
    simp
  · have htail : tailLength es.length = 32 - s.width := by
      rw [tailLength, hmod, if_pos hzero]
    have hpow : (2 : ℕ) ^ 32 = 2 ^ s.width * 2 ^ (32 - s.width) := by
      rw [← pow_add, Nat.add_sub_cancel' hwidth.le]
    have hword : s.current <<< (32 - s.width) < 2 ^ 32 := by
      rw [shiftLeft_eq, hpow]
      exact Nat.mul_lt_mul_of_pos_right hcurrent (by positivity)
    rw [if_pos hzero, if_pos (show _ < u32Bound from hword)]
    refine ⟨_, rfl, ?_, ?_, ?_⟩
    · exact forall_mem_append.mpr ⟨hwords, forall_mem_singleton.mpr hword⟩
    · simp only [length_append, length_singleton]
      omega
    · rw [bigEndian_concat, htail, ← hvalue, shiftLeft_eq, hpow]
      ring

/-! ## The unpacking loop -/

/-- How far the loop has come after a number of words: as long as elements are missing, less than
one of them is in the carried word. -/
structure Counts (s : UnpackState) (numWords total : ℕ) : Prop where
  bits : 12 * s.unpacked.length + s.width = 32 * numWords
  total : s.unpacked.length + s.remaining = total
  width_lt : s.remaining ≠ 0 → s.width < 12

variable {width : ℕ}

/-- The shift of the inner loop goes to the top element of the carried word. -/
theorem shift_eq (hw : 12 ≤ width) : width % 12 + (width / 12 - 1) * 12 = width - 12 := by omega

variable {remaining : ℕ}

theorem unpackElements_of_le {current : ℕ} (unpacked : List ℕ) (hw : 12 ≤ width) :
    unpackElements (remaining + 1) unpacked current width =
      unpackElements remaining (unpacked ++ [current >>> (width - 12) &&& elementMask])
        (current &&& ((u64Bound - 1) ^^^ (elementMask <<< (width - 12)))) (width - 12) := by
  have helement : current >>> (width - 12) &&& elementMask < u32Bound := by
    rw [elementMask, and_two_pow_sub_one_eq_mod]
    exact (mod_lt _ (by positivity)).trans (by decide)
  rw [unpackElements, if_pos hw, shift_eq hw, if_pos helement]

variable {numWords total : ℕ}

theorem counts_unpackElements {unpacked : List ℕ} (current : ℕ)
    (hbits : 12 * unpacked.length + width = 32 * numWords)
    (htotal : unpacked.length + remaining = total) :
    ∃ s, unpackElements remaining unpacked current width = some s ∧ Counts s numWords total := by
  induction remaining generalizing unpacked current width with
  | zero => exact ⟨_, rfl, hbits, htotal, by simp⟩
  | succ remaining ih =>
    by_cases hw : 12 ≤ width
    · rw [unpackElements_of_le unpacked hw]
      apply ih
      · simp only [length_append, length_singleton]
        omega
      · simp only [length_append, length_singleton]
        omega
    · rw [unpackElements, if_neg hw]
      exact ⟨_, rfl, hbits, htotal, fun _ => not_le.mp hw⟩

variable {s : UnpackState}

theorem Counts.foldlM (hs : Counts s numWords total) (words : List ℕ) :
    ∃ s', words.foldlM unpackWord s = some s' ∧ Counts s' (numWords + words.length) total := by
  induction words generalizing s numWords with
  | nil => exact ⟨s, rfl, hs⟩
  | cons word words ih =>
    have hbits : 12 * s.unpacked.length + (s.width + 32) = 32 * (numWords + 1) := by
      have := hs.bits
      omega
    obtain ⟨s₁, hstep, hs₁⟩ :=
      counts_unpackElements (s.current <<< 32 ||| word) hbits hs.total
    obtain ⟨s₂, hrun, hs₂⟩ := ih hs₁
    refine ⟨s₂, ?_, by rwa [length_cons, show numWords + (words.length + 1) =
      numWords + 1 + words.length by omega]⟩
    rw [foldlM_cons, unpackWord, hstep, bind_eq_bind, bind_some, hrun]

/-- The loop state after some words: the elements taken and the carried word spell what the words
spell. -/
structure Unpacks (s : UnpackState) (words : List ℕ) : Prop where
  elements_lt : ∀ e ∈ s.unpacked, e < 2 ^ 12
  current_lt : s.current < 2 ^ s.width
  value : bigEndian (2 ^ 12) s.unpacked * 2 ^ s.width + s.current = bigEndian (2 ^ 32) words

variable {words : List ℕ}

theorem unpacks_unpackElements {current : ℕ} {unpacked : List ℕ}
    (hwidth : remaining ≠ 0 → width ≤ 64) (helements : ∀ e ∈ unpacked, e < 2 ^ 12)
    (hcurrent : current < 2 ^ width)
    (hvalue : bigEndian (2 ^ 12) unpacked * 2 ^ width + current = bigEndian (2 ^ 32) words)
    (hs : unpackElements remaining unpacked current width = some s) : Unpacks s words := by
  induction remaining generalizing unpacked current width with
  | zero =>
    cases hs
    exact ⟨helements, hcurrent, hvalue⟩
  | succ remaining ih =>
    have hwidth' := hwidth (succ_ne_zero remaining)
    by_cases hw : 12 ≤ width
    · obtain ⟨w, rfl⟩ := Nat.exists_eq_add_of_le' hw
      have hpow : (2 : ℕ) ^ (w + 12) = 2 ^ w * 2 ^ 12 := pow_add 2 w 12
      have htop : current / 2 ^ w < 2 ^ 12 := by
        rw [Nat.div_lt_iff_lt_mul (by positivity), Nat.mul_comm, ← hpow]
        exact hcurrent
      rw [unpackElements_of_le unpacked hw, Nat.add_sub_cancel, elementMask, u64Bound,
        and_complement_of_lt hcurrent hwidth', and_two_pow_sub_one_eq_mod,
        shiftRight_eq_div_pow, mod_eq_of_lt htop] at hs
      refine ih (fun _ => by omega) ?_ (mod_lt _ (by positivity)) ?_ hs
      · exact forall_mem_append.mpr ⟨helements, forall_mem_singleton.mpr htop⟩
      · rw [← hvalue, bigEndian_concat, hpow]
        conv_rhs => rw [← div_add_mod current (2 ^ w)]
        ring
    · rw [unpackElements, if_neg hw] at hs
      cases hs
      exact ⟨helements, hcurrent, hvalue⟩

theorem Unpacks.foldlM {s' : UnpackState} {done : List ℕ} (hs : Unpacks s done)
    (hc : Counts s done.length total) (hwords : ∀ w ∈ words, w < 2 ^ 32)
    (hrun : words.foldlM unpackWord s = some s') : Unpacks s' (done ++ words) := by
  induction words generalizing s done with
  | nil =>
    cases hrun
    simpa using hs
  | cons word words ih =>
    have hword := hwords word mem_cons_self
    have hor : s.current <<< 32 ||| word = s.current * 2 ^ 32 + word := shiftLeft_or_of_lt hword
    have hbits : 12 * s.unpacked.length + (s.width + 32) = 32 * (done.length + 1) := by
      have := hc.bits
      omega
    obtain ⟨s₁, hstep, hc₁⟩ :=
      counts_unpackElements (s.current <<< 32 ||| word) hbits hc.total
    have hs₁ : Unpacks s₁ (done ++ [word]) := by
      refine unpacks_unpackElements (fun hne => ?_) hs.elements_lt ?_ ?_ hstep
      · have := hc.width_lt hne
        omega
      · rw [hor, pow_add]
        have := hs.current_lt
        nlinarith
      · rw [bigEndian_concat, ← hs.value, hor, pow_add]
        ring
    rw [foldlM_cons, unpackWord, hstep, bind_eq_bind, bind_some] at hrun
    have := ih hs₁ (by simpa using hc₁) (fun w hw => hwords w (mem_cons_of_mem _ hw)) hrun
    simpa using this

/-! ## Unpacking never panics -/

theorem remaining_eq_zero (hs : Counts s numWords total)
    (hlen : (total * 12 + 31) / 32 = numWords) : s.remaining = 0 := by
  by_contra hne
  have := hs.bits
  have := hs.total
  have := hs.width_lt hne
  omega

/-- The loop of `try_unpack` takes as many elements as were announced. -/
theorem exists_unpacked (hlen : (total * 12 + 31) / 32 = words.length) :
    ∃ s, words.foldlM unpackWord ⟨[], 0, 0, total⟩ = some s ∧ s.unpacked.length = total ∧
      Counts s words.length total := by
  have hstart : Counts ⟨[], 0, 0, total⟩ 0 total := ⟨by simp, by simp, by simp⟩
  obtain ⟨s, hs, hc⟩ := hstart.foldlM words
  rw [Nat.zero_add] at hc
  have hzero := remaining_eq_zero hc hlen
  have := hc.total
  exact ⟨s, hs, by omega, hc⟩

/-- **Unpacking never panics**, whatever the words are. -/
theorem tryUnpack_isSome (c : Chunk) : (tryUnpack c).isSome = true := by
  rw [tryUnpack]
  split
  · rfl
  · rename_i first rest _
    dsimp only
    split
    · rfl
    · split
      · rfl
      · split
        · rfl
        · split
          · rfl
          · rename_i hlen
            obtain ⟨s, hs, hlength, -⟩ := exists_unpacked (not_not.mp hlen)
            rw [hs, bind_eq_bind, bind_some]
            split
            · rfl
            · rw [if_neg (by omega)]
              rfl

/-! ## Unpacking inverts packing -/

theorem tailLength_lt (n : ℕ) : tailLength n < 32 := by
  rw [tailLength]
  split <;> omega

variable {n first e₁ e₀ : ℕ} {c : Chunk}

theorem lengthEncoding_lt (hn : n ≤ maxUnpackedLength) : ∀ e ∈ lengthEncoding n, e < 2 ^ 12 := by
  have hn' : n >>> 12 < 2 ^ 11 := by
    rw [shiftRight_eq_div_pow]
    rw [maxUnpackedLength] at hn
    omega
  intro e he
  rw [lengthEncoding] at he
  split at he
  · rename_i hlt
    rw [mem_singleton.mp he]
    exact lt_trans hlt (by decide)
  · simp only [mem_cons, not_mem_nil, or_false] at he
    rcases he with rfl | rfl
    · exact or_lt_two_pow (lt_trans hn' (by decide)) (by decide)
    · rw [elementMask, and_two_pow_sub_one_eq_mod]
      exact mod_lt _ (by positivity)

theorem elements_lt {is : List ℕ} (his : ∀ i ∈ is, i < chunkSize)
    (hlen : is.length ≤ maxUnpackedLength) : ∀ e ∈ lengthEncoding is.length ++ is, e < 2 ^ 12 := by
  exact forall_mem_append.mpr ⟨lengthEncoding_lt hlen, his⟩

/-- The first word of a packed stream holds its first two elements. -/
theorem Spells.first_div {rest : List ℕ} (hs : Spells (first :: rest) (e₀ :: e₁ :: es))
    (hes : ∀ e ∈ es, e < 2 ^ 12) : first / 2 ^ 8 = e₀ * 2 ^ 12 + e₁ := by
  obtain ⟨hwords, hbits, hvalue⟩ := hs
  set tail := tailLength (e₀ :: e₁ :: es).length
  have hexp : 12 * es.length + tail = 32 * rest.length + 8 := by
    simp only [length_cons] at hbits
    omega
  have hfirst : bigEndian (2 ^ 32) (first :: rest) / (2 ^ 32) ^ rest.length = first := by
    have hrest : ∀ w ∈ rest, w < 2 ^ 32 := fun w hw => hwords w (mem_cons_of_mem _ hw)
    have := bigEndian_append_div (by decide) [first] hrest
    simpa using this
  have hhead : bigEndian (2 ^ 12) (e₀ :: e₁ :: es) =
      (e₀ * 2 ^ 12 + e₁) * 2 ^ (12 * es.length) + bigEndian (2 ^ 12) es := by
    have := bigEndian_append (2 ^ 12) ([e₀] ++ [e₁]) es
    rw [bigEndian_concat, bigEndian_singleton, ← pow_mul] at this
    exact this
  have hlow : bigEndian (2 ^ 12) es * 2 ^ tail < 2 ^ (12 * es.length + tail) := by
    rw [pow_add, pow_mul]
    exact Nat.mul_lt_mul_of_pos_right (bigEndian_lt (by decide) hes) (by positivity)
  have hsplit : bigEndian (2 ^ 32) (first :: rest) =
      2 ^ (32 * rest.length + 8) * (e₀ * 2 ^ 12 + e₁) + bigEndian (2 ^ 12) es * 2 ^ tail := by
    rw [hvalue, hhead, ← hexp, pow_add]
    ring
  rw [← hfirst, ← pow_mul, Nat.div_div_eq_div_mul, ← pow_add, hsplit,
    mul_add_div (by positivity), div_eq_of_lt (by rwa [← hexp]), Nat.add_zero]

theorem first_elements (h₀ : e₀ < 2 ^ 12) (h₁ : e₁ < 2 ^ 12)
    (hdiv : first / 2 ^ 8 = e₀ * 2 ^ 12 + e₁) :
    first >>> 20 &&& elementMask = e₀ ∧ first >>> 8 &&& elementMask = e₁ := by
  have h20 : first / 2 ^ 20 = first / 2 ^ 8 / 2 ^ 12 := by
    rw [Nat.div_div_eq_div_mul, ← pow_add]
  rw [elementMask, and_two_pow_sub_one_eq_mod, and_two_pow_sub_one_eq_mod,
    shiftRight_eq_div_pow, shiftRight_eq_div_pow, h20, hdiv]
  omega

theorem Spells.indicatedLength_eq {rest is : List ℕ} (hn : n ≤ maxUnpackedLength)
    (his : ∀ i ∈ is, i < 2 ^ 12) (hne : is ≠ [])
    (hs : Spells (first :: rest) (lengthEncoding n ++ is)) :
    indicatedLength first = (n, (lengthEncoding n).length) := by
  by_cases hshort : n < longLengthFlag
  · obtain ⟨i, is, rfl⟩ := exists_cons_of_ne_nil hne
    have henc : lengthEncoding n = [n] := if_pos hshort
    have hlt : n < 2 ^ 12 := lt_trans hshort (by decide)
    rw [henc] at hs ⊢
    obtain ⟨h₀, -⟩ := first_elements hlt (his i mem_cons_self)
      (hs.first_div fun e he => his e (mem_cons_of_mem _ he))
    rw [indicatedLength, h₀, if_pos hshort]
    rfl
  · have henc : lengthEncoding n = [n >>> 12 ||| longLengthFlag, n &&& elementMask] :=
      if_neg hshort
    have hhi : n / 2 ^ 12 < 2 ^ 11 := by
      rw [maxUnpackedLength] at hn
      omega
    have hor : n >>> 12 ||| longLengthFlag = 2 ^ 11 + n / 2 ^ 12 := by
      rw [shiftRight_eq_div_pow, Nat.or_comm]
      exact (shiftLeft_or_of_lt (a := 1) hhi).trans (by rw [Nat.one_mul])
    have hand : n &&& elementMask = n % 2 ^ 12 := and_two_pow_sub_one_eq_mod n 12
    rw [henc, hor, hand] at hs ⊢
    obtain ⟨h₀, h₁⟩ := first_elements (by omega) (mod_lt _ (by positivity)) (hs.first_div his)
    have hlow : (2 ^ 11 + n / 2 ^ 12) &&& (longLengthFlag - 1) = n / 2 ^ 12 := by
      rw [longLengthFlag, and_two_pow_sub_one_eq_mod]
      omega
    have hjoin : (n / 2 ^ 12) <<< 12 ||| n % 2 ^ 12 = n := by
      rw [shiftLeft_or_of_lt (mod_lt _ (by positivity)), Nat.mul_comm, div_add_mod]
    simp only [indicatedLength, h₀, h₁, hlow, if_neg (show ¬ 2 ^ 11 + n / 2 ^ 12 < longLengthFlag by
      rw [longLengthFlag]; omega), hjoin, length_cons, length_nil]

theorem Spells.getLastD_and (hs : Spells words es) (hne : words ≠ []) :
    words.getLastD 0 &&& (2 ^ tailLength es.length - 1) = 0 := by
  obtain ⟨init, last, rfl⟩ := (eq_nil_or_concat' words).resolve_left hne
  have htail := (tailLength_lt es.length).le
  rw [getLastD_concat, and_two_pow_sub_one_eq_mod]
  have hvalue := hs.value
  rw [bigEndian_concat] at hvalue
  have hdvd : 2 ^ tailLength es.length ∣ bigEndian (2 ^ 32) init * 2 ^ 32 :=
    Dvd.dvd.mul_left (pow_dvd_pow 2 htail) _
  have hsum : 2 ^ tailLength es.length ∣ bigEndian (2 ^ 32) init * 2 ^ 32 + last := by
    rw [hvalue]
    exact Dvd.intro_left _ rfl
  exact mod_eq_zero_of_dvd ((Nat.dvd_add_right hdvd).mp hsum)

/-- What the loop of `try_unpack` has read at its end: only the padding is left. -/
theorem exists_unpacks (hwords : ∀ w ∈ words, w < 2 ^ 32)
    (hlen : (total * 12 + 31) / 32 = words.length) :
    ∃ s, words.foldlM unpackWord ⟨[], 0, 0, total⟩ = some s ∧ s.unpacked.length = total ∧
      s.width = tailLength total ∧ Unpacks s words := by
  obtain ⟨s, hrun, hlength, hcounts⟩ := exists_unpacked hlen
  refine ⟨s, hrun, hlength, ?_, ?_⟩
  · have := hcounts.bits
    rw [hlength] at this
    rw [tailLength]
    split_ifs <;> omega
  · have hstart : Counts ⟨[], 0, 0, total⟩ ([] : List ℕ).length total :=
      ⟨by simp, by simp, by simp⟩
    exact Unpacks.foldlM ⟨by simp, by simp, by simp⟩ hstart hwords hrun

theorem Spells.unpacked_eq (hs : Spells words es) (hes : ∀ e ∈ es, e < 2 ^ 12) :
    ∃ s, words.foldlM unpackWord ⟨[], 0, 0, es.length⟩ = some s ∧ s.unpacked = es := by
  have htail := tailLength_lt es.length
  have hbits := hs.bits
  have hlen : (es.length * 12 + 31) / 32 = words.length := by omega
  obtain ⟨s, hrun, hlength, hwidth, hunpacks⟩ := exists_unpacks hs.words_lt hlen
  have hvalue := hunpacks.value
  have hlt := hunpacks.current_lt
  rw [hwidth] at hvalue hlt
  rw [hs.value] at hvalue
  have hdigits : bigEndian (2 ^ 12) s.unpacked = bigEndian (2 ^ 12) es := by
    rw [← Nat.mul_div_cancel (bigEndian _ es) (by positivity : 0 < 2 ^ tailLength es.length),
      ← hvalue, Nat.mul_comm, mul_add_div (by positivity), div_eq_of_lt hlt, Nat.add_zero]
  exact ⟨s, hrun, bigEndian_injective (by decide) hlength hunpacks.elements_lt hes hdigits⟩

theorem Spells.words_unique {words' : List ℕ} (hs : Spells words es) (hs' : Spells words' es) :
    words = words' := by
  have hlen : words.length = words'.length := by
    have := hs.bits
    have := hs'.bits
    omega
  exact bigEndian_injective (by decide) hlen hs.words_lt hs'.words_lt
    (hs.value.trans hs'.value.symm)

theorem exists_spells (hne : c.relativeIndices ≠ []) (hlt : ∀ i ∈ c.relativeIndices, i < chunkSize)
    (hlen : c.relativeIndices.length ≤ maxUnpackedLength) : ∃ words, pack c = some ⟨words⟩ ∧
      Spells words (lengthEncoding c.relativeIndices.length ++ c.relativeIndices) := by
  obtain ⟨s, hs, hpacks⟩ := Packs.nil.foldlM (elements_lt hlt hlen)
  obtain ⟨words, hwords, hspells⟩ := hpacks.remainder
  refine ⟨words, ?_, hspells⟩
  rw [pack, if_neg hne, if_neg (by simpa using hlt), if_neg (by omega),
    packWithLengthEncoding, hs, bind_eq_bind, bind_some, hwords]

/-- **Unpacking inverts packing**: a chunk that is not too long can be packed, and is read back. -/
theorem exists_pack (hlt : ∀ i ∈ c.relativeIndices, i < chunkSize)
    (hlen : c.relativeIndices.length ≤ maxUnpackedLength) :
    ∃ p, pack c = some p ∧ tryUnpack p = some (.ok c) := by
  by_cases hnil : c.relativeIndices = []
  · obtain rfl : c = ⟨[]⟩ := Chunk.ext hnil
    exact ⟨⟨[]⟩, rfl, rfl⟩
  · obtain ⟨words, hpack, hspells⟩ := exists_spells hnil hlt hlen
    set n := c.relativeIndices.length with hn
    set es := lengthEncoding n ++ c.relativeIndices with hes
    have hpos : 0 < n := length_pos_of_ne_nil hnil
    have hlength : es.length = n + (lengthEncoding n).length := by
      rw [hes, length_append, Nat.add_comm]
    have hbits := hspells.bits
    have htail := tailLength_lt es.length
    refine ⟨⟨words⟩, hpack, ?_⟩
    obtain ⟨first, rest, rfl⟩ : ∃ first rest, words = first :: rest :=
      exists_cons_of_length_pos (by omega)
    have hind := hspells.indicatedLength_eq hlen hlt hnil
    obtain ⟨u, hu, hunpacked⟩ := hspells.unpacked_eq (elements_lt hlt hlen)
    have henc : (lengthEncoding n).length ≤ 2 ∧
        ((lengthEncoding n).length = 2 → ¬ n < longLengthFlag) := by
      rw [lengthEncoding]
      split <;> simp_all
    rw [maxUnpackedLength] at hlen
    rw [tryUnpack]
    simp only [hind, ← hlength, hu, bind_eq_bind, bind_some,
      hspells.getLastD_and (cons_ne_nil _ _), hunpacked]
    rw [if_neg (by rw [maxPackedLength]; omega), if_neg (by omega),
      if_neg (fun h => henc.2 h.1 h.2),
      if_neg (by omega), if_neg (by simp), if_neg (by omega), hes, drop_left]

theorem tryUnpack_of_pack {p : Chunk} (hp : pack c = some p) : tryUnpack p = some (.ok c) := by
  have hfits : (∀ i ∈ c.relativeIndices, i < chunkSize) ∧
      c.relativeIndices.length ≤ maxUnpackedLength := by
    rw [pack] at hp
    split_ifs at hp with hnil hlt hlen
    · simp [hnil]
    · exact ⟨hlt, Nat.le_of_not_lt hlen⟩
  obtain ⟨p', hp', hread⟩ := exists_pack hfits.1 hfits.2
  rw [hp, some_inj] at hp'
  rw [hp', hread]

/-! ## Packing inverts unpacking -/

/-- The loop of `try_unpack` reads what the words spell, provided that the padding is zero. -/
theorem exists_spelled (hwords : ∀ w ∈ words, w < 2 ^ 32)
    (hlen : (total * 12 + 31) / 32 = words.length) (hne : words ≠ [])
    (hpadding : words.getLastD 0 &&& (2 ^ tailLength total - 1) = 0) :
    ∃ s, words.foldlM unpackWord ⟨[], 0, 0, total⟩ = some s ∧ s.unpacked.length = total ∧
      (∀ e ∈ s.unpacked, e < 2 ^ 12) ∧ Spells words s.unpacked := by
  obtain ⟨s, hrun, hlength, hwidth, hunpacks⟩ := exists_unpacks hwords hlen
  have htail := tailLength_lt total
  have hvalue := hunpacks.value
  have hcurrent := hunpacks.current_lt
  rw [hwidth] at hvalue hcurrent
  have hzero : s.current = 0 := by
    obtain ⟨init, last, rfl⟩ := (eq_nil_or_concat' words).resolve_left hne
    rw [getLastD_concat, and_two_pow_sub_one_eq_mod] at hpadding
    have hdvd : 2 ^ tailLength total ∣ bigEndian (2 ^ 32) (init ++ [last]) := by
      rw [bigEndian_concat]
      exact Dvd.dvd.add (Dvd.dvd.mul_left (pow_dvd_pow 2 htail.le) _)
        (dvd_of_mod_eq_zero hpadding)
    rw [← hvalue, Nat.dvd_add_right (Dvd.intro_left _ rfl)] at hdvd
    exact eq_zero_of_dvd_of_lt hdvd hcurrent
  refine ⟨s, hrun, hlength, hunpacks.elements_lt, hwords, ?_, ?_⟩
  · rw [hlength, tailLength]
    split_ifs <;> omega
  · rw [hlength, ← hvalue, hzero, Nat.add_zero]

/-- The elements of the length indicator are the ones that `pack` writes. -/
theorem lengthEncoding_eq {k : ℕ} (h₀ : e₀ < 2 ^ 12) (h₁ : e₁ < 2 ^ 12)
    (hdiv : first / 2 ^ 8 = e₀ * 2 ^ 12 + e₁) (hind : indicatedLength first = (n, k))
    (hminimal : ¬ (k = 2 ∧ n < longLengthFlag)) :
    (n < longLengthFlag ∧ k = 1 ∧ lengthEncoding n = [e₀]) ∨
      (k = 2 ∧ lengthEncoding n = [e₀, e₁]) := by
  obtain ⟨hhi, hlo⟩ := first_elements h₀ h₁ hdiv
  simp only [indicatedLength, hhi, hlo] at hind
  split_ifs at hind with hshort
  · obtain ⟨rfl, rfl⟩ := Prod.mk.inj hind
    exact .inl ⟨hshort, rfl, if_pos hshort⟩
  · obtain ⟨rfl, rfl⟩ := Prod.mk.inj hind
    refine .inr ⟨rfl, ?_⟩
    rw [lengthEncoding, if_neg fun h => hminimal ⟨rfl, h⟩, longLengthFlag, elementMask,
      and_two_pow_sub_one_eq_mod, and_two_pow_sub_one_eq_mod, shiftLeft_or_of_lt h₁,
      shiftRight_eq_div_pow]
    rw [longLengthFlag] at hshort
    have hhigh : (e₀ % 2 ^ 11 * 2 ^ 12 + e₁) / 2 ^ 12 = e₀ % 2 ^ 11 := by omega
    have hor : e₀ % 2 ^ 11 ||| 2 ^ 11 = e₀ := by
      rw [Nat.or_comm]
      refine (shiftLeft_or_of_lt (a := 1) (mod_lt e₀ (by decide : 0 < 2 ^ 11))).trans ?_
      omega
    rw [hhigh, hor, mul_add_mod_of_lt h₁]

theorem numLengthElements_pos {k : ℕ} (hind : indicatedLength first = (n, k)) : 0 < k := by
  rw [indicatedLength] at hind
  split_ifs at hind
  · exact (Prod.mk.inj hind).2 ▸ Nat.one_pos
  · exact (Prod.mk.inj hind).2 ▸ Nat.two_pos

/-- What `try_unpack` accepts is what `pack` writes. -/
theorem pack_of_tryUnpack {p : Chunk} (hwords : ∀ w ∈ p.relativeIndices, w < u32Bound)
    (hread : tryUnpack p = some (.ok c)) :
    (∀ i ∈ c.relativeIndices, i < chunkSize) ∧ c.relativeIndices.length ≤ maxUnpackedLength ∧
      pack c = some p := by
  rw [tryUnpack] at hread
  split at hread
  · rename_i hnil
    obtain rfl : c = ⟨[]⟩ := (Except.ok.inj (some_inj.mp hread)).symm
    exact ⟨by simp, by simp, by rw [Chunk.ext (x := p) (y := ⟨[]⟩) hnil]; rfl⟩
  · rename_i first rest hp
    rw [hp] at hwords
    cases hind : indicatedLength first with | mk n k
    have hk := numLengthElements_pos hind
    simp only [hind] at hread
    split_ifs at hread with hbig hzero hminimal hlen hpadding
    · cases hread
    · cases hread
    · cases hread
    · cases hread
    · obtain ⟨s, hrun, -, -⟩ := exists_unpacked (not_not.mp hlen)
      rw [hrun] at hread
      cases hread
    rw [not_not] at hlen hpadding
    obtain ⟨s, hrun, hlength, helements, hspells⟩ :=
      exists_spelled hwords hlen (cons_ne_nil _ _) hpadding
    rw [hrun, bind_eq_bind, bind_some, if_neg (by omega)] at hread
    obtain rfl := Except.ok.inj (some_inj.mp hread)
    -- there is an index besides the length indicator, so there are two elements
    obtain ⟨e₀, e₁, es, hes⟩ : ∃ e₀ e₁ es, s.unpacked = e₀ :: e₁ :: es := by
      match s.unpacked, hlength with
      | e₀ :: e₁ :: es, _ => exact ⟨e₀, e₁, es, rfl⟩
      | [_], h => simp at h; omega
      | [], h => simp at h; omega
    have hsplit : s.unpacked = lengthEncoding n ++ s.unpacked.drop k ∧ n ≤ maxUnpackedLength := by
      rw [hes] at hspells helements
      have hdiv := hspells.first_div fun e he =>
        helements e (mem_cons_of_mem _ (mem_cons_of_mem _ he))
      rw [maxUnpackedLength]
      rw [maxPackedLength] at hbig
      rw [hes]
      rcases lengthEncoding_eq (helements e₀ mem_cons_self)
        (helements e₁ (by simp)) hdiv hind hminimal with ⟨hn, rfl, henc⟩ | ⟨rfl, henc⟩
      · rw [longLengthFlag] at hn
        exact ⟨by rw [henc]; rfl, by omega⟩
      · exact ⟨by rw [henc]; rfl, by omega⟩
    obtain ⟨hsplit, hn⟩ := hsplit
    set c : List ℕ := s.unpacked.drop k with hc
    have hcn : c.length = n := by
      rw [hc, length_drop, hlength]
      omega
    have hclt : ∀ i ∈ c, i < chunkSize := fun i hi => helements i (mem_of_mem_drop hi)
    have hne : c ≠ [] := by
      intro hnil
      rw [hnil] at hcn
      exact hzero hcn.symm
    refine ⟨hclt, hcn.le.trans hn, ?_⟩
    obtain ⟨words, hpack, hspells'⟩ := exists_spells (c := ⟨c⟩) hne hclt (hcn.le.trans hn)
    rw [hpack, some_inj]
    apply Chunk.ext
    rw [hp]
    rw [hcn] at hspells'
    exact hspells'.words_unique (by rwa [← hsplit])

/-- **Chunk compression is a bijection** between the lists of at most 92160 indices, in any order,
and the words that `try_unpack` accepts. -/
theorem pack_bijective (p c : Chunk) (hwords : ∀ w ∈ p.relativeIndices, w < u32Bound) :
    ((∀ i ∈ c.relativeIndices, i < chunkSize) → c.relativeIndices.length ≤ maxUnpackedLength →
        ∃ q, pack c = some q ∧ tryUnpack q = some (.ok c)) ∧
      (tryUnpack p = some (.ok c) → (∀ i ∈ c.relativeIndices, i < chunkSize) ∧
        c.relativeIndices.length ≤ maxUnpackedLength ∧ pack c = some p) ∧
      (tryUnpack p).isSome = true :=
  ⟨exists_pack, pack_of_tryUnpack hwords, tryUnpack_isSome p⟩

/-- The words of the unsorted chunk `[5, 3]`. -/
def descending : Chunk := ⟨[2098432, 805306368]⟩

theorem tryUnpack_unsorted : tryUnpack descending = some (.ok ⟨[5, 3]⟩) ∧
    ¬ ([5, 3] : List ℕ).Pairwise (· ≤ ·) := by decide +kernel

theorem pack_bijective_descending : pack ⟨[5, 3]⟩ = some descending :=
  ((pack_bijective descending ⟨[5, 3]⟩ (by decide)).2.1 (by decide +kernel)).2.2

end Chunk

end NyksNode
