import NyksNode.Block.ChainSafety
import NyksNode.Block.EmptyChain
import NyksNode.Block.WorkBound
import NyksNode.Peer.Challenge

/-!
# Judging responses to sync challenges

A challenge asks for blocks at random heights.  The response is first compared with the challenge,
then its blocks are validated, each one on top of its parent only, and last the work of the parents
is looked at.  How the pairs are related to each other and to the tip is not checked before that,
so the work may fall and the tip may be lower than the blocks below it.
-/

namespace NyksNode

open Option TransferBlock BlockHeight Fallible Nat

variable {D : Type}

/-! ## Challenges -/

/-- `StdRng`. -/
class Rng (σ : Type) where
  fromSeed : Vector (Fin 256) 32 → σ
  nextU64 : σ → Fin (2 ^ 64) × σ
  randomRange : σ → (start stop : ℕ) → ℕ × σ

/-- Draws from a range are in the range. -/
class LawfulRng (σ : Type) [Rng σ] : Prop where
  le_randomRange (rng : σ) {start stop : ℕ} (h : start < stop) :
    start ≤ (Rng.randomRange rng start stop).1
  randomRange_lt (rng : σ) {start stop : ℕ} (h : start < stop) :
    (Rng.randomRange rng start stop).1 < stop

def leadingZeros (n : Fin (2 ^ 64)) : ℕ := if n.val = 0 then 64 else 63 - n.val.log2

structure PeerBlockNotification (D : Type) where
  hash : D
  height : BlockHeight
  cumulativeProofOfWork : ProofOfWork
  deriving DecidableEq, Repr

def BlockHeight.checkedSub (h : BlockHeight) (v : ℕ) : Option BlockHeight :=
  if v ≤ h.value.val then some ⟨.new (h.value.val - v)⟩ else none

/-- `BlockHeight::from` a `u64`, which is cut off at the largest field element. -/
def BlockHeight.ofU64 (v : ℕ) : BlockHeight := ⟨.new (min (BFieldElement.modulus - 1) v)⟩

structure IssuedSyncChallenge (D : Type) where
  challenge : SyncChallenge D
  issuedAt : Timestamp
  accumulatedPow : ProofOfWork
  deriving DecidableEq, Repr

namespace SyncChallenge
variable {σ : Type} [Rng σ]

/-- A height whose distance from the claimed one is small most of the time. -/
def skewedHeight (height : BlockHeight) (rng : σ) : Option BlockHeight × σ :=
  let (a, rng) := Rng.nextU64 rng
  let (b, rng) := Rng.nextU64 rng
  let (c, rng) := Rng.nextU64 rng
  let (d, rng) := Rng.nextU64 rng
  let distance := leadingZeros a * 31 + leadingZeros b * 7 + leadingZeros c * 3 + leadingZeros d + 1
  (height.checkedSub distance, rng)

/-- A height from the own tip up to the claimed one. -/
def uniformHeight (ownTipHeight height : BlockHeight) (rng : σ) : Option BlockHeight × σ :=
  let (n, rng) := Rng.randomRange rng ownTipHeight.value.val height.value.val
  (some (.ofU64 n), rng)

/-- A height that can be asked for. -/
def keep (heights : List BlockHeight) : Option BlockHeight → List BlockHeight
  | none => heights
  | some h => if h ≤ ⟨1⟩ then heights else heights ++ [h]

/-- The two loops: draw until there are enough heights. -/
def sampleLoop (draw : σ → Option BlockHeight × σ) (num : ℕ) :
    ℕ → σ → List BlockHeight → Option (List BlockHeight × σ)
  | 0, rng, heights => if heights.length < num then none else some (heights, rng)
  | fuel + 1, rng, heights =>
    if heights.length < num then
      sampleLoop draw num fuel (draw rng).2 (keep heights (draw rng).1)
    else some (heights, rng)

def generate (σ : Type) [Rng σ] (fuel : ℕ) (blockNotification : PeerBlockNotification D)
    (ownTipHeight : BlockHeight) (randomness : Vector (Fin 256) 32) : Option (SyncChallenge D) :=
  if (blockNotification.height.value.val : ℤ) - ownTipHeight.value.val < 10 then none
  else do
    let rng : σ := Rng.fromSeed randomness
    let (heights, rng) ← sampleLoop (skewedHeight blockNotification.height) 5 fuel rng []
    let (heights, _) ← sampleLoop (uniformHeight ownTipHeight blockNotification.height) 10 fuel rng
      heights
    let challenges ← tryIntoArray _ (heights.insertionSort (· ≤ ·))
    some ⟨blockNotification.hash, challenges⟩

omit [Rng σ] in
/-- What holds of every height that is drawn and kept holds of all heights. -/
theorem forall_mem_sampleLoop {draw : σ → Option BlockHeight × σ} {num : ℕ} {P : BlockHeight → Prop}
    (hdraw : ∀ rng, ∀ h ∈ (draw rng).1, ¬ h ≤ ⟨1⟩ → P h) {fuel : ℕ} {rng rng' : σ}
    {heights heights' : List BlockHeight} (hheights : ∀ h ∈ heights, P h)
    (hloop : sampleLoop draw num fuel rng heights = some (heights', rng')) :
    ∀ h ∈ heights', P h := by
  induction fuel generalizing rng heights with
  | zero =>
    rw [sampleLoop] at hloop
    split at hloop
    · cases hloop
    · cases hloop
      exact hheights
  | succ fuel ih =>
    rw [sampleLoop] at hloop
    split at hloop
    · refine ih ?_ hloop
      intro h hh
      cases hd : (draw rng).1 with
      | none =>
        rw [hd] at hh
        exact hheights h hh
      | some h' =>
        rw [hd, keep] at hh
        split at hh
        · exact hheights h hh
        next hlow =>
          cases List.mem_append.mp hh with
          | inl hmem => exact hheights h hmem
          | inr hmem =>
            obtain rfl := List.mem_singleton.mp hmem
            exact hdraw rng h hd hlow
    · cases hloop
      exact hheights

theorem val_skewedHeight_lt {height h : BlockHeight} {rng : σ}
    (hh : h ∈ (skewedHeight height rng).1) : h.value.val < height.value.val := by
  simp only [skewedHeight, checkedSub, mem_def, ite_none_right_eq_some, some_inj] at hh
  obtain ⟨hle, rfl⟩ := hh
  refine (mod_le _ _).trans_lt ?_
  omega

theorem val_uniformHeight_lt [LawfulRng σ] {ownTipHeight height h : BlockHeight} {rng : σ}
    (hlt : ownTipHeight.value.val < height.value.val)
    (hh : h ∈ (uniformHeight ownTipHeight height rng).1) : h.value.val < height.value.val := by
  have hdraw := LawfulRng.randomRange_lt rng hlt
  simp only [uniformHeight, ofU64, mem_def] at hh
  cases hh
  exact (mod_le _ _).trans_lt ((min_le_right _ _).trans_lt hdraw)

instance : Std.Total (fun h h' : BlockHeight => h ≤ h') :=
  ⟨fun h h' => le_total h.value h'.value⟩

instance : IsTrans BlockHeight (· ≤ ·) := ⟨fun _ _ _ hab hbc => Nat.le_trans hab hbc⟩

section
variable {fuel : ℕ} {blockNotification : PeerBlockNotification D} {ownTipHeight : BlockHeight}
  {randomness : Vector (Fin 256) 32} {c : SyncChallenge D}

section
variable (hc : generate σ fuel blockNotification ownTipHeight randomness = some c)
include hc

/-- **The heights of a challenge** are sorted, and each of them was drawn and kept. -/
theorem generate_spec : ownTipHeight.value.val < blockNotification.height.value.val ∧
      c.tipDigest = blockNotification.hash ∧ c.challenges.toList.Pairwise (· ≤ ·) ∧
      ∀ h ∈ c.challenges.toList, ¬ h ≤ ⟨1⟩ ∧ ∃ rng : σ,
        h ∈ (skewedHeight blockNotification.height rng).1 ∨
          h ∈ (uniformHeight ownTipHeight blockNotification.height rng).1 := by
  rw [generate] at hc
  split at hc
  · cases hc
  next hdifference =>
    simp only [bind_eq_some, Prod.exists, some_inj] at hc
    obtain ⟨skewed, rng, hskewed, heights, rng', huniform, challenges, harray, rfl⟩ := hc
    have hall : ∀ h ∈ heights, ¬ h ≤ ⟨1⟩ ∧ ∃ rng : σ,
        h ∈ (skewedHeight blockNotification.height rng).1 ∨
          h ∈ (uniformHeight ownTipHeight blockNotification.height rng).1 := by
      refine forall_mem_sampleLoop (fun rng h hh hnot => ⟨hnot, rng, Or.inr hh⟩) ?_ huniform
      exact forall_mem_sampleLoop (fun rng h hh hnot => ⟨hnot, rng, Or.inl hh⟩)
        (List.forall_mem_nil _) hskewed
    rw [tryIntoArray] at harray
    split at harray
    · cases harray
      refine ⟨by omega, rfl, List.pairwise_insertionSort _ _, fun h hh => hall h ?_⟩
      exact (List.mem_insertionSort _).mp hh
    · cases harray

theorem two_le_of_generate {h : BlockHeight} (hh : h ∈ c.challenges.toList) : 2 ≤ h.value.val :=
  Nat.lt_of_not_le ((generate_spec hc).2.2.2 h hh).1

end

theorem lt_of_generate [LawfulRng σ]
    (hc : generate σ fuel blockNotification ownTipHeight randomness = some c) {h : BlockHeight}
    (hh : h ∈ c.challenges.toList) : h.value.val < blockNotification.height.value.val := by
  obtain ⟨hlt, -, -, hdrawn⟩ := generate_spec hc
  obtain ⟨-, rng, hskewed | huniform⟩ := hdrawn h hh
  · exact val_skewedHeight_lt hskewed
  · exact val_uniformHeight_lt hlt huniform

/-- The digest of the announced tip goes into the challenge and nowhere else. -/
theorem generate_of_height_eq (blockNotification blockNotification' : PeerBlockNotification D)
    (hheight : blockNotification.height = blockNotification'.height) :
    generate σ fuel blockNotification ownTipHeight randomness =
      (generate σ fuel blockNotification' ownTipHeight randomness).map fun c =>
        ⟨blockNotification.hash, c.challenges⟩ := by
  rw [generate, generate, hheight]
  split
  · rfl
  · simp only [bind_eq_bind, map_bind, Function.comp_def, map_some]

end

end SyncChallenge

open SyncChallenge

/-! ## Responses -/

def tupleWindows {α : Type} (xs : List α) : List (α × α) := xs.zip xs.tail

/-- Height, work and difficulty of a header. -/
structure PowTriple where
  height : BlockHeight
  work : ProofOfWork
  difficulty : Difficulty
  deriving DecidableEq, Repr

def PowTriple.ofHeader (h : BlockHeader D) : PowTriple :=
  ⟨h.height, h.cumulativeProofOfWork, h.difficulty⟩

/-- The upper bound for the work of the second header.  Heights may not fall. -/
def PowTriple.maxPow (network : Network) (start stop : PowTriple) : Option ProofOfWork :=
  if stop.height < start.height then none
  else maxCumulativePowAfter start.work start.difficulty
    (stop.height.value.val - start.height.value.val) network.targetBlockInterval
    network.minimumBlockTime

/-- The work does not fall, and stays within its bound. -/
def PowTriple.evolvesTo (network : Network) (start stop : PowTriple) : Option Bool := do
  let maxPow ← start.maxPow network stop
  some (decide (stop.work ≤ maxPow) && decide (start.work ≤ stop.work))

def Block.acceptedOn [Tip5 D] [ConsensusOps D] [DecidableEq D] [MmrOps D] [MmrIndexing]
    [DigestOps D] (block parent : Block D) (now : Timestamp) (network : Network) : Option Bool := do
  if ← block.isValid parent now network then block.hasProofOfWork network parent.header
  else some false

namespace SyncChallengeResponse
variable [Tip5 D] [ConsensusOps D] [DecidableEq D] [DigestOps D]

def powWitnessesFormChainFromTip (tipDigest : D)
    (powWitnesses : Vector (BlockHeaderWithBlockHashWitness D) syncChallengePowWitnessLength) :
    Bool :=
  decide ((powWitnesses.get ⟨0, by decide⟩).hash = tipDigest) &&
    (tupleWindows powWitnesses.toList).all fun x => x.1.isSuccessorOf x.2

/-- `matches`. -/
def matchesChallenge (r : SyncChallengeResponse D) (network : Network)
    (issuedChallenge : IssuedSyncChallenge D) : Option Bool :=
  match r.tipParent.toBlock, r.tip.toBlock with
  | .ok tipParent, .ok tip =>
    if (r.blocks.toList.zip issuedChallenge.challenge.challenges.toList).all
          (fun x => x.1.2.header.height = x.2) ∧
        issuedChallenge.challenge.tipDigest = tip.hash ∧
        issuedChallenge.accumulatedPow = tip.header.cumulativeProofOfWork then
      (tip.hasProofOfWork network tipParent.header).map
        (· && powWitnessesFormChainFromTip tip.hash r.powWitnesses)
    else some false
  | _, _ => some false

variable [MmrOps D] [MmrIndexing]

/-- One round of the loop of `is_valid`. -/
def pairIsValid (now : Timestamp) (network : Network) (mmraAnchor : MmrAccumulator D)
    (x : (TransferBlock D × TransferBlock D) × MmrMembershipProof D) : Option Bool :=
  match x.1.2.toBlock with
  | .error _ => some false
  | .ok child =>
    if MmrOps.verify x.2 child.header.height.value.val child.hash mmraAnchor.peaks
        mmraAnchor.numLeafs then
      match x.1.1.toBlock with
      | .error _ => some false
      | .ok parent => child.acceptedOn parent now network
    else some false

def isValid (r : SyncChallengeResponse D) (now : Timestamp) (network : Network) : Option Bool :=
  match r.tipParent.toBlock, r.tip.toBlock with
  | .ok tipPredecessor, .ok tip => do
    if ← tip.acceptedOn tipPredecessor now network then
      let (mmraAnchor, _) ← MmrOps.append tip.body.blockMmrAccumulator tip.hash
      (r.blocks.toList.zip r.membershipProofs.toList).allM (pairIsValid now network mmraAnchor)
    else some false
  | _, _ => some false

/-- The parents between the genesis block and the tip. -/
def parentTriples (r : SyncChallengeResponse D) (network : Network) : List PowTriple :=
  .ofHeader (BlockHeader.genesis network : BlockHeader D) ::
    (r.blocks.toList.map (fun x => .ofHeader x.1.header) ++ [.ofHeader r.tipParent.header])

def totalPowIncrease (r : SyncChallengeResponse D) : Option ℕ :=
  let first := (r.blocks.get ⟨0, by decide⟩).1.header.cumulativeProofOfWork.toBigUint
  let last := r.tip.header.cumulativeProofOfWork.toBigUint
  if first ≤ last then some (last - first) else none

def averageDifficulty (r : SyncChallengeResponse D) (totalPowIncrease : ℕ) : Binary64 :=
  let span : ℤ := r.tip.header.height.value.val -
    (r.blocks.get ⟨0, by decide⟩).1.header.height.value.val
  (Binary64.ofNat totalPowIncrease).div (Binary64.ofInt span)

/-- No difficulty is above the average. -/
def tooFewAboveMeanDifficulties (r : SyncChallengeResponse D) (ownTipHeight : BlockHeight)
    (averageDifficulty : Binary64) : Bool :=
  !ownTipHeight.isGenesis &&
    ((r.blocks.toList.flatMap fun x => [x.1, x.2]) ++ [r.tipParent, r.tip]).all fun b =>
      !averageDifficulty.le (Binary64.ofNat b.header.difficulty.toBigUint)

/-- The bounds are computed once more for the log if the work does not evolve as it should. -/
def logEvolution (network : Network) (okay : Bool) (triples : List PowTriple) : Option Unit :=
  if okay then some ()
  else (tupleWindows triples).forM fun x => (x.1.maxPow network x.2).map fun _ => ()

/-- `check_pow`, in a build with or without debug assertions. -/
def checkPow (debugAssertions : Bool) (r : SyncChallengeResponse D) (network : Network)
    (ownTipHeight : BlockHeight) : Option Bool := do
  let cumulativePowEvolutionOkay ← (tupleWindows (r.parentTriples network)).allM fun x =>
    x.1.evolvesTo network x.2
  let totalPowIncrease ← r.totalPowIncrease
  let averageDifficulty := r.averageDifficulty totalPowIncrease
  if debugAssertions && !(Binary64.ofNat 0).lt averageDifficulty then none
  else do
    let tooFewAboveMeanDifficulties := r.tooFewAboveMeanDifficulties ownTipHeight averageDifficulty
    logEvolution network cumulativePowEvolutionOkay (r.parentTriples network)
    some (cumulativePowEvolutionOkay && !tooFewAboveMeanDifficulties)

end SyncChallengeResponse

/-! ## When the last check panics -/

theorem forall_mem_tupleWindows_iff {α : Type} {R : α → α → Prop} {xs : List α} :
    (∀ x ∈ tupleWindows xs, R x.1 x.2) ↔ xs.IsChain R := by
  induction xs with
  | nil => simp [tupleWindows]
  | cons x xs ih =>
    cases xs with
    | nil => simp [tupleWindows]
    | cons y xs =>
      rw [List.isChain_cons_cons, ← ih]
      simp [tupleWindows]

namespace PowTriple
variable (network : Network) {start stop : PowTriple}

theorem exists_maxPow_iff :
    (∃ p, start.maxPow network stop = some p) ↔ start.height ≤ stop.height := by
  rw [maxPow]
  split
  next hlt => exact iff_of_false (by simp) (Nat.not_le_of_lt hlt)
  next hle =>
    exact iff_of_true (exists_maxCumulativePowAfter network.minimumBlockTime_lt _ _ _)
      (Nat.le_of_not_lt hle)

theorem exists_evolvesTo_iff :
    (∃ r, start.evolvesTo network stop = some r) ↔ start.height ≤ stop.height := by
  rw [← exists_maxPow_iff network]
  cases hmax : start.maxPow network stop <;> simp [evolvesTo, hmax]

end PowTriple

namespace SyncChallengeResponse
variable [Tip5 D] [DigestOps D]
variable {r : SyncChallengeResponse D} {network : Network} {ownTipHeight : BlockHeight}
  {debugAssertions : Bool}

/-- The logging loop of a failed check looks at all headers, also at those that the check has
not reached. -/
theorem checkPow_isSome_iff : (r.checkPow debugAssertions network ownTipHeight).isSome ↔
    (r.parentTriples network).IsChain (fun start stop => start.height ≤ stop.height) ∧
      ∃ increase, r.totalPowIncrease = some increase ∧ (debugAssertions = true →
        (Binary64.ofNat 0).lt (r.averageDifficulty increase) = true) := by
  rw [← forall_mem_tupleWindows_iff, isSome_iff_exists]
  constructor
  · intro h
    obtain ⟨b, hb⟩ := h
    simp only [checkPow, bind_eq_bind, bind_eq_some_iff] at hb
    obtain ⟨okay, hokay, increase, hincrease, hb⟩ := hb
    split at hb
    · cases hb
    next hassert =>
      simp only [bind_eq_some_iff] at hb
      obtain ⟨_, hlog, -⟩ := hb
      refine ⟨fun x hx => ?_, increase, hincrease, by simpa using hassert⟩
      cases okay with
      | true =>
        have hx' := allM_eq_some_true_iff.mp hokay x hx
        exact (PowTriple.exists_evolvesTo_iff network).mp ⟨_, hx'⟩
      | false =>
        rw [logEvolution, if_neg Bool.false_ne_true, forM_eq_some_iff] at hlog
        obtain ⟨p, hp, -⟩ := map_eq_some_iff.mp (hlog x hx)
        exact (PowTriple.exists_maxPow_iff network).mp ⟨p, hp⟩
  · intro h
    obtain ⟨hchain, increase, hincrease, hassert⟩ := h
    obtain ⟨okay, hokay⟩ := exists_allM fun x hx =>
      (PowTriple.exists_evolvesTo_iff network).mpr (hchain x hx)
    have hlog : logEvolution network okay (r.parentTriples network) = some () := by
      rw [logEvolution]
      split
      · rfl
      · rw [forM_eq_some_iff]
        intro x hx
        obtain ⟨p, hp⟩ := (PowTriple.exists_maxPow_iff network).mpr (hchain x hx)
        rw [hp, map_some]
    have hnot :
        ¬ (debugAssertions && !(Binary64.ofNat 0).lt (r.averageDifficulty increase)) = true := by
      simpa using hassert
    refine ⟨okay && !r.tooFewAboveMeanDifficulties ownTipHeight (r.averageDifficulty increase), ?_⟩
    simp only [checkPow, hokay, hincrease, hlog, some_bind, if_neg hnot]

/-- If the parents are sorted, then only the parent of the tip can be too low. -/
theorem isChain_parentTriples_iff
    (hsorted : r.blocks.toList.Pairwise fun x y => x.1.header.height ≤ y.1.header.height) :
    (r.parentTriples network).IsChain (fun start stop => start.height ≤ stop.height) ↔
      ∀ x ∈ r.blocks.toList, x.1.header.height ≤ r.tipParent.header.height := by
  have hgenesis : ∀ stop : PowTriple,
      (PowTriple.ofHeader (BlockHeader.genesis network : BlockHeader D)).height ≤ stop.height :=
    fun stop => Nat.zero_le _
  have htrans : IsTrans PowTriple (fun start stop => start.height ≤ stop.height) :=
    ⟨fun _ _ _ hab hbc => Nat.le_trans hab hbc⟩
  rw [List.isChain_iff_pairwise, parentTriples, List.pairwise_cons, List.pairwise_append,
    List.pairwise_map]
  constructor
  · intro h x hx
    exact h.2.2.2 _ (List.mem_map_of_mem hx) _ (List.mem_singleton_self _)
  · intro h
    refine ⟨fun stop _ => hgenesis stop, hsorted, List.pairwise_singleton _ _, ?_⟩
    intro start hstart stop hstop
    obtain ⟨x, hx, rfl⟩ := List.mem_map.mp hstart
    obtain rfl := List.mem_singleton.mp hstop
    exact h x hx

omit [Tip5 D] [DigestOps D] in
theorem zero_lt_averageDifficulty_iff {increase : ℕ} (hincrease : increase ≤ 2 ^ 192)
    (hspan : (r.blocks.get ⟨0, by decide⟩).1.header.height.value.val <
      r.tip.header.height.value.val) :
    (Binary64.ofNat 0).lt (r.averageDifficulty increase) = true ↔ increase ≠ 0 := by
  have hcast : (r.tip.header.height.value.val : ℤ) -
      (r.blocks.get ⟨0, by decide⟩).1.header.height.value.val = ((r.tip.header.height.value.val -
        (r.blocks.get ⟨0, by decide⟩).1.header.height.value.val : ℕ) : ℤ) := by omega
  have hbound := r.tip.header.height.value.isLt
  rw [averageDifficulty, hcast, Binary64.ofInt_natCast]
  exact Binary64.zero_lt_div_iff hincrease (by omega) (by omega)

variable [ConsensusOps D] [DecidableEq D] [MmrOps D] [MmrIndexing]

omit [MmrIndexing] in
theorem map_eq_of_all_zip {α β : Type} [DecidableEq β] {f : α → β} {xs : List α} {ys : List β}
    (hlength : xs.length = ys.length) (hall : (xs.zip ys).all (fun x => f x.1 = x.2) = true) :
    xs.map f = ys := by
  induction xs generalizing ys with
  | nil => exact (List.length_eq_zero_iff.mp hlength.symm).symm
  | cons x xs ih =>
    cases ys with
    | nil => cases hlength
    | cons y ys =>
      rw [List.zip_cons_cons, List.all_cons, Bool.and_eq_true, decide_eq_true_eq] at hall
      rw [List.map_cons, hall.1, ih (succ.inj hlength) hall.2]

omit [MmrOps D] [MmrIndexing] in
theorem heights_of_matchesChallenge {issuedChallenge : IssuedSyncChallenge D}
    (hmatches : r.matchesChallenge network issuedChallenge = some true) :
    r.blocks.toList.map (fun x => x.2.header.height) =
      issuedChallenge.challenge.challenges.toList := by
  rw [matchesChallenge] at hmatches
  split at hmatches
  · split at hmatches
    next hall =>
      refine map_eq_of_all_zip ?_ hall.1
      rw [Vector.length_toList, Vector.length_toList]
    next => cases hmatches
  · cases hmatches

theorem headerFits_of_acceptedOn {block parent : Block D} {now : Timestamp}
    (haccepted : block.acceptedOn parent now network = some true) :
    block.HeaderFits parent now network := by
  rw [Block.acceptedOn, bind_eq_some] at haccepted
  obtain ⟨valid, hvalid, haccepted⟩ := haccepted
  cases valid with
  | false => cases haccepted
  | true =>
    refine Block.headerFits_of_validate ?_
    rw [Block.isValid, map_eq_some_iff] at hvalid
    obtain ⟨outcome, houtcome, hok⟩ := hvalid
    cases outcome with
    | error e => cases hok
    | ok u => exact houtcome

theorem next_of_pairIsValid {now : Timestamp} {mmraAnchor : MmrAccumulator D}
    {x : (TransferBlock D × TransferBlock D) × MmrMembershipProof D}
    (hx : pairIsValid now network mmraAnchor x = some true) :
    x.1.1.header.height.next = x.1.2.header.height := by
  rw [pairIsValid] at hx
  split at hx
  · cases hx
  next child hchild =>
    split at hx
    · split at hx
      · cases hx
      next parent hparent =>
        rw [← header_of_toBlock hchild, ← header_of_toBlock hparent]
        exact (headerFits_of_acceptedOn hx).height_eq
    · cases hx

/-- Each child is one higher than its parent, and the tip than its parent. -/
theorem next_of_isValid {now : Timestamp} (hvalid : r.isValid now network = some true) :
    (∀ x ∈ r.blocks.toList, x.1.header.height.next = x.2.header.height) ∧
      r.tip.header.height.value.val = r.tipParent.header.height.value.val + 1 := by
  rw [isValid] at hvalid
  split at hvalid
  next tipPredecessor tip hparent htip =>
    rw [bind_eq_some] at hvalid
    obtain ⟨accepted, haccepted, hvalid⟩ := hvalid
    cases accepted with
    | false => cases hvalid
    | true =>
      simp only [if_true, bind_eq_some] at hvalid
      obtain ⟨⟨mmraAnchor, path⟩, -, hvalid⟩ := hvalid
      rw [allM_eq_some_true_iff] at hvalid
      constructor
      · intro x hx
        have hzip : (r.blocks.toList.zip r.membershipProofs.toList).map Prod.fst =
            r.blocks.toList := List.map_fst_zip (by simp)
        rw [← hzip] at hx
        obtain ⟨y, hy, rfl⟩ := List.mem_map.mp hx
        exact next_of_pairIsValid (hvalid y hy)
      · have hnext := (headerFits_of_acceptedOn haccepted).height_eq
        rw [header_of_toBlock hparent, header_of_toBlock htip] at hnext
        rw [← hnext]
        refine r.tipParent.header.height.val_next_eq_or.resolve_right fun hzero => ?_
        refine height_ne_of_toBlock htip (BlockHeight.ext (Fin.ext ?_))
        rw [← hnext, hzero]
        rfl
  next => cases hvalid

section
variable {σ : Type} [Rng σ] {fuel : ℕ} {blockNotification : PeerBlockNotification D}
  {ownTipHeight' : BlockHeight} {randomness : Vector (Fin 256) 32} {c : SyncChallenge D}
  {issuedAt now : Timestamp} {accumulatedPow : ProofOfWork}
  (hc : SyncChallenge.generate σ fuel blockNotification ownTipHeight' randomness = some c)
  (hmatches : r.matchesChallenge network ⟨c, issuedAt, accumulatedPow⟩ = some true)
  (hvalid : r.isValid now network = some true)
include hc hmatches hvalid

theorem pairwise_parents :
    r.blocks.toList.Pairwise fun x y => x.1.header.height ≤ y.1.header.height := by
  have hheights := heights_of_matchesChallenge hmatches
  have hsorted := (generate_spec hc).2.2.1
  have hparent : ∀ x ∈ r.blocks.toList,
      x.2.header.height.value.val = x.1.header.height.value.val + 1 := by
    intro x hx
    have hlow : 2 ≤ x.2.header.height.value.val := by
      refine two_le_of_generate hc ?_
      rw [← hheights]
      exact List.mem_map_of_mem hx
    rw [← (next_of_isValid hvalid).1 x hx] at hlow ⊢
    exact x.1.header.height.val_next_eq_or.resolve_right (by omega)
  rw [← hheights, List.pairwise_map] at hsorted
  refine hsorted.imp_of_mem fun {x y} hx hy hle => ?_
  have hle' : x.2.header.height.value.val ≤ y.2.header.height.value.val := hle
  rw [hparent x hx, hparent y hy] at hle'
  exact le_of_succ_le_succ hle'

/-- **When the last check does not panic.**  For a response that matches a generated challenge and
is valid: the tip may not be too low, the work may not fall from the first parent to the tip, and
in a build with debug assertions it must grow. -/
theorem check_pow_returns_iff : (r.checkPow debugAssertions network ownTipHeight).isSome ↔
      (∀ x ∈ r.blocks.toList, x.1.header.height ≤ r.tipParent.header.height) ∧
        (r.blocks.get ⟨0, by decide⟩).1.header.cumulativeProofOfWork ≤
          r.tip.header.cumulativeProofOfWork ∧
        (debugAssertions = true → (r.blocks.get ⟨0, by decide⟩).1.header.cumulativeProofOfWork ≠
          r.tip.header.cumulativeProofOfWork) := by
  have htip := (next_of_isValid hvalid).2
  rw [checkPow_isSome_iff, isChain_parentTriples_iff (pairwise_parents hc hmatches hvalid),
    ProofOfWork.le_iff, ← ProofOfWork.toBigUint_injective.ne_iff, totalPowIncrease]
  refine and_congr_right fun hlow => ?_
  have hspan : (r.blocks.get ⟨0, by decide⟩).1.header.height.value.val <
      r.tip.header.height.value.val := by
    rw [htip]
    exact lt_succ_of_le (hlow _ (by simp [Vector.get]))
  have hlast := r.tip.header.cumulativeProofOfWork.toBigUint_lt
  constructor
  · intro h
    obtain ⟨increase, hincrease, hassert⟩ := h
    rw [ite_none_right_eq_some, some_inj] at hincrease
    obtain ⟨hle, rfl⟩ := hincrease
    refine ⟨hle, fun hdebug => ?_⟩
    have hne := (zero_lt_averageDifficulty_iff (by omega) hspan).mp (hassert hdebug)
    omega
  · intro h
    obtain ⟨hle, hassert⟩ := h
    refine ⟨_, if_pos hle, fun hdebug => ?_⟩
    have hne := hassert hdebug
    exact (zero_lt_averageDifficulty_iff (by omega) hspan).mpr (by omega)

end

end SyncChallengeResponse

open SyncChallengeResponse

/-! ## A peer that is prepared for every challenge -/

structure Lcg where
  state : ℕ

instance : Rng Lcg where
  fromSeed seed := ⟨(seed.toList.map (·.val)).sum⟩
  nextU64 rng :=
    let next := (rng.state * 6364136223846793005 + 1442695040888963407) % 2 ^ 64
    (Fin.ofNat _ next, ⟨next⟩)
  randomRange rng start stop :=
    let next := (rng.state * 6364136223846793005 + 1442695040888963407) % 2 ^ 64
    (start + next / 2 ^ 32 % (stop - start), ⟨next⟩)

instance : LawfulRng Lcg where
  le_randomRange _ _ _ _ := Nat.le_add_right _ _
  randomRange_lt rng start stop h := by
    have hmod := Nat.mod_lt ((rng.state * 6364136223846793005 + 1442695040888963407) % 2 ^ 64 /
      2 ^ 32) (Nat.sub_pos_of_lt h)
    exact (Nat.add_lt_add_left hmod start).trans_eq (Nat.add_sub_of_le h.le)

namespace Ambush

def early : Timestamp := Network.testnetMock.launchDate

def late : Timestamp := early + ⟨Network.testnetMock.targetBlockInterval.value * 2⟩

abbrev difficulty : Difficulty := Network.testnetMock.genesisDifficulty

def base (height : ℕ) (work : ProofOfWork) (prevBlockDigest : SymbolicDigest) :
    Block SymbolicDigest where
  kernel :=
    { header :=
        { BlockHeader.genesis .testnetMock with
          height := ⟨.new height⟩
          cumulativeProofOfWork := work
          prevBlockDigest := prevBlockDigest }
      body := ⟨Block.emptyTransaction early .zero, .empty, .empty, .empty⟩
      appendix := ⟨[]⟩ }
  proof := .invalid

def parent (B : Block SymbolicDigest) (ds : List SymbolicDigest) : Block SymbolicDigest :=
  B.emptySuccessor .empty (.ofLeafs ds) early difficulty

def child (B : Block SymbolicDigest) (ds : List SymbolicDigest) : Block SymbolicDigest :=
  (parent B ds).emptySuccessor ((parent B ds).mutatorSetAccumulatorAfter.unwrap.getD .empty)
    (.ofLeafs (ds ++ [(parent B ds).hash])) late difficulty

def chain : ℕ → Block SymbolicDigest
  | 0 => base 2 .zero .zero
  | k + 1 => base (k + 3) .zero (chain k).hash

def witness (B : Block SymbolicDigest) : BlockHeaderWithBlockHashWitness SymbolicDigest :=
  ⟨B.header, .ofBlock B⟩

def heavy : ProofOfWork := ⟨⟨[0, 1, 0, 0, 0, 0], rfl, by decide⟩⟩

def leafs (work : ProofOfWork) : List SymbolicDigest :=
  (List.range 12).map fun k => (child (base ((k - 2) % 10) work .zero) []).hash

def witnesses (work : ProofOfWork) :
    Vector (BlockHeaderWithBlockHashWitness SymbolicDigest) syncChallengePowWitnessLength :=
  ⟨([child (chain 8) (leafs work), parent (chain 8) (leafs work), chain 8, chain 7, chain 6,
    chain 5, chain 4, chain 3, chain 2, chain 1].map witness).toArray, rfl⟩

def transfer (B : Block SymbolicDigest) : TransferBlock SymbolicDigest :=
  ⟨B.kernel.header, B.kernel.body, B.kernel.appendix, ⟨[]⟩⟩

def tipParent (work : ProofOfWork) : Block SymbolicDigest := parent (chain 8) (leafs work)

def tip (work : ProofOfWork) : Block SymbolicDigest := child (chain 8) (leafs work)

def pairAt (work : ProofOfWork) (h : BlockHeight) :
    TransferBlock SymbolicDigest × TransferBlock SymbolicDigest :=
  let B := base ((h.value.val - 2) % 10) work .zero
  (transfer (parent B []), transfer (child B []))

def proofAt (work : ProofOfWork) (h : BlockHeight) : MmrMembershipProof SymbolicDigest :=
  membershipProof (leafs work ++ [(tipParent work).hash, (tip work).hash]) h.value.val

/-- The tip commits to a child at each height below twelve.  So the response to every challenge
can be put together, with any work of the parents. -/
theorem exists_response (work : ProofOfWork) (hwork : work ∈ [.zero, heavy]) :
    let _ := MmrIndexing.reference
    ∃ tip : Block SymbolicDigest,
      tip.header.cumulativeProofOfWork = (ProofOfWork.zero.add difficulty).add difficulty ∧
      ∀ c : SyncChallenge SymbolicDigest, c.tipDigest = tip.hash →
        (∀ h ∈ c.challenges.toList, 2 ≤ h.value.val ∧ h.value.val < 12) →
        ∃ r : SyncChallengeResponse SymbolicDigest, (∀ issuedAt, r.matchesChallenge .testnetMock
            ⟨c, issuedAt, tip.header.cumulativeProofOfWork⟩ = some true) ∧
          r.isValid late .testnetMock = some true ∧
          r.tip.header.cumulativeProofOfWork = tip.header.cumulativeProofOfWork ∧
          ∀ x ∈ r.blocks.toList, x.1.header.height ≤ r.tipParent.header.height ∧
            x.1.header.cumulativeProofOfWork = work.add difficulty := by
  let _ := MmrIndexing.reference
  have hrun : ∀ work ∈ [.zero, heavy],
      (tip work).header.height ≠ .genesis ∧ (tipParent work).header.height ≠ .genesis ∧
      (tip work).hasProofOfWork .testnetMock (tipParent work).header = some true ∧
      powWitnessesFormChainFromTip (tip work).hash (witnesses work) = true ∧
      (tip work).acceptedOn (tipParent work) late .testnetMock = some true ∧
      ∃ anchor path, MmrOps.append (tip work).body.blockMmrAccumulator (tip work).hash =
        some (anchor, path) ∧ ∀ k < 12, 2 ≤ k → (pairAt work ⟨.new k⟩).2.header.height = ⟨.new k⟩ ∧
          pairIsValid late .testnetMock anchor (pairAt work ⟨.new k⟩, proofAt work ⟨.new k⟩) =
            some true ∧
          (pairAt work ⟨.new k⟩).1.header.height ≤ (tipParent work).header.height := by
    decide +kernel
  obtain ⟨hheight, hheight', hpow, hwitnesses, haccepted, anchor, path, happend, hpairs⟩ :=
    hrun work hwork
  have htip : (transfer (tip work)).toBlock = .ok (tip work) := if_neg hheight
  have hparent : (transfer (tipParent work)).toBlock = .ok (tipParent work) := if_neg hheight'
  refine ⟨tip work, rfl, fun ch hdigest hrange => ?_⟩
  have hpair := fun h hh => hpairs h.value.val (hrange h hh).2 (hrange h hh).1
  have hnew : ∀ h : BlockHeight, (⟨.new h.value.val⟩ : BlockHeight) = h := fun h =>
    BlockHeight.ext (Fin.ext (mod_eq_of_lt h.value.isLt))
  simp only [hnew] at hpair
  refine ⟨⟨ch.challenges.map (pairAt work), ch.challenges.map (proofAt work),
    transfer (tipParent work), transfer (tip work), witnesses work⟩, fun _ => ?_, ?_, rfl, ?_⟩
  · have hall : ((ch.challenges.map (pairAt work)).toList.zip ch.challenges.toList).all
        (fun x => x.1.2.header.height = x.2) = true := by
      rw [Vector.toList_map]
      nth_rewrite 2 [← List.map_id ch.challenges.toList]
      rw [List.zip_map', List.all_map, List.all_eq_true]
      exact fun h hh => decide_eq_true (hpair h hh).1
    simp only [matchesChallenge, htip, hparent]
    rw [if_pos ⟨hall, hdigest, trivial⟩, hpow, map_some, hwitnesses]
    rfl
  · simp only [isValid, htip, hparent, haccepted, happend, some_bind, if_true]
    rw [allM_eq_some_true_iff, Vector.toList_map, Vector.toList_map, List.zip_map',
      List.forall_mem_map]
    exact fun h hh => (hpair h hh).2.1
  · intro x hx
    rw [Vector.toList_map] at hx
    obtain ⟨h, hh, rfl⟩ := List.mem_map.mp hx
    exact ⟨(hpair h hh).2.2, rfl⟩

def notification (tip : Block SymbolicDigest) : PeerBlockNotification SymbolicDigest :=
  ⟨tip.hash, ⟨12⟩, tip.header.cumulativeProofOfWork⟩

theorem exists_generate (tip : Block SymbolicDigest) :
    ∃ c, generate Lcg 1000 (notification tip) .genesis (.replicate _ 7) = some c := by
  have hsome : (generate Lcg 1000 (notification (base 12 .zero .zero)) .genesis
      (.replicate _ 7)).isSome = true := by decide +kernel
  rw [generate_of_height_eq (notification tip) (notification (base 12 .zero .zero)) rfl]
  exact isSome_iff_exists.mp (by rwa [isSome_map])

end Ambush

open Ambush

theorem check_pow_returns_prepared :
    ∃ (_ : MmrIndexing) (blockNotification : PeerBlockNotification SymbolicDigest)
      (c : SyncChallenge SymbolicDigest) (r : SyncChallengeResponse SymbolicDigest),
      SyncChallenge.generate Lcg 1000 blockNotification .genesis (.replicate _ 7) = some c ∧
      r.matchesChallenge .testnetMock ⟨c, Ambush.late, blockNotification.cumulativeProofOfWork⟩ =
        some true ∧ r.isValid Ambush.late .testnetMock = some true ∧
      (r.checkPow true .testnetMock .genesis).isSome := by
  let _ := MmrIndexing.reference
  obtain ⟨tip, hwork, hresponse⟩ := exists_response .zero (by simp)
  obtain ⟨c, hc⟩ := exists_generate tip
  obtain ⟨r, hmatches, hvalid, htip, hblocks⟩ := hresponse c (generate_spec hc).2.1
    fun h hh => ⟨two_le_of_generate hc hh, lt_of_generate hc hh⟩
  refine ⟨_, Ambush.notification tip, c, r, hc, hmatches _, hvalid, ?_⟩
  have hfirst := hblocks (r.blocks.get ⟨0, by decide⟩) (by simp [Vector.get])
  refine (check_pow_returns_iff hc (hmatches Ambush.late) hvalid).mpr
    ⟨fun x hx => (hblocks x hx).1, ?_⟩
  rw [hfirst.2, htip, hwork]
  decide +kernel

/-- **A panic for every challenge.**  The peer gives all parents more work than its tip.  Whatever
the random numbers are, its response matches the challenge and is valid, and the last check
panics. -/
theorem check_pow_panics_ambush :
    ∃ (_ : MmrIndexing) (blockNotification : PeerBlockNotification SymbolicDigest),
      (∃ c, SyncChallenge.generate Lcg 1000 blockNotification .genesis (.replicate _ 7) = some c) ∧
      ∀ (σ : Type) (_ : Rng σ) (_ : LawfulRng σ) (fuel : ℕ) (randomness : Vector (Fin 256) 32)
        (c : SyncChallenge SymbolicDigest),
        SyncChallenge.generate σ fuel blockNotification .genesis randomness = some c →
        ∃ r : SyncChallengeResponse SymbolicDigest, (∀ issuedAt, r.matchesChallenge .testnetMock
            ⟨c, issuedAt, blockNotification.cumulativeProofOfWork⟩ = some true) ∧
          r.isValid Ambush.late .testnetMock = some true ∧ ∀ debugAssertions ownTipHeight,
            r.checkPow debugAssertions .testnetMock ownTipHeight = none := by
  let _ := MmrIndexing.reference
  obtain ⟨tip, hwork, hresponse⟩ := exists_response heavy (by simp)
  refine ⟨.reference, notification tip, exists_generate tip, ?_⟩
  intro σ _ _ fuel randomness c hc
  obtain ⟨r, hmatches, hvalid, htip, hblocks⟩ := hresponse c (generate_spec hc).2.1
    fun h hh => ⟨two_le_of_generate hc hh, lt_of_generate hc hh⟩
  refine ⟨r, hmatches, hvalid, fun debugAssertions ownTipHeight => ?_⟩
  have hfirst := hblocks (r.blocks.get ⟨0, by decide⟩) (by simp [Vector.get])
  have hfalls : ¬ heavy.add Ambush.difficulty ≤
      (ProofOfWork.zero.add difficulty).add difficulty := by decide +kernel
  rw [← isNone_iff_eq_none, ← not_isSome, Bool.not_eq_true', ← Bool.not_eq_true,
    checkPow_isSome_iff]
  intro h
  obtain ⟨-, increase, hincrease, -⟩ := h
  rw [totalPowIncrease, ite_none_right_eq_some,
    ← ProofOfWork.le_iff, hfirst.2, htip, hwork] at hincrease
  exact hfalls hincrease.1

/-! ## Responses about valid chains -/

/-- **An accepted response shows ancestors.**  If its tip is on a valid chain, then every child in
it is, at its own height and by its digest, and the parent is the block that the child names. -/
theorem SyncChallengeResponse.isValid_shows_ancestors [Tip5 D] [ConsensusOps D] [DecidableEq D]
    [DigestOps D] [MmrOps D] [MmrIndexing] [Inhabited D] [LawfulMmr D] [Tip5.CollisionFree D]
    {r : SyncChallengeResponse D} {network : Network} {now : Timestamp} {tip : Block D}
    {chain : List (Block D)} {i : ℕ} (hvalid : r.isValid now network = some true)
    (htip : r.tip.toBlock = .ok tip) (hchain : Block.ValidChain network chain)
    (hi : chain[i]? = some tip) : ∀ x ∈ r.blocks.toList, ∃ P C B : Block D,
      x.1.toBlock = .ok P ∧ x.2.toBlock = .ok C ∧ C.header.prevBlockDigest = P.hash ∧
      chain[C.header.height.value.val]? = some B ∧ B.hash = C.hash := by
  have hplaced := hchain.placed hi
  have hends : (chain.take (i + 1)).map (·.hash) = (chain.take i).map (·.hash) ++ [tip.hash] := by
    rw [List.take_add_one, hi, List.map_append]
    rfl
  have hbound : ((chain.take i).map (·.hash)).length + 1 < u64Bound := by
    have hmodulus : BFieldElement.modulus < u64Bound := by decide
    have hlength := hplaced.length_le
    have hlt := hplaced.timestamp_lt
    have hpos := network.minimumBlockTime_pos
    rw [List.length_map]
    omega
  rw [isValid, htip] at hvalid
  split at hvalid
  next _ _ _ heq =>
    cases heq
    rw [bind_eq_some] at hvalid
    obtain ⟨accepted, -, hvalid⟩ := hvalid
    cases accepted with
    | false => cases hvalid
    | true =>
      rw [hplaced.blockMmr_eq, LawfulMmr.append_ofLeafs _ _ hbound, ← hends] at hvalid
      simp only [if_true, some_bind] at hvalid
      rw [allM_eq_some_true_iff] at hvalid
      intro x hx
      have hzip : (r.blocks.toList.zip r.membershipProofs.toList).map Prod.fst =
          r.blocks.toList := List.map_fst_zip (by simp)
      rw [← hzip] at hx
      obtain ⟨y, hy, rfl⟩ := List.mem_map.mp hx
      have hpair := hvalid y hy
      rw [pairIsValid] at hpair
      split at hpair
      · cases hpair
      next C hC =>
        split at hpair
        next hverify =>
          split at hpair
          · cases hpair
          next P hP =>
            have hdigest := (verify_ofLeafs_iff.mp hverify).1
            rw [List.getElem?_map, map_eq_some_iff] at hdigest
            obtain ⟨B, hB, hhash⟩ := hdigest
            rw [List.getElem?_take, ite_none_right_eq_some] at hB
            exact ⟨P, C, B, hP, hC, (headerFits_of_acceptedOn hpair).prevBlockDigest_eq.symm, hB.2,
              hhash⟩
        · cases hpair
  next => cases hvalid

/-- A response with one pair ten times. -/
def repeated : SyncChallengeResponse SymbolicDigest :=
  let pair := (transfer Block.Mock.first, transfer Block.Mock.second)
  let digests := [Block.Mock.genesis, Block.Mock.first, Block.Mock.second].map (·.hash)
  ⟨.replicate _ pair, .replicate _ (membershipProof digests 2), pair.1, pair.2,
    .replicate _ (witness Block.Mock.second)⟩

theorem isValid_shows_ancestors_repeated : ∃ (_ : MmrIndexing) (now : Timestamp)
      (chain : List (Block SymbolicDigest)), Block.ValidChain .testnetMock chain ∧
      repeated.isValid now .testnetMock = some true ∧
      ∀ x ∈ repeated.blocks.toList, ∃ P C B : Block SymbolicDigest,
        x.1.toBlock = .ok P ∧ x.2.toBlock = .ok C ∧ C.header.prevBlockDigest = P.hash ∧
        chain[C.header.height.value.val]? = some B ∧ B.hash = C.hash := by
  let _ := MmrIndexing.reference
  have hvalid : repeated.isValid Block.Mock.second.header.timestamp .testnetMock = some true := by
    decide +kernel
  have hchain := Block.validChain_mock Nat.two_pos
  exact ⟨_, _, _, hchain, hvalid, isValid_shows_ancestors (i := 2) hvalid rfl hchain rfl⟩

end NyksNode
