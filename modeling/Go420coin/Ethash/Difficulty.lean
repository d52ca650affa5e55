import Go420coin.Core.Types

/-!
# Difficulty adjustment (`consensus/ethash/consensus.go`, `difficulty.go`)

The chain's difficulty calculators exist twice: over `big.Int` (`calcDifficultyFrontier`,
`calcDifficultyHomestead`, `makeDifficultyCalculator`) and over 256-bit words (the `U256`
variants).  A `big.Int` is an `Int` here and Go's `Div` is Euclidean, as `Int`'s `/` is; a
`uint256.Int` is a `BitVec 256`, whose sums, differences, products and left shifts wrap; the
`uint64` times and block numbers are `UInt64`s.  `SetFromBig` keeps the low 256 bits of the
(non-negative) difficulty and `Uint64` the low 64 bits of a block number.

Both families are written once with the constants they compare against as parameters: the rules
over `big.Int` (`frontierRule`, `homesteadRule`, `byzantiumRule`), which the `big.Int` calculators
apply to the constants of `params`, and over words (`frontierU256`, `homesteadU256`,
`byzantiumU256`), which the `U256` calculators apply to the constants of `difficulty.go`.  Those are
not the same: the minimum difficulty is `131072` against `params.MinimumDifficulty = 130130`, and
the Frontier duration limit `13` against `params.DurationLimit = 8`, so the two families differ
(`difficultyU256_ne_big`).  Given the same constants, a word calculator computes the `big.Int` rule
wherever nothing wraps; so each `U256` calculator is the `big.Int` rule on its own constants
(`frontierU256_refines`, `homesteadU256_refines`, `byzantiumU256_refines`).
-/

namespace Go420coin

namespace Params

/-- `params.DifficultyBoundDivisor`. -/
def difficultyBoundDivisor : Nat := 2048

/-- `params.MinimumDifficulty`. -/
def minimumDifficulty : Nat := 130130

/-- `params.DurationLimit`. -/
def durationLimit : Nat := 8

end Params

namespace Ethash

/-! ### The `big.Int` calculators -/

/-- `expDiffPeriod`. -/
def expDiffPeriod : Nat := 100000

/-- The Frontier rule as `calcDifficultyFrontier` computes it, given its duration limit and its
minimum difficulty. -/
def frontierRule (durationLimit minimum : Nat) (time : UInt64) (parent : Header) : Int :=
  let adjust : Int := (parent.difficulty : Int) / (Params.difficultyBoundDivisor : Int)
  let diff : Int :=
    if (time.toNat : Int) - parent.time.toNat < durationLimit then parent.difficulty + adjust
    else parent.difficulty - adjust
  let diff := if diff < minimum then (minimum : Int) else diff
  let periodCount : Int := ((parent.number : Int) + 1) / expDiffPeriod
  if 1 < periodCount then max (diff + 2 ^ (periodCount - 2).toNat) minimum else diff

/-- The Homestead rule as `calcDifficultyHomestead` computes it, given its minimum difficulty. -/
def homesteadRule (minimum : Nat) (time : UInt64) (parent : Header) : Int :=
  let x : Int := 1 - ((time.toNat : Int) - parent.time.toNat) / 10
  let x := if x < -99 then -99 else x
  let x := parent.difficulty + (parent.difficulty : Int) / (Params.difficultyBoundDivisor : Int) * x
  let x := if x < minimum then (minimum : Int) else x
  let periodCount : Int := ((parent.number : Int) + 1) / expDiffPeriod
  if 1 < periodCount then x + 2 ^ (periodCount - 2).toNat else x

/-- The Byzantium rule with the bomb delayed by `bombDelay` blocks, as the function
`makeDifficultyCalculator` returns computes it, given its minimum difficulty. -/
def byzantiumRule (minimum : Nat) (bombDelay : Int) (time : UInt64) (parent : Header) : Int :=
  let bombDelayFromParent := bombDelay - 1
  let x : Int := ((time.toNat : Int) - parent.time.toNat) / 9
  let x := if parent.uncleHash = emptyUncleHash then 1 - x else 2 - x
  let x := if x < -99 then -99 else x
  let x := parent.difficulty + (parent.difficulty : Int) / (Params.difficultyBoundDivisor : Int) * x
  let x := if x < minimum then (minimum : Int) else x
  let fakeBlockNumber : Int :=
    if bombDelayFromParent ≤ parent.number then parent.number - bombDelayFromParent else 0
  let periodCount := fakeBlockNumber / expDiffPeriod
  if 1 < periodCount then x + 2 ^ (periodCount - 2).toNat else x

/-- `calcDifficultyFrontier`. -/
def calcDifficultyFrontier (time : UInt64) (parent : Header) : Int :=
  frontierRule Params.durationLimit Params.minimumDifficulty time parent

/-- `calcDifficultyHomestead`. -/
def calcDifficultyHomestead (time : UInt64) (parent : Header) : Int :=
  homesteadRule Params.minimumDifficulty time parent

/-- `makeDifficultyCalculator`. -/
def makeDifficultyCalculator (bombDelay : Int) (time : UInt64) (parent : Header) : Int :=
  byzantiumRule Params.minimumDifficulty bombDelay time parent

/-! ### The 256-bit calculators -/

/-- `frontierDurationLimit`. -/
def frontierDurationLimit : Nat := 13

/-- `minimumDifficulty`. -/
def minimumDifficulty : Nat := 131072

/-- `expDiffPeriodUint`. -/
def expDiffPeriodUint : UInt64 := 100000

/-- `difficultyBoundDivisor`: the right shift that divides by 2048. -/
def difficultyBoundDivisor : Nat := 11

/-- The Frontier rule as `CalcDifficultyFrontierU256` computes it, given its duration limit and its
minimum difficulty. -/
def frontierU256 (durationLimit minimum : Nat) (time : UInt64) (parent : Header) : Nat :=
  let pDiff : BitVec 256 := .ofNat 256 parent.difficulty
  let adjust := pDiff >>> difficultyBoundDivisor
  let pDiff := if (time - parent.time).toNat < durationLimit then pDiff + adjust else pDiff - adjust
  let pDiff := if pDiff.toNat < minimum then .ofNat 256 minimum else pDiff
  let periodCount := (UInt64.ofNat parent.number + 1) / expDiffPeriodUint
  let pDiff := if 1 < periodCount then pDiff + 1#256 <<< (periodCount - 2).toNat else pDiff
  pDiff.toNat

/-- The Homestead rule as `CalcDifficultyHomesteadU256` computes it, given its minimum difficulty. -/
def homesteadU256 (minimum : Nat) (time : UInt64) (parent : Header) : Nat :=
  let pDiff : BitVec 256 := .ofNat 256 parent.difficulty
  let adjust := pDiff >>> difficultyBoundDivisor
  let x := (time - parent.time) / 10
  -- the factor and whether it is subtracted (`neg`)
  let (x, neg) : UInt64 × Bool := if x = 0 then (1, false) else if 100 ≤ x then (99, true) else (x - 1, true)
  let adjust := adjust * .ofNat 256 x.toNat
  let pDiff := if neg then pDiff - adjust else pDiff + adjust
  let pDiff := if pDiff.toNat < minimum then .ofNat 256 minimum else pDiff
  let periodCount := (1 + UInt64.ofNat parent.number) / expDiffPeriodUint
  let pDiff := if 1 < periodCount then pDiff + 1#256 <<< (periodCount - 2).toNat else pDiff
  pDiff.toNat

/-- The Byzantium rule as the function `MakeDifficultyCalculatorU256` returns computes it, given its
minimum difficulty.  `bombDelay.Uint64()` is the low 64 bits of the delay's magnitude. -/
def byzantiumU256 (minimum : Nat) (bombDelay : Int) (time : UInt64) (parent : Header) : Nat :=
  let bombDelayFromParent := UInt64.ofNat bombDelay.natAbs - 1
  let x := (time - parent.time) / 9
  let c : UInt64 := if parent.uncleHash ≠ emptyUncleHash then 2 else 1
  let xNeg := c ≤ x
  let x := if xNeg then x - c else c - x
  let x := if 99 < x then 99 else x
  let y : BitVec 256 := .ofNat 256 parent.difficulty
  let pDiff := y
  let z := (y >>> difficultyBoundDivisor) * .ofNat 256 x.toNat
  let y := if xNeg then pDiff - z else pDiff + z
  let y := if y.toNat < minimum then .ofNat 256 minimum else y
  let pNum := UInt64.ofNat parent.number
  let y :=
    if bombDelayFromParent ≤ pNum then
      if 2 * expDiffPeriodUint ≤ pNum - bombDelayFromParent then
        1#256 <<< ((pNum - bombDelayFromParent) / expDiffPeriodUint - 2).toNat + y
      else y
    else y
  y.toNat

/-- `CalcDifficultyFrontierU256`. -/
def calcDifficultyFrontierU256 (time : UInt64) (parent : Header) : Nat :=
  frontierU256 frontierDurationLimit minimumDifficulty time parent

/-- `CalcDifficultyHomesteadU256`. -/
def calcDifficultyHomesteadU256 (time : UInt64) (parent : Header) : Nat :=
  homesteadU256 minimumDifficulty time parent

/-- `MakeDifficultyCalculatorU256`. -/
def makeDifficultyCalculatorU256 (bombDelay : Int) (time : UInt64) (parent : Header) : Nat :=
  byzantiumU256 minimumDifficulty bombDelay time parent

/-! ### The word calculators compute the `big.Int` rules

Given the same constants, below `2 ^ 256`, the word calculators compute what the `big.Int` rules do
wherever nothing wraps: the difficulty fits in 256 bits, the block number after the parent's and the
bomb delay in 64, and the result is below `2 ^ 256`.  All three end alike (`clampBombWord`,
`clampBombInt`); each proof reduces its calculator to that end over the same adjusted difficulty. -/

section Refinement

/-- A parent of difficulty `2 ^ 40` at block 5000000, deep in the bomb era, at time 100. -/
def bombParent : Header :=
  ⟨emptyUncleHash, Vector.replicate 20 0, 2 ^ 40, 5000000, 100, [], Vector.replicate 8 0⟩

/-- The end the word calculators share: the adjusted difficulty `w` clamped at `minimum`, plus the
bomb `2 ^ k` when `bomb` holds. -/
def clampBombWord (minimum : Nat) (bomb : Bool) (k : Nat) (w : BitVec 256) : Nat :=
  let w := if w.toNat < minimum then .ofNat 256 minimum else w
  (if bomb then w + 1#256 <<< k else w).toNat

/-- The same end over `big.Int`. -/
def clampBombInt (minimum : Nat) (bomb : Bool) (k : Nat) (v : Int) : Int :=
  let v := if v < minimum then (minimum : Int) else v
  if bomb then v + 2 ^ k else v

theorem le_clampBombInt (minimum : Nat) (bomb : Bool) (k : Nat) (v : Int) :
    v ≤ clampBombInt minimum bomb k v := by
  have hk : (0 : Int) ≤ 2 ^ k := by positivity
  unfold clampBombInt
  dsimp only
  cases bomb <;> split_ifs <;> omega

theorem toNat_clamp {w : BitVec 256} {minimum : Nat} (hm : minimum < 2 ^ 256) :
    (if w.toNat < minimum then BitVec.ofNat 256 minimum else w).toNat = max w.toNat minimum := by
  split_ifs with h
  · simp; omega
  · omega

/-- The shared end computes the same in words as over `big.Int` from the same adjusted difficulty,
when the result is below `2 ^ 256`. -/
theorem clampBombWord_eq {w : BitVec 256} {v : Int} (hw : (w.toNat : Int) = v) {minimum : Nat}
    (hm : minimum < 2 ^ 256) (bomb : Bool) (k : Nat) (hr : clampBombInt minimum bomb k v < 2 ^ 256) :
    (clampBombWord minimum bomb k w : Int) = clampBombInt minimum bomb k v := by
  subst hw
  have hc := toNat_clamp (w := w) hm
  unfold clampBombWord clampBombInt at *
  dsimp only at *
  cases bomb with
  | false =>
    simp only [Bool.false_eq_true, if_false] at hr ⊢
    rw [hc]
    split_ifs <;> omega
  | true =>
    simp only [if_true] at hr ⊢
    have hpow : ((2 ^ k : Nat) : Int) = 2 ^ k := by push_cast; rfl
    rw [← hpow] at hr ⊢
    have hk : 2 ^ k < 2 ^ 256 := by split_ifs at hr <;> omega
    have hs : (1#256 <<< k).toNat = 2 ^ k := by
      simpa [Nat.shiftLeft_eq] using hk
    have hsum : (if w.toNat < minimum then BitVec.ofNat 256 minimum else w).toNat + (1#256 <<< k).toNat < 2 ^ 256 := by
      rw [hc, hs]
      split_ifs at hr <;> omega
    rw [BitVec.toNat_add_of_lt hsum, hc, hs]
    split_ifs <;> omega

/-- A word calculator that ends as `clampBombWord` over `w` computes the `big.Int` one that ends as
`clampBombInt` over `v`, when `w` reads `v` wherever `v` is below `2 ^ 256`. -/
theorem refines_of_clampBomb {minimum : Nat} (hm : minimum < 2 ^ 256) {word : Nat} {big : Int} {bomb : Bool}
    {k : Nat} {w : BitVec 256} {v : Int} (hword : word = clampBombWord minimum bomb k w)
    (hbig : big = clampBombInt minimum bomb k v) (hr : big < 2 ^ 256)
    (hw : v < 2 ^ 256 → (w.toNat : Int) = v) : (word : Int) = big := by
  rw [hbig] at hr ⊢
  rw [hword]
  exact clampBombWord_eq (hw ((le_clampBombInt _ _ _ _).trans_lt hr)) hm _ _ hr

theorem toNat_difficulty {d : Nat} (hd : d < 2 ^ 256) : (BitVec.ofNat 256 d).toNat = d := by
  rw [BitVec.toNat_ofNat, Nat.mod_eq_of_lt hd]

theorem toNat_adjust {d : Nat} (hd : d < 2 ^ 256) :
    (BitVec.ofNat 256 d >>> difficultyBoundDivisor).toNat = d / Params.difficultyBoundDivisor := by
  rw [BitVec.toNat_ushiftRight, toNat_difficulty hd, Nat.shiftRight_eq_div_pow]
  rfl

/-- `(pDiff >> 11) * x` does not wrap for a factor of at most 99. -/
theorem toNat_adjust_mul {d x : Nat} (hd : d < 2 ^ 256) (hx : x ≤ 99) :
    ((BitVec.ofNat 256 d >>> difficultyBoundDivisor) * BitVec.ofNat 256 x).toNat =
      d / Params.difficultyBoundDivisor * x := by
  have hb : d / Params.difficultyBoundDivisor * x ≤ d :=
    calc d / Params.difficultyBoundDivisor * x ≤ d / Params.difficultyBoundDivisor * 99 := Nat.mul_le_mul_left _ hx
      _ ≤ d := by unfold Params.difficultyBoundDivisor; omega
  have hx' : (BitVec.ofNat 256 x).toNat = x := toNat_difficulty (by omega)
  rw [BitVec.toNat_mul_of_lt (by rw [toNat_adjust hd, hx']; omega), toNat_adjust hd, hx']

theorem toNat_periodCount {n : Nat} (hn : n + 1 < 2 ^ 64) :
    ((UInt64.ofNat n + 1) / expDiffPeriodUint).toNat = (n + 1) / expDiffPeriod := by
  rw [UInt64.toNat_div, UInt64.toNat_add, UInt64.toNat_ofNat', Nat.mod_eq_of_lt (by omega : n < 2 ^ 64)]
  simp only [UInt64.toNat_one]
  rw [Nat.mod_eq_of_lt hn]
  rfl

/-- The bomb's exponent `periodCount - 2` in `uint64`, once the period count is past 1. -/
theorem toNat_periodCount_sub_two {n : Nat} (hn : n + 1 < 2 ^ 64) (hb : 1 < (n + 1) / expDiffPeriod) :
    ((UInt64.ofNat n + 1) / expDiffPeriodUint - 2).toNat = (n + 1) / expDiffPeriod - 2 := by
  have hpc := toNat_periodCount hn
  rw [UInt64.toNat_sub_of_le _ _ (by rw [UInt64.le_iff_toNat_le, hpc]; simp; omega), hpc]
  rfl

/-- The bomb over `big.Int`, from its `int` period count. -/
theorem bombInt_eq (pc : Nat) (x : Int) :
    (if 1 < (pc : Int) then x + 2 ^ ((pc : Int) - 2).toNat else x) = if decide (1 < pc) then x + 2 ^ (pc - 2) else x := by
  by_cases hb : 1 < pc
  · have hk : ((pc : Int) - 2).toNat = pc - 2 := by omega
    rw [if_pos (by omega), if_pos (decide_eq_true hb), hk]
  · rw [if_neg (by omega), if_neg (by simpa using hb)]

/-- The Byzantium factor in `uint64`: its size `|c - q|` capped at 99. -/
theorem toNat_factor {u cu : UInt64} {q c : Nat} (hu : u.toNat = q) (hc : cu.toNat = c) (hc2 : c ≤ 2) :
    (if 99 < (if cu ≤ u then u - cu else cu - u) then 99 else if cu ≤ u then u - cu else cu - u).toNat =
      if c ≤ q then min (q - c) 99 else c - q := by
  by_cases h : cu ≤ u
  · have h' : c ≤ q := by rw [UInt64.le_iff_toNat_le] at h; omega
    have hs : (u - cu).toNat = q - c := by rw [UInt64.toNat_sub_of_le _ _ h]; omega
    simp only [h, if_true, h']
    split_ifs with h99
    · rw [UInt64.lt_iff_toNat_lt, hs] at h99
      simp only [UInt64.toNat_ofNat] at h99 ⊢
      omega
    · rw [UInt64.lt_iff_toNat_lt, hs] at h99
      simp only [UInt64.toNat_ofNat] at h99
      omega
  · have h' : ¬ c ≤ q := by rw [UInt64.le_iff_toNat_le] at h; omega
    have hs : (cu - u).toNat = c - q := by
      rw [UInt64.toNat_sub_of_le _ _ (UInt64.le_of_lt (UInt64.lt_iff_toNat_lt.2 (by omega)))]; omega
    simp only [h, if_false, h']
    split_ifs with h99
    · rw [UInt64.lt_iff_toNat_lt, hs] at h99
      simp only [UInt64.toNat_ofNat] at h99
      omega
    · exact hs

/-- The Frontier rule in words is the one over `big.Int` on the same constants, whenever the difficulty
fits in 256 bits, the block number after the parent's in 64, and the result is below `2 ^ 256`. -/
theorem frontierU256_eq_rule {durationLimit minimum : Nat} (hm : minimum < 2 ^ 256) (time : UInt64) (parent : Header)
    (hd : parent.difficulty < 2 ^ 256) (ht : parent.time < time) (hn : parent.number + 1 < 2 ^ 64)
    (hr : frontierRule durationLimit minimum time parent < 2 ^ 256) :
    (frontierU256 durationLimit minimum time parent : Int) = frontierRule durationLimit minimum time parent := by
  have htime : (time - parent.time).toNat = time.toNat - parent.time.toNat :=
    UInt64.toNat_sub_of_le _ _ (UInt64.le_of_lt ht)
  have hlt : parent.time.toNat < time.toNat := ht
  set pc := (parent.number + 1) / expDiffPeriod with hpc_def
  have hpc := toNat_periodCount hn
  have hbig : frontierRule durationLimit minimum time parent = clampBombInt minimum (decide (1 < pc)) (pc - 2)
      (if time.toNat - parent.time.toNat < durationLimit then (parent.difficulty : Int) + (parent.difficulty / Params.difficultyBoundDivisor : Nat)
        else (parent.difficulty : Int) - (parent.difficulty / Params.difficultyBoundDivisor : Nat)) := by
    have hpcI : ((parent.number : Int) + 1) / (expDiffPeriod : Int) = (pc : Int) := by
      rw [hpc_def]; push_cast; rfl
    have htI : (time.toNat : Int) - parent.time.toNat < durationLimit ↔
        time.toNat - parent.time.toNat < durationLimit := by omega
    have hadjI : (parent.difficulty : Int) / (Params.difficultyBoundDivisor : Int) = ((parent.difficulty / Params.difficultyBoundDivisor : Nat) : Int) := by
      push_cast; rfl
    have hpow : (0 : Int) ≤ 2 ^ (pc - 2) := by positivity
    unfold frontierRule clampBombInt
    simp only [hpcI, htI, hadjI]
    by_cases hb : 1 < pc
    · have hk : ((pc : Int) - 2).toNat = pc - 2 := by omega
      have hbI : (1 : Int) < pc := by omega
      simp only [hb, hbI, hk, decide_true, if_true]
      rw [max_eq_left (by split_ifs <;> omega)]
    · simp [hb]
  have hword : frontierU256 durationLimit minimum time parent =
      clampBombWord minimum (decide (1 < pc)) (pc - 2)
        (if time.toNat - parent.time.toNat < durationLimit then
          BitVec.ofNat 256 parent.difficulty + BitVec.ofNat 256 parent.difficulty >>> difficultyBoundDivisor
        else BitVec.ofNat 256 parent.difficulty - BitVec.ofNat 256 parent.difficulty >>> difficultyBoundDivisor) := by
    have hX : 1 < (UInt64.ofNat parent.number + 1) / expDiffPeriodUint ↔ 1 < pc := by
      rw [UInt64.lt_iff_toNat_lt, hpc]; rfl
    unfold frontierU256 clampBombWord
    simp only [htime, hX]
    by_cases hb : 1 < pc
    · have hk : ((UInt64.ofNat parent.number + 1) / expDiffPeriodUint - 2).toNat = pc - 2 :=
        toNat_periodCount_sub_two hn hb
      simp [hb, hk]
    · simp [hb]
  refine refines_of_clampBomb hm hword hbig hr (fun hv => ?_)
  have hadj := toNat_adjust hd
  split_ifs with h
  · rw [if_pos h] at hv
    rw [BitVec.toNat_add_of_lt (by rw [toNat_difficulty hd, hadj]; omega), toNat_difficulty hd, hadj]
    push_cast
    rfl
  · rw [BitVec.toNat_sub_of_le (by rw [BitVec.le_def, toNat_difficulty hd, hadj]; exact Nat.div_le_self _ _),
      toNat_difficulty hd, hadj]
    push_cast [Nat.div_le_self]
    rfl

/-- `CalcDifficultyFrontierU256` computes the Frontier rule on its own constants, the duration limit
`13` and the minimum difficulty `131072`, under the same bounds. -/
theorem frontierU256_refines (time : UInt64) (parent : Header) (hd : parent.difficulty < 2 ^ 256)
    (ht : parent.time < time) (hn : parent.number + 1 < 2 ^ 64)
    (hr : frontierRule frontierDurationLimit minimumDifficulty time parent < 2 ^ 256) :
    (calcDifficultyFrontierU256 time parent : Int) = frontierRule frontierDurationLimit minimumDifficulty time parent :=
  frontierU256_eq_rule (by decide) time parent hd ht hn hr

theorem frontierU256_refines_bombParent :
    bombParent.difficulty < 2 ^ 256 ∧ bombParent.time < 110 ∧ bombParent.number + 1 < 2 ^ 64 ∧
      frontierRule frontierDurationLimit minimumDifficulty 110 bombParent < 2 ^ 256 ∧
      (calcDifficultyFrontierU256 110 bombParent : Int) = frontierRule frontierDurationLimit minimumDifficulty 110 bombParent :=
  ⟨by decide, by decide, by decide, by decide,
    frontierU256_refines 110 bombParent (by decide) (by decide) (by decide) (by decide)⟩

/-- The Homestead rule in words is the one over `big.Int` on the same minimum difficulty, under the
same bounds. -/
theorem homesteadU256_eq_rule {minimum : Nat} (hm : minimum < 2 ^ 256) (time : UInt64) (parent : Header)
    (hd : parent.difficulty < 2 ^ 256) (ht : parent.time < time) (hn : parent.number + 1 < 2 ^ 64)
    (hr : homesteadRule minimum time parent < 2 ^ 256) :
    (homesteadU256 minimum time parent : Int) = homesteadRule minimum time parent := by
  have htime : (time - parent.time).toNat = time.toNat - parent.time.toNat :=
    UInt64.toNat_sub_of_le _ _ (UInt64.le_of_lt ht)
  have hlt : parent.time.toNat < time.toNat := ht
  set pc := (parent.number + 1) / expDiffPeriod with hpc_def
  have hpc := toNat_periodCount hn
  set q := (time.toNat - parent.time.toNat) / 10 with hq_def
  have hq : ((time - parent.time) / 10).toNat = q := by rw [UInt64.toNat_div, htime]; rfl
  have hbig : homesteadRule minimum time parent = clampBombInt minimum (decide (1 < pc)) (pc - 2)
      (parent.difficulty + ((parent.difficulty / Params.difficultyBoundDivisor : Nat) : Int) * max (1 - (q : Int)) (-99)) := by
    have hpcI : ((parent.number : Int) + 1) / (expDiffPeriod : Int) = (pc : Int) := by
      rw [hpc_def]; push_cast; rfl
    have hqI : ((time.toNat : Int) - parent.time.toNat) / 10 = (q : Int) := by
      rw [hq_def]; push_cast [Nat.cast_sub hlt.le]; rfl
    have hxI : (if 1 - (q : Int) < -99 then -99 else 1 - (q : Int)) = max (1 - (q : Int)) (-99) := by
      split_ifs <;> omega
    have hadjI : (parent.difficulty : Int) / (Params.difficultyBoundDivisor : Int) =
        ((parent.difficulty / Params.difficultyBoundDivisor : Nat) : Int) := by
      push_cast; rfl
    unfold homesteadRule clampBombInt
    simp only [hpcI, hqI, hxI, hadjI]
    rw [bombInt_eq]
  have hword : homesteadU256 minimum time parent =
      clampBombWord minimum (decide (1 < pc)) (pc - 2)
        (if q = 0 then BitVec.ofNat 256 parent.difficulty + (BitVec.ofNat 256 parent.difficulty >>> difficultyBoundDivisor) * BitVec.ofNat 256 1
        else BitVec.ofNat 256 parent.difficulty - (BitVec.ofNat 256 parent.difficulty >>> difficultyBoundDivisor) * BitVec.ofNat 256 (min (q - 1) 99)) := by
    have hcomm : 1 + UInt64.ofNat parent.number = UInt64.ofNat parent.number + 1 := UInt64.add_comm _ _
    have hX : 1 < (UInt64.ofNat parent.number + 1) / expDiffPeriodUint ↔ 1 < pc := by
      rw [UInt64.lt_iff_toNat_lt, hpc]; rfl
    have hfac : ((time - parent.time) / 10 = 0 ↔ q = 0) ∧ (100 ≤ (time - parent.time) / 10 ↔ 100 ≤ q) := by
      rw [← UInt64.toNat_inj, UInt64.le_iff_toNat_le, hq]
      exact ⟨Iff.rfl, Iff.rfl⟩
    -- the factor and its sign
    have hneg : (if q = 0 then ((1 : UInt64), false) else if 100 ≤ q then (99, true)
        else ((time - parent.time) / 10 - 1, true)).2 = !decide (q = 0) := by
      split_ifs <;> simp_all
    have hx : (if q = 0 then ((1 : UInt64), false) else if 100 ≤ q then (99, true)
        else ((time - parent.time) / 10 - 1, true)).1.toNat = if q = 0 then 1 else min (q - 1) 99 := by
      split_ifs with h0 h100
      · rfl
      · simp only [UInt64.toNat_ofNat]; omega
      · rw [UInt64.toNat_sub_of_le _ _ (by rw [UInt64.le_iff_toNat_le, hq]; simp; omega), hq]
        simp only [UInt64.toNat_one]
        omega
    unfold homesteadU256 clampBombWord
    simp only [hcomm, hX, hfac.1, hfac.2, hneg, hx]
    by_cases hb : 1 < pc
    · have hk : ((UInt64.ofNat parent.number + 1) / expDiffPeriodUint - 2).toNat = pc - 2 :=
        toNat_periodCount_sub_two hn hb
      by_cases h0 : q = 0 <;> simp [hb, hk, h0]
    · by_cases h0 : q = 0 <;> simp [hb, h0]
  refine refines_of_clampBomb hm hword hbig hr (fun hv => ?_)
  have hb : parent.difficulty / Params.difficultyBoundDivisor * 99 ≤ parent.difficulty := by
    unfold Params.difficultyBoundDivisor; omega
  split_ifs with h0
  · have hm := toNat_adjust_mul (x := 1) hd (by omega)
    have hf : max (1 - (q : Int)) (-99) = 1 := by omega
    rw [hf, mul_one] at hv ⊢
    rw [BitVec.toNat_add_of_lt (by rw [toNat_difficulty hd, hm]; omega), toNat_difficulty hd, hm, mul_one]
    push_cast
    rfl
  · have hm := toNat_adjust_mul (x := min (q - 1) 99) hd (by omega)
    have hle : parent.difficulty / Params.difficultyBoundDivisor * min (q - 1) 99 ≤ parent.difficulty :=
      calc parent.difficulty / Params.difficultyBoundDivisor * min (q - 1) 99
          ≤ parent.difficulty / Params.difficultyBoundDivisor * 99 := Nat.mul_le_mul_left _ (Nat.min_le_right _ _)
        _ ≤ parent.difficulty := hb
    have hf : max (1 - (q : Int)) (-99) = -((min (q - 1) 99 : Nat) : Int) := by omega
    rw [BitVec.toNat_sub_of_le (by rw [BitVec.le_def, toNat_difficulty hd, hm]; exact hle), toNat_difficulty hd, hm,
      hf, Nat.cast_sub hle]
    push_cast
    ring

/-- `CalcDifficultyHomesteadU256` computes the Homestead rule on its own minimum difficulty `131072`,
under the same bounds. -/
theorem homesteadU256_refines (time : UInt64) (parent : Header) (hd : parent.difficulty < 2 ^ 256)
    (ht : parent.time < time) (hn : parent.number + 1 < 2 ^ 64) (hr : homesteadRule minimumDifficulty time parent < 2 ^ 256) :
    (calcDifficultyHomesteadU256 time parent : Int) = homesteadRule minimumDifficulty time parent :=
  homesteadU256_eq_rule (by decide) time parent hd ht hn hr

theorem homesteadU256_refines_bombParent :
    bombParent.difficulty < 2 ^ 256 ∧ bombParent.time < 110 ∧ bombParent.number + 1 < 2 ^ 64 ∧
      homesteadRule minimumDifficulty 110 bombParent < 2 ^ 256 ∧
      (calcDifficultyHomesteadU256 110 bombParent : Int) = homesteadRule minimumDifficulty 110 bombParent :=
  ⟨by decide, by decide, by decide, by decide,
    homesteadU256_refines 110 bombParent (by decide) (by decide) (by decide) (by decide)⟩

/-- The Byzantium rule in words is the one over `big.Int` on the same minimum difficulty, for a bomb
delay from 1 below `2 ^ 64`, under the same bounds. -/
theorem byzantiumU256_eq_rule {minimum : Nat} (hm : minimum < 2 ^ 256) (bombDelay : Int) (time : UInt64)
    (parent : Header) (hd : parent.difficulty < 2 ^ 256) (ht : parent.time < time) (hn : parent.number < 2 ^ 64)
    (hb1 : 1 ≤ bombDelay) (hb2 : bombDelay < 2 ^ 64) (hr : byzantiumRule minimum bombDelay time parent < 2 ^ 256) :
    (byzantiumU256 minimum bombDelay time parent : Int) = byzantiumRule minimum bombDelay time parent := by
  have htime : (time - parent.time).toNat = time.toNat - parent.time.toNat :=
    UInt64.toNat_sub_of_le _ _ (UInt64.le_of_lt ht)
  have hlt : parent.time.toNat < time.toNat := ht
  set q := (time.toNat - parent.time.toNat) / 9 with hq_def
  have hq : ((time - parent.time) / 9).toNat = q := by rw [UInt64.toNat_div, htime]; rfl
  set c : Nat := if parent.uncleHash = emptyUncleHash then 1 else 2 with hc_def
  have hc2 : c ≤ 2 := by rw [hc_def]; split_ifs <;> omega
  set b : Nat := bombDelay.toNat - 1 with hb_def
  set pc := (if b ≤ parent.number then parent.number - b else 0) / expDiffPeriod with hpc_def
  have hbig : byzantiumRule minimum bombDelay time parent = clampBombInt minimum (decide (1 < pc)) (pc - 2)
      (parent.difficulty + ((parent.difficulty / Params.difficultyBoundDivisor : Nat) : Int) * max ((c : Int) - q) (-99)) := by
    have hqI : ((time.toNat : Int) - parent.time.toNat) / 9 = (q : Int) := by
      rw [hq_def]; push_cast [Nat.cast_sub hlt.le]; rfl
    have hxI : (if (if parent.uncleHash = emptyUncleHash then 1 - (q : Int) else 2 - q) < -99 then -99
        else if parent.uncleHash = emptyUncleHash then 1 - (q : Int) else 2 - q) = max ((c : Int) - q) (-99) := by
      rw [hc_def]; split_ifs <;> omega
    have hadjI : (parent.difficulty : Int) / (Params.difficultyBoundDivisor : Int) =
        ((parent.difficulty / Params.difficultyBoundDivisor : Nat) : Int) := by
      push_cast; rfl
    have hpcI : (if bombDelay - 1 ≤ (parent.number : Int) then (parent.number : Int) - (bombDelay - 1) else 0) /
        (expDiffPeriod : Int) = (pc : Int) := by
      rw [hpc_def]
      split_ifs with h1 h2 h2 <;> push_cast <;> first | omega | (congr 1; omega)
    unfold byzantiumRule clampBombInt
    simp only [hqI, hxI, hadjI, hpcI]
    rw [bombInt_eq]
  have hword : byzantiumU256 minimum bombDelay time parent =
      clampBombWord minimum (decide (1 < pc)) (pc - 2)
        (if c ≤ q then BitVec.ofNat 256 parent.difficulty - (BitVec.ofNat 256 parent.difficulty >>> difficultyBoundDivisor) * BitVec.ofNat 256 (min (q - c) 99)
        else BitVec.ofNat 256 parent.difficulty + (BitVec.ofNat 256 parent.difficulty >>> difficultyBoundDivisor) * BitVec.ofNat 256 (c - q)) := by
    have hcu : (if parent.uncleHash ≠ emptyUncleHash then (2 : UInt64) else 1).toNat = c := by
      rw [hc_def]; split_ifs <;> simp_all
    have hneg : (if parent.uncleHash ≠ emptyUncleHash then (2 : UInt64) else 1) ≤ (time - parent.time) / 9 ↔ c ≤ q := by
      rw [UInt64.le_iff_toNat_le, hcu, hq]
    have hfac := toNat_factor hq hcu hc2
    -- the bomb, in `uint64`
    have hbd : (UInt64.ofNat bombDelay.natAbs - 1).toNat = b := by
      rw [UInt64.toNat_sub_of_le _ _ (by rw [UInt64.le_iff_toNat_le]; simp; omega)]
      simp only [UInt64.toNat_ofNat', UInt64.toNat_one]
      omega
    have hpn : (UInt64.ofNat parent.number).toNat = parent.number := by
      simp only [UInt64.toNat_ofNat']; omega
    have hE : (2 * expDiffPeriodUint).toNat = 2 * expDiffPeriod := rfl
    have hEu : expDiffPeriodUint.toNat = expDiffPeriod := rfl
    have hbomb : (UInt64.ofNat bombDelay.natAbs - 1 ≤ UInt64.ofNat parent.number ∧
        2 * expDiffPeriodUint ≤ UInt64.ofNat parent.number - (UInt64.ofNat bombDelay.natAbs - 1)) ↔ 1 < pc := by
      rw [UInt64.le_iff_toNat_le, hbd, hpn, hpc_def]
      by_cases h1 : b ≤ parent.number
      · rw [UInt64.le_iff_toNat_le, UInt64.toNat_sub_of_le _ _ (by rw [UInt64.le_iff_toNat_le, hbd, hpn]; exact h1),
          hbd, hpn, hE, if_pos h1]
        unfold expDiffPeriod
        omega
      · simp only [h1, false_and, if_false, Nat.zero_div, false_iff]
        omega
    have hk : 1 < pc →
        ((UInt64.ofNat parent.number - (UInt64.ofNat bombDelay.natAbs - 1)) / expDiffPeriodUint - 2).toNat = pc - 2 := by
      intro hb
      obtain ⟨h1, h2⟩ := hbomb.2 hb
      have hsub : (UInt64.ofNat parent.number - (UInt64.ofNat bombDelay.natAbs - 1)).toNat = parent.number - b := by
        rw [UInt64.toNat_sub_of_le _ _ h1, hbd, hpn]
      have h1' : b ≤ parent.number := by rw [UInt64.le_iff_toNat_le, hbd, hpn] at h1; exact h1
      rw [UInt64.le_iff_toNat_le, hE, hsub] at h2
      rw [UInt64.toNat_sub_of_le _ _ (by
          rw [UInt64.le_iff_toNat_le, UInt64.toNat_div, hsub, hEu]
          unfold expDiffPeriod at *; simp; omega),
        UInt64.toNat_div, hsub, hEu, hpc_def, if_pos h1']
      rfl
    unfold byzantiumU256 clampBombWord
    dsimp only
    rw [hfac]
    simp only [hneg]
    by_cases hb : 1 < pc
    · obtain ⟨h1, h2⟩ := hbomb.2 hb
      rw [if_pos h1, if_pos h2, hk hb, BitVec.add_comm]
      simp only [hb, decide_true, if_true]
      by_cases hcq : c ≤ q <;> simp only [hcq, if_true, if_false]
    · have hno : ¬ (UInt64.ofNat bombDelay.natAbs - 1 ≤ UInt64.ofNat parent.number ∧
          2 * expDiffPeriodUint ≤ UInt64.ofNat parent.number - (UInt64.ofNat bombDelay.natAbs - 1)) :=
        fun h => hb (hbomb.1 h)
      simp only [hb, decide_false, Bool.false_eq_true, if_false]
      by_cases h1 : UInt64.ofNat bombDelay.natAbs - 1 ≤ UInt64.ofNat parent.number
      · rw [if_pos h1, if_neg fun h2 => hno ⟨h1, h2⟩]
        by_cases hcq : c ≤ q <;> simp only [hcq, if_true, if_false]
      · rw [if_neg h1]
        by_cases hcq : c ≤ q <;> simp only [hcq, if_true, if_false]
  refine refines_of_clampBomb hm hword hbig hr (fun hv => ?_)
  have hb99 : parent.difficulty / Params.difficultyBoundDivisor * 99 ≤ parent.difficulty := by
    unfold Params.difficultyBoundDivisor; omega
  split_ifs with hcq
  · -- the difficulty falls by `d / 2048 * min (q - c) 99`
    have hm := toNat_adjust_mul (x := min (q - c) 99) hd (by omega)
    have hle : parent.difficulty / Params.difficultyBoundDivisor * min (q - c) 99 ≤ parent.difficulty :=
      (Nat.mul_le_mul_left _ (Nat.min_le_right _ _)).trans hb99
    have hf : max ((c : Int) - q) (-99) = -((min (q - c) 99 : Nat) : Int) := by omega
    rw [BitVec.toNat_sub_of_le (by rw [BitVec.le_def, toNat_difficulty hd, hm]; exact hle), toNat_difficulty hd, hm,
      hf, Nat.cast_sub hle]
    push_cast
    ring
  · -- the difficulty rises by `d / 2048 * (c - q)`
    have hm := toNat_adjust_mul (x := c - q) hd (by omega)
    have hf : max ((c : Int) - q) (-99) = ((c - q : Nat) : Int) := by omega
    rw [hf, ← Nat.cast_mul] at hv ⊢
    rw [BitVec.toNat_add_of_lt (by rw [toNat_difficulty hd, hm]; omega), toNat_difficulty hd, hm]
    push_cast
    rfl

/-- The calculator `MakeDifficultyCalculatorU256` returns computes the Byzantium rule on its own
minimum difficulty `131072`, for a bomb delay from 1 below `2 ^ 64`, under the same bounds. -/
theorem byzantiumU256_refines (bombDelay : Int) (time : UInt64) (parent : Header)
    (hd : parent.difficulty < 2 ^ 256) (ht : parent.time < time) (hn : parent.number < 2 ^ 64)
    (hb1 : 1 ≤ bombDelay) (hb2 : bombDelay < 2 ^ 64)
    (hr : byzantiumRule minimumDifficulty bombDelay time parent < 2 ^ 256) :
    (makeDifficultyCalculatorU256 bombDelay time parent : Int) = byzantiumRule minimumDifficulty bombDelay time parent :=
  byzantiumU256_eq_rule (by decide) bombDelay time parent hd ht hn hb1 hb2 hr

theorem byzantiumU256_refines_bombParent :
    bombParent.difficulty < 2 ^ 256 ∧ bombParent.time < 110 ∧ bombParent.number < 2 ^ 64 ∧
      (1 : Int) ≤ 3000000 ∧ (3000000 : Int) < 2 ^ 64 ∧ byzantiumRule minimumDifficulty 3000000 110 bombParent < 2 ^ 256 ∧
      (makeDifficultyCalculatorU256 3000000 110 bombParent : Int) = byzantiumRule minimumDifficulty 3000000 110 bombParent :=
  ⟨by decide, by decide, by decide, by decide, by decide, by decide,
    byzantiumU256_refines 3000000 110 bombParent (by decide) (by decide) (by decide) (by decide) (by decide)
      (by decide)⟩

end Refinement

/-- A parent at the minimum difficulty of `params`, block zero, time zero, without uncles. -/
def slowParent : Header :=
  ⟨emptyUncleHash, Vector.replicate 20 0, Params.minimumDifficulty, 0, 0, [], Vector.replicate 8 0⟩

/-- A child 1000 seconds after `slowParent`: each `big.Int` calculator gives the minimum difficulty
of `params`, `130130`, each 256-bit one its own minimum, `131072`. -/
theorem difficultyU256_ne_big :
    calcDifficultyFrontier 1000 slowParent = 130130 ∧ calcDifficultyFrontierU256 1000 slowParent = 131072 ∧
      calcDifficultyHomestead 1000 slowParent = 130130 ∧ calcDifficultyHomesteadU256 1000 slowParent = 131072 ∧
      makeDifficultyCalculator 5000000 1000 slowParent = 130130 ∧
      makeDifficultyCalculatorU256 5000000 1000 slowParent = 131072 := by
  decide

end Ethash

end Go420coin
