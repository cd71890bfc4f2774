import Mathlib.Algebra.Order.Ring.Int

/-!
# The base fee of the next tipset

`ComputeNextBaseFee` (`chain/store/basefee.go`). The change is rounded down twice, which is
rounding down once, by the product of the divisors. It is at most an eighth of the base fee and
grows with the gas used.
-/

namespace OpenDsn.Chain

def blockGasTarget : Int := 5000000000

def baseFeeMaxChangeDenom : Int := 8

def minimumBaseFee : Int := 100

def packingEfficiencyNum : Int := 4

def packingEfficiencyDenom : Int := 5

/-- An `int64` as the machine computes it. -/
def int64 (i : Int) : Int := (i + 2 ^ 63) % 2 ^ 64 - 2 ^ 63

/-- The gas that a block used, on average. -/
def gasPerBlock (upgradeSmokeHeight gasLimitUsed noOfBlocks epoch : Int) : Int :=
  if epoch > upgradeSmokeHeight then gasLimitUsed.tdiv noOfBlocks
  else
    (int64 (packingEfficiencyDenom * gasLimitUsed)).tdiv (int64 (noOfBlocks * packingEfficiencyNum))

/-- `ComputeNextBaseFee`; the change is capped at 12.5% by capping `delta`. -/
def computeNextBaseFee (upgradeSmokeHeight baseFee gasLimitUsed noOfBlocks epoch : Int) : Int :=
  let delta := gasPerBlock upgradeSmokeHeight gasLimitUsed noOfBlocks epoch - blockGasTarget
  let delta := if delta > blockGasTarget then blockGasTarget else delta
  let delta := if delta < -blockGasTarget then -blockGasTarget else delta
  let nextBaseFee := baseFee + baseFee * delta / blockGasTarget / baseFeeMaxChangeDenom
  if nextBaseFee < minimumBaseFee then minimumBaseFee else nextBaseFee

/-- The products of `ComputeNextBaseFee` fit into an `int64`. -/
structure ProductsFit (gasLimitUsed noOfBlocks : Int) : Prop where
  gas : packingEfficiencyDenom * gasLimitUsed < 2 ^ 63
  blocks : noOfBlocks * packingEfficiencyNum < 2 ^ 63

variable {smoke baseFee gas gas' blocks epoch : Int}

theorem int64_of_fits {i : Int} (h : -2 ^ 63 ≤ i) (hlt : i < 2 ^ 63) : int64 i = i := by
  unfold int64
  omega

theorem gasPerBlock_mono (hgas : 0 ≤ gas) (hblocks : 1 ≤ blocks) (hfit : ProductsFit gas' blocks)
    (h : gas ≤ gas') :
    gasPerBlock smoke gas blocks epoch ≤ gasPerBlock smoke gas' blocks epoch := by
  obtain ⟨hgas', hblocks'⟩ := hfit
  unfold gasPerBlock
  unfold packingEfficiencyDenom packingEfficiencyNum at *
  split
  · rw [Int.tdiv_eq_ediv_of_nonneg hgas, Int.tdiv_eq_ediv_of_nonneg (hgas.trans h)]
    exact Int.ediv_le_ediv (by omega) h
  · rw [int64_of_fits (by omega) (by omega), int64_of_fits (by omega) hblocks',
      int64_of_fits (by omega) hgas', Int.tdiv_eq_ediv_of_nonneg (by omega),
      Int.tdiv_eq_ediv_of_nonneg (by omega)]
    exact Int.ediv_le_ediv (by omega) (by omega)

theorem computeNextBaseFee_eq :
    computeNextBaseFee smoke baseFee gas blocks epoch = max minimumBaseFee (baseFee +
      baseFee * max (-blockGasTarget) (min blockGasTarget
        (gasPerBlock smoke gas blocks epoch - blockGasTarget)) / (blockGasTarget * 8)) := by
  unfold computeNextBaseFee baseFeeMaxChangeDenom blockGasTarget
  grind

/-- The next base fee is not below the minimum, is at most an eighth away from the base fee, and
does not fall when more gas is used. -/
theorem computeNextBaseFee_bounds (hbase : minimumBaseFee ≤ baseFee) (hgas : 0 ≤ gas)
    (hblocks : 1 ≤ blocks) :
    minimumBaseFee ≤ computeNextBaseFee smoke baseFee gas blocks epoch ∧
      baseFee - -(-baseFee / 8) ≤ computeNextBaseFee smoke baseFee gas blocks epoch ∧
      computeNextBaseFee smoke baseFee gas blocks epoch ≤ baseFee + baseFee / 8 ∧
      ∀ gas', gas ≤ gas' → ProductsFit gas' blocks →
        computeNextBaseFee smoke baseFee gas blocks epoch ≤
          computeNextBaseFee smoke baseFee gas' blocks epoch := by
  have hpos : 0 ≤ baseFee := le_trans (by decide) hbase
  have hmono : ∀ {d d' : Int}, d ≤ d' →
      baseFee * d / (blockGasTarget * 8) ≤ baseFee * d' / (blockGasTarget * 8) := fun h =>
    Int.ediv_le_ediv (by decide) (Int.mul_le_mul_of_nonneg_left h hpos)
  have hup : baseFee * blockGasTarget / (blockGasTarget * 8) = baseFee / 8 := by
    rw [← Int.ediv_ediv_of_nonneg (by decide), Int.mul_ediv_cancel _ (by decide)]
  have hdown : baseFee * -blockGasTarget / (blockGasTarget * 8) = -baseFee / 8 := by
    rw [Int.mul_neg, ← Int.neg_mul, ← Int.ediv_ediv_of_nonneg (by decide),
      Int.mul_ediv_cancel _ (by decide)]
  simp only [computeNextBaseFee_eq]
  generalize hdelta : gasPerBlock smoke gas blocks epoch - blockGasTarget = delta
  have hge := hmono (le_max_left (-blockGasTarget) (min blockGasTarget delta))
  have hle := hmono (max_le (by decide) (min_le_left _ delta) :
    max (-blockGasTarget) (min blockGasTarget delta) ≤ blockGasTarget)
  refine ⟨le_max_left _ _, le_max_of_le_right (by omega), max_le (by omega) (by omega), ?_⟩
  intro gas' hgas' hfit
  have hper : gasPerBlock smoke gas blocks epoch ≤ gasPerBlock smoke gas' blocks epoch :=
    gasPerBlock_mono hgas hblocks hfit hgas'
  refine max_le_max_left _ (Int.add_le_add_left (hmono ?_) _)
  refine max_le_max_left _ (min_le_min_left _ ?_)
  omega

theorem computeNextBaseFee_bounds_empty : computeNextBaseFee 51000 200 0 1 40000 ≤
    computeNextBaseFee 51000 200 10000000000 1 40000 :=
  (computeNextBaseFee_bounds (by decide) (by decide) (by decide)).2.2.2 _ (by decide)
    ⟨by decide, by decide⟩

end OpenDsn.Chain
