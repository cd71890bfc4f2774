import Mathlib.Tactic.Ring
import OpenDsn.Chain.BaseFee

/-!
# What the gas of a message costs

`ComputeGasOutputs` (`chain/vm/burn.go`) splits what a message pays at most, its gas limit times
its fee cap, into burns, the tip of the miner and a refund. Of the gas that was not used, some is
burned if the limit was far too high.
-/

namespace OpenDsn.Chain

def gasOveruseNum : Int := 11

def gasOveruseDenom : Int := 10

structure GasOutputs where
  baseFeeBurn : Int
  overEstimationBurn : Int
  minerPenalty : Int
  minerTip : Int
  refund : Int
  gasRefund : Int
  gasBurned : Int

/-- The gas to refund and the gas to burn. The product is one of big integers. -/
def computeGasOverestimationBurn (gasUsed gasLimit : Int) : Int × Int :=
  if gasUsed = 0 then (0, gasLimit)
  else
    let overuse := int64 (gasLimit - (int64 (gasOveruseNum * gasUsed)).tdiv gasOveruseDenom)
    let unused := int64 (gasLimit - gasUsed)
    if overuse < 0 then (unused, 0)
    else
      let overuse := if overuse > gasUsed then gasUsed else overuse
      let gasToBurn := int64 (unused * overuse / gasUsed)
      (int64 (unused - gasToBurn), gasToBurn)

def computeGasOutputs (gasUsed gasLimit baseFee feeCap gasPremium : Int)
    (chargeNetworkFee : Bool) : GasOutputs :=
  let baseFeeToPay := if baseFee > feeCap then feeCap else baseFee
  let minerPenalty := if baseFee > feeCap then (baseFee - feeCap) * gasUsed else 0
  let baseFeeBurn := if chargeNetworkFee then baseFeeToPay * gasUsed else 0
  let minerTip :=
    (if baseFeeToPay + gasPremium > feeCap then feeCap - baseFeeToPay else gasPremium) * gasLimit
  let (gasRefund, gasBurned) := computeGasOverestimationBurn gasUsed gasLimit
  let overEstimationBurn := if gasBurned ≠ 0 then baseFeeToPay * gasBurned else 0
  { baseFeeBurn := baseFeeBurn
    overEstimationBurn := overEstimationBurn
    minerPenalty :=
      if gasBurned ≠ 0 then minerPenalty + (baseFee - baseFeeToPay) * gasBurned else minerPenalty
    minerTip := minerTip
    refund := gasLimit * feeCap - baseFeeBurn - minerTip - overEstimationBurn
    gasRefund := gasRefund
    gasBurned := gasBurned }

/-- The gas to burn, in integers. -/
def burned (gasUsed gasLimit : Int) : Int :=
  if gasUsed = 0 then gasLimit
  else (gasLimit - gasUsed) * max 0 (min gasUsed (gasLimit - 11 * gasUsed / 10)) / gasUsed

variable {gasUsed gasLimit baseFee feeCap gasPremium : Int} (hused : 0 ≤ gasUsed)
  (hlimit : gasUsed ≤ gasLimit)
include hused hlimit

namespace BurnLemmas

theorem burned_bounds :
    0 ≤ burned gasUsed gasLimit ∧ burned gasUsed gasLimit ≤ gasLimit - gasUsed := by
  unfold burned
  split
  · omega
  · generalize hover : max 0 (min gasUsed _) = m
    have hunused : 0 ≤ gasLimit - gasUsed := by omega
    have hle := Int.mul_le_mul_of_nonneg_left (by omega : m ≤ gasUsed) hunused
    refine ⟨Int.ediv_nonneg (Int.mul_nonneg hunused (by omega)) hused, ?_⟩
    calc _ ≤ (gasLimit - gasUsed) * gasUsed / gasUsed := Int.ediv_le_ediv (by omega) hle
      _ = gasLimit - gasUsed := Int.mul_ediv_cancel _ ‹_›

theorem burned_mono {limit : Int} (h : gasLimit ≤ limit) :
    burned gasUsed gasLimit ≤ burned gasUsed limit := by
  unfold burned
  split
  · exact h
  · exact Int.ediv_le_ediv (by omega)
      (mul_le_mul (by omega) (by omega) (le_max_left _ _) (by omega))

variable (hfit : 11 * gasUsed < 2 ^ 63) (hint : gasLimit < 2 ^ 63)
include hfit hint

theorem computeGasOverestimationBurn_eq :
    computeGasOverestimationBurn gasUsed gasLimit =
      (gasLimit - gasUsed - burned gasUsed gasLimit, burned gasUsed gasLimit) := by
  have hbounds := burned_bounds hused hlimit
  unfold computeGasOverestimationBurn gasOveruseNum gasOveruseDenom
  unfold burned at hbounds ⊢
  split_ifs at hbounds ⊢ with hzero
  · simp [hzero]
  rw [int64_of_fits (by omega) hfit, Int.tdiv_eq_ediv_of_nonneg (by omega),
    int64_of_fits (by omega) (by omega), int64_of_fits (by omega) (by omega)]
  dsimp only
  split
  · rw [show max 0 (min gasUsed (gasLimit - 11 * gasUsed / 10)) = 0 by omega]
    simp
  · rw [show (if _ > gasUsed then gasUsed else _) =
      max 0 (min gasUsed (gasLimit - 11 * gasUsed / 10)) by omega]
    rw [int64_of_fits (i := _ / gasUsed) (by omega) (by omega), int64_of_fits (by omega) (by omega)]

theorem computeGasOutputs_eq :
    let toPay := min baseFee feeCap
    let tip := min gasPremium (feeCap - toPay)
    let burn := burned gasUsed gasLimit
    computeGasOutputs gasUsed gasLimit baseFee feeCap gasPremium true =
      ⟨toPay * gasUsed, toPay * burn, (baseFee - toPay) * (gasUsed + burn), tip * gasLimit,
        gasLimit * (feeCap - toPay - tip) + toPay * (gasLimit - gasUsed - burn),
        gasLimit - gasUsed - burn, burn⟩ := by
  intro toPay tip burn
  have htoPay : (if baseFee > feeCap then feeCap else baseFee) = toPay := by omega
  have htip : (if toPay + gasPremium > feeCap then feeCap - toPay else gasPremium) = tip := by
    omega
  have hpenalty : (if baseFee > feeCap then (baseFee - feeCap) * gasUsed else 0) =
      (baseFee - toPay) * gasUsed := by
    split
    · rw [show toPay = feeCap by omega]
    · rw [show toPay = baseFee by omega, sub_self, zero_mul]
  unfold computeGasOutputs
  rw [computeGasOverestimationBurn_eq hused hlimit hfit hint, htoPay, hpenalty]
  simp only [htip, if_true, GasOutputs.mk.injEq, true_and]
  change (if burn ≠ 0 then _ else _) = _ ∧ (if burn ≠ 0 then _ else _) = _ ∧
    _ - (if burn ≠ 0 then _ else _) = _ ∧ _ = _ ∧ _ = _
  split_ifs with hburn
  · refine ⟨rfl, by ring, by ring, rfl, rfl⟩
  · rw [not_not.mp hburn]
    refine ⟨by ring, by ring, by ring, ?_⟩
    omega

end BurnLemmas

open BurnLemmas in
/-- What a message pays at most is split up without a rest, and no part is negative. -/
theorem computeGasOutputs_splits {out : GasOutputs} (hfit : 11 * gasUsed < 2 ^ 63)
    (hint : gasLimit < 2 ^ 63) (hbase : 0 ≤ baseFee) (hcap : 0 ≤ feeCap) (hpremium : 0 ≤ gasPremium)
    (hout : computeGasOutputs gasUsed gasLimit baseFee feeCap gasPremium true = out) :
    out.gasRefund + out.gasBurned + gasUsed = gasLimit ∧
      out.baseFeeBurn + out.overEstimationBurn + out.minerTip + out.refund = gasLimit * feeCap ∧
      (∀ part ∈ [out.gasRefund, out.gasBurned, out.baseFeeBurn, out.overEstimationBurn,
        out.minerTip, out.refund, out.minerPenalty], 0 ≤ part) ∧
      out.minerPenalty = (baseFee - min baseFee feeCap) * (gasUsed + out.gasBurned) ∧
      ∀ limit, gasLimit ≤ limit → limit < 2 ^ 63 → gasUsed + out.gasBurned ≤
        gasUsed + (computeGasOutputs gasUsed limit baseFee feeCap gasPremium true).gasBurned := by
  obtain ⟨hburn, hrest⟩ := burned_bounds hused hlimit
  have htoPay : 0 ≤ min baseFee feeCap := le_min hbase hcap
  have htip : 0 ≤ min gasPremium (feeCap - min baseFee feeCap) := by omega
  rw [computeGasOutputs_eq hused hlimit hfit hint] at hout
  subst hout
  refine ⟨by dsimp only; omega, by ring, ?_, rfl, fun limit hle hlt => ?_⟩
  · simp only [List.forall_mem_cons, List.not_mem_nil, false_imp_iff, implies_true, and_true]
    exact ⟨by omega, hburn, mul_nonneg htoPay hused, mul_nonneg htoPay hburn,
      mul_nonneg htip (by omega), add_nonneg (mul_nonneg (by omega) (by omega))
        (mul_nonneg htoPay (by omega)), mul_nonneg (by omega) (by omega)⟩
  · rw [computeGasOutputs_eq hused (hlimit.trans hle) hfit hlt]
    exact Int.add_le_add_left (burned_mono hused hlimit hle) _

omit hused hlimit in
theorem computeGasOutputs_splits_overestimated :
    let out := computeGasOutputs 10 15 7 5 1 true
    out.gasRefund + out.gasBurned + 10 = 15 ∧ out.gasBurned = 2 ∧ out.minerPenalty = 24 :=
  have h := @computeGasOutputs_splits 10 15 7 5 1 (by decide) (by decide) _ (by decide)
    (by decide) (by decide) (by decide) (by decide) rfl
  ⟨h.1, by decide, by decide⟩

end OpenDsn.Chain
