import NTrade.Domain.Derivatives
import NTrade.Lib.Bisection
import NTrade.Lib.HalfEven
import Mathlib.Algebra.Order.Archimedean.Real.Basic
import Mathlib.Tactic.NormNum

/-! The implied volatility of a market price: a root of the price curve, or nothing. -/
namespace NTrade.Domain.ImpliedVolatility

open NTrade.Lib NTrade.Lib.Bisection NTrade.Domain.Derivatives

section Model

variable {K : Type*} [Field K] [LinearOrder K] [FloorRing K]

abbrev Pricing (K : Type*) := K → K → K → K → K → OptionType → K → K

def curve (price : Pricing K) (spot strike years riskFree : K) (optionType : OptionType) (dividend sigma : K) : K :=
  price spot strike years riskFree sigma optionType dividend

def lo : K := 1 / 10000

def hi : K := 5

def tolDefault : K := 1 / 1000000

def maxIterDefault : Nat := 100

def NOT_COMPUTED : Option K := none

def Rejected (marketPrice spot strike years : K) (optionType : OptionType) : Prop :=
  (years ≤ 0 ∨ marketPrice ≤ 0) ∨ marketPrice < intrinsicValue optionType spot strike

instance (marketPrice spot strike years : K) (optionType : OptionType) :
    Decidable (Rejected marketPrice spot strike years optionType) := inferInstanceAs (Decidable (_ ∨ _))

/-- `BlackScholes.implied_volatility` over the engine's `price`. -/
def impliedVolatility (price : Pricing K) (marketPrice spot strike years riskFree : K) (optionType : OptionType)
    (dividend tol : K) (maxIter : Nat) : Option K :=
  if Rejected marketPrice spot strike years optionType then NOT_COMPUTED
  else if curve price spot strike years riskFree optionType dividend hi < marketPrice then NOT_COMPUTED
  else
    let sigma := bisect (curve price spot strike years riskFree optionType dividend) marketPrice tol maxIter lo hi
    some (HalfEven.decimals sigma 6)

end Model

open Set

def Solution (curve : ℝ → ℝ) (marketPrice sigma : ℝ) : Prop := sigma ∈ Icc lo hi ∧ curve sigma = marketPrice

local instance two_atLeastTwo : Nat.AtLeastTwo 2 := ⟨le_rfl⟩

local instance ten_atLeastTwo : Nat.AtLeastTwo 10 := ⟨by decide⟩

/-- A volatility in bounds that is as near to a solution as the bisection and six decimals come: half of the last decimal
away, the price is within the tolerance of the solution's, or the solution is within half of the last bracket. -/
def NearSolution (curve : ℝ → ℝ) (marketPrice tol : ℝ) (maxIter : Nat) (sigma : ℝ) : Prop :=
  sigma ∈ Icc lo hi ∧ ∃ m ∈ Icc lo hi, |sigma - m| ≤ 1 / 2 / 10 ^ 6 ∧ ∃ r, Solution curve marketPrice r ∧
    (|curve m - curve r| < tol ∨ |m - r| ≤ (hi - lo) / 2 ^ (maxIter + 1))

/-- A volatility near a solution where there is one, and none where there is none. -/
def RootOrNothing (curve : ℝ → ℝ) (marketPrice tol : ℝ) (maxIter : Nat) (iv : Option ℝ) : Prop :=
  ((∃ sigma, Solution curve marketPrice sigma) →
      ∃ sigma, iv = some sigma ∧ NearSolution curve marketPrice tol maxIter sigma) ∧
    ((¬ ∃ sigma, Solution curve marketPrice sigma) → iv = NOT_COMPUTED)

variable {price : Pricing ℝ} {marketPrice spot strike years riskFree dividend tol : ℝ} {optionType : OptionType}
  {maxIter : Nat}

private theorem lo_le_hi : (lo : ℝ) ≤ hi := by norm_num [lo, hi]

/-- Six decimals tell the bounds, so that rounding keeps a volatility between them. -/
private theorem decimals_in_bounds {m : ℝ} (h : m ∈ Icc lo hi) : HalfEven.decimals m 6 ∈ Icc lo hi := by
  have hloDecimals : HalfEven.decimals (lo : ℝ) 6 = lo :=
    HalfEven.decimals_of_mul_pow (show lo * 10 ^ 6 = ((100 : Int) : ℝ) by norm_num [lo])
  have hhiDecimals : HalfEven.decimals (hi : ℝ) 6 = hi :=
    HalfEven.decimals_of_mul_pow (show hi * 10 ^ 6 = ((5000000 : Int) : ℝ) by norm_num [hi])
  constructor
  · calc
      lo = HalfEven.decimals (lo : ℝ) 6 := hloDecimals.symm
      _ ≤ _ := HalfEven.decimals_mono h.1 6
  · calc
      _ ≤ HalfEven.decimals (hi : ℝ) 6 := HalfEven.decimals_mono h.2 6
      _ = hi := hhiDecimals

theorem exists_solution_iff {curve : ℝ → ℝ} (hmono : MonotoneOn curve (Icc lo hi)) (hcont : ContinuousOn curve (Icc lo hi)) :
    (∃ sigma, Solution curve marketPrice sigma) ↔ curve lo ≤ marketPrice ∧ marketPrice ≤ curve hi :=
  exists_root_iff lo_le_hi hmono hcont

/-- Where no guard turns the market price away and the curve reaches it, the search finds what it looks for. -/
theorem nearSolution_bisect {curve : ℝ → ℝ} (hf : ContinuousOn curve (Icc lo hi)) (hlo : curve lo ≤ marketPrice)
    (hhi : marketPrice ≤ curve hi) :
    NearSolution curve marketPrice tol maxIter (HalfEven.decimals (bisect curve marketPrice tol maxIter lo hi) 6) := by
  obtain ⟨hmem, r, hr, hroot, hnear⟩ := bisect_near_root tol maxIter ⟨lo_le_hi, hlo, hhi⟩ hf
  exact ⟨decimals_in_bounds hmem, _, hmem, HalfEven.abs_decimals_sub_le _ 6, r, ⟨hr, hroot⟩, hnear⟩

/-- The implied volatility is a root or nothing exactly where the market price is above the price at the greatest
volatility, or the guards turn it away when it is below the price at the least one and then only. -/
theorem implied_volatility_root_iff
    (hmono : MonotoneOn (curve price spot strike years riskFree optionType dividend) (Icc lo hi))
    (hcont : ContinuousOn (curve price spot strike years riskFree optionType dividend) (Icc lo hi)) :
    RootOrNothing (curve price spot strike years riskFree optionType dividend) marketPrice tol maxIter
        (impliedVolatility price marketPrice spot strike years riskFree optionType dividend tol maxIter) ↔
      (marketPrice ≤ curve price spot strike years riskFree optionType dividend hi →
        (Rejected marketPrice spot strike years optionType ↔
          marketPrice < curve price spot strike years riskFree optionType dividend lo)) := by
  rw [RootOrNothing, exists_solution_iff hmono hcont, impliedVolatility]
  by_cases hrejected : Rejected marketPrice spot strike years optionType
  · rw [if_pos hrejected, iff_true_left hrejected]
    constructor
    · rintro ⟨hsome, -⟩ hhi
      by_contra hlo
      obtain ⟨sigma, hsigma, -⟩ := hsome ⟨not_lt.mp hlo, hhi⟩
      exact Option.some_ne_none sigma hsigma.symm
    · intro h
      exact ⟨fun ⟨hlo, hhi⟩ => absurd (h hhi) (not_lt.mpr hlo), fun _ => rfl⟩
  · rw [if_neg hrejected, iff_false_left hrejected]
    by_cases habove : curve price spot strike years riskFree optionType dividend hi < marketPrice
    · rw [if_pos habove]
      exact ⟨fun _ hhi => absurd habove (not_lt.mpr hhi),
        fun _ => ⟨fun ⟨_, hhi⟩ => absurd habove (not_lt.mpr hhi), fun _ => rfl⟩⟩
    · rw [if_neg habove]
      have hhi := not_lt.mp habove
      constructor
      · rintro ⟨-, hnone⟩ _ hlo
        exact Option.some_ne_none _ (hnone fun hbracket => absurd hlo (not_lt.mpr hbracket.1))
      · intro h
        have hlo := not_lt.mp (h hhi)
        exact ⟨fun _ => ⟨_, rfl, nearSolution_bisect hcont hlo hhi⟩, fun hnone => absurd ⟨hlo, hhi⟩ hnone⟩

private def line {K : Type*} [Field K] : Pricing K := fun _ _ _ _ sigma _ _ => 157 / 10 + sigma

example : impliedVolatility line (21 / 2 : Rat) 100 90 1 (65 / 1000) .CE 0 tolDefault maxIterDefault = some (1 / 10000) := by
  decide +kernel

private theorem line_monotone : MonotoneOn (curve line (100 : ℝ) 90 1 (65 / 1000) .CE 0) (Icc lo hi) :=
  fun _ _ _ _ h => add_le_add_right h _

private theorem line_continuous : ContinuousOn (curve line (100 : ℝ) 90 1 (65 / 1000) .CE 0) (Icc lo hi) :=
  continuousOn_const.add continuousOn_id

theorem implied_volatility_root_iff_sixteen :
    RootOrNothing (curve line (100 : ℝ) 90 1 (65 / 1000) .CE 0) 16 tolDefault maxIterDefault
      (impliedVolatility line 16 100 90 1 (65 / 1000) .CE 0 tolDefault maxIterDefault) := by
  apply (implied_volatility_root_iff line_monotone line_continuous).mpr
  norm_num [Rejected, intrinsicValue, curve, line, lo, hi]

/-- A market price of a call between what it is worth at once and its price at the least volatility has no solution, and
the search ends at the least volatility. -/
theorem price_below_curve_found : ¬ ∀ (price : Pricing ℝ) (marketPrice spot strike years riskFree dividend : ℝ) optionType,
    MonotoneOn (curve price spot strike years riskFree optionType dividend) (Icc lo hi) →
    ContinuousOn (curve price spot strike years riskFree optionType dividend) (Icc lo hi) →
    RootOrNothing (curve price spot strike years riskFree optionType dividend) marketPrice tolDefault maxIterDefault
      (impliedVolatility price marketPrice spot strike years riskFree optionType dividend tolDefault maxIterDefault) := by
  intro h
  obtain ⟨-, hnone⟩ := h line (21 / 2) 100 90 1 (65 / 1000) 0 .CE line_monotone line_continuous
  have hempty : ¬ ∃ sigma, Solution (curve line (100 : ℝ) 90 1 (65 / 1000) .CE 0) (21 / 2) sigma := by
    rintro ⟨sigma, ⟨hlo, -⟩, hroot⟩
    dsimp only [curve, line, lo] at hroot hlo
    linarith
  have hsome := hnone hempty
  rw [impliedVolatility, if_neg (by norm_num [Rejected, intrinsicValue]), if_neg (by norm_num [curve, line, hi])] at hsome
  exact Option.some_ne_none _ hsome

end NTrade.Domain.ImpliedVolatility
