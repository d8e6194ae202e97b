import Mathlib.Algebra.Order.Floor.Ring
import Mathlib.Tactic.Linarith
import Mathlib.Tactic.Positivity

/-! Rounding to the nearest integer, and to a number of decimals, with ties to the even one. -/
namespace NTrade.Lib.HalfEven

variable {K : Type*} [Field K] [LinearOrder K] [FloorRing K]

local instance two_atLeastTwo : Nat.AtLeastTwo 2 := ⟨le_rfl⟩

/-- The integer nearest to a value, the even one of two. -/
def nearest (x : K) : Int :=
  let f := ⌊x⌋
  if x - f < 1 / 2 then f
  else if 1 / 2 < x - f then f + 1
  else if f % 2 = 0 then f else f + 1

/-- The value with this many decimals that is nearest to a value. -/
def decimals (x : K) (ndigits : Nat) : K := nearest (x * 10 ^ ndigits) / 10 ^ ndigits

variable [IsStrictOrderedRing K]

theorem nearest_intCast (n : Int) : nearest (n : K) = n := by simp [nearest]

theorem abs_nearest_sub_le (x : K) : |(nearest x : K) - x| ≤ 1 / 2 := by
  have h0 := Int.floor_le x
  have h1 := Int.lt_floor_add_one x
  rw [nearest, abs_le]
  split
  · constructor <;> linarith
  · split
    · push_cast
      constructor <;> linarith
    · split
      · constructor <;> linarith
      · push_cast
        constructor <;> linarith

theorem nearest_mono {x y : K} (h : x ≤ y) : nearest x ≤ nearest y := by
  by_contra hlt
  have hx := abs_le.mp (abs_nearest_sub_le x)
  have hy := abs_le.mp (abs_nearest_sub_le y)
  have hz : (nearest y : K) + 1 ≤ nearest x := by exact_mod_cast not_le.mp hlt
  have he : x = y := by linarith
  rw [he] at hlt
  exact hlt le_rfl

/-- Rounding moves a value by half of the last decimal at most. -/
theorem abs_decimals_sub_le (x : K) (ndigits : Nat) : |decimals x ndigits - x| ≤ 1 / 2 / 10 ^ ndigits := by
  have hp : (0 : K) < 10 ^ ndigits := by positivity
  have he : decimals x ndigits - x = (nearest (x * 10 ^ ndigits) - x * 10 ^ ndigits) / 10 ^ ndigits := by
    rw [decimals, sub_div, mul_div_assoc, div_self hp.ne', mul_one]
  rw [he, abs_div, abs_of_pos hp]
  exact div_le_div_of_nonneg_right (abs_nearest_sub_le _) hp.le

theorem decimals_mono {x y : K} (h : x ≤ y) (ndigits : Nat) : decimals x ndigits ≤ decimals y ndigits := by
  have hp : (0 : K) < 10 ^ ndigits := by positivity
  apply div_le_div_of_nonneg_right _ hp.le
  exact_mod_cast nearest_mono (mul_le_mul_of_nonneg_right h hp.le)

/-- A value that has no more decimals stays as it is. -/
theorem decimals_of_mul_pow {x : K} {ndigits : Nat} {n : Int} (h : x * 10 ^ ndigits = n) : decimals x ndigits = x := by
  have hp : (10 ^ ndigits : K) ≠ 0 := by positivity
  rw [decimals, h, nearest_intCast, ← h, mul_div_assoc, div_self hp, mul_one]

theorem nearest_neg (x : K) : nearest (-x) = -nearest x := by
  have h0 := Int.floor_le x
  have h1 := Int.lt_floor_add_one x
  rcases h0.eq_or_lt with hx | hx
  · rw [← hx, ← Int.cast_neg, nearest_intCast, nearest_intCast]
  · -- the floor of the opposite is one below the opposite of the floor
    have hfloor : ⌊-x⌋ = -⌊x⌋ - 1 := by
      rw [Int.floor_eq_iff]
      push_cast
      constructor <;> linarith
    rw [nearest, nearest, hfloor]
    push_cast
    split_ifs <;> first | omega | linarith

theorem decimals_neg (x : K) (ndigits : Nat) : decimals (-x) ndigits = -decimals x ndigits := by
  rw [decimals, neg_mul, nearest_neg, Int.cast_neg, neg_div, decimals]

theorem decimals_zero (ndigits : Nat) : decimals (0 : K) ndigits = 0 :=
  decimals_of_mul_pow (n := 0) (by rw [zero_mul, Int.cast_zero])

theorem decimals_nonneg {x : K} (h : 0 ≤ x) (ndigits : Nat) : 0 ≤ decimals x ndigits :=
  (decimals_zero ndigits).ge.trans (decimals_mono h ndigits)

theorem decimals_nonpos {x : K} (h : x ≤ 0) (ndigits : Nat) : decimals x ndigits ≤ 0 :=
  (decimals_mono h ndigits).trans (decimals_zero ndigits).le

theorem abs_decimals (x : K) (ndigits : Nat) : |decimals x ndigits| = decimals |x| ndigits := by
  rcases le_total 0 x with hx | hx
  · rw [abs_of_nonneg hx, abs_of_nonneg (decimals_nonneg hx ndigits)]
  · rw [abs_of_nonpos hx, abs_of_nonpos (decimals_nonpos hx ndigits), decimals_neg]

/-- Rounding does not take a value to the other side of zero. -/
theorem mul_decimals_nonneg {a x : K} (h : 0 ≤ a * x) (ndigits : Nat) : 0 ≤ a * decimals x ndigits := by
  rcases lt_trichotomy a 0 with ha | rfl | ha
  · exact mul_nonneg_of_nonpos_of_nonpos ha.le (decimals_nonpos (nonpos_of_mul_nonneg_right h ha) ndigits)
  · rw [zero_mul]
  · exact mul_nonneg ha.le (decimals_nonneg (nonneg_of_mul_nonneg_right h ha) ndigits)

/-- Rounding tells the multiples of a step from each other where it is no shorter than the last decimal. -/
theorem decimals_mul_lt {step : K} {ndigits : Nat} (h : 1 ≤ step * 10 ^ ndigits) {m n : Int} (hmn : m < n) :
    decimals (m * step) ndigits < decimals (n * step) ndigits := by
  have hp : (0 : K) < 10 ^ ndigits := by positivity
  have hmono : StrictMono fun n : Int => decimals (n * step) ndigits := by
    refine strictMono_int_of_lt_succ fun n => div_lt_div_of_pos_right ?_ hp
    rw [Int.cast_lt, mul_assoc, mul_assoc]
    by_contra hle
    have hn := abs_le.mp (abs_nearest_sub_le ((n : K) * (step * 10 ^ ndigits)))
    have hs := abs_le.mp (abs_nearest_sub_le (((n + 1 : Int) : K) * (step * 10 ^ ndigits)))
    have hcast : (nearest (((n + 1 : Int) : K) * (step * 10 ^ ndigits)) : K) ≤ nearest ((n : K) * (step * 10 ^ ndigits)) := by
      exact_mod_cast not_lt.mp hle
    have hsum : ((n + 1 : Int) : K) * (step * 10 ^ ndigits) = (n : K) * (step * 10 ^ ndigits) + step * 10 ^ ndigits := by
      rw [Int.cast_add, Int.cast_one, add_mul, one_mul]
    -- two multiples could only meet where the step is the last decimal, and is not rounded
    have hone : step * 10 ^ ndigits = 1 := by linarith
    rw [hone, mul_one, mul_one, nearest_intCast, nearest_intCast] at hle
    omega
  exact hmono hmn

/-- Such a multiple is rounded by less than half of the step. -/
theorem abs_decimals_mul_sub_lt {step : K} {ndigits : Nat} (h : 1 ≤ step * 10 ^ ndigits) (n : Int) :
    |decimals (n * step) ndigits - n * step| < step / 2 := by
  have hp : (0 : K) < 10 ^ ndigits := by positivity
  have hpos : 0 < step := pos_of_mul_pos_left (zero_lt_one.trans_le h) hp.le
  rcases h.eq_or_lt with hone | hlt
  · rw [decimals_of_mul_pow (n := n) (by rw [mul_assoc, ← hone, mul_one]), sub_self, abs_zero]
    exact half_pos hpos
  · refine (abs_decimals_sub_le _ ndigits).trans_lt ?_
    rw [div_lt_iff₀ hp]
    linarith

end NTrade.Lib.HalfEven
