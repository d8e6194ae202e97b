import Mathlib.Algebra.Order.Floor.Ring
import Mathlib.Algebra.BigOperators.Ring.List
import Mathlib.Algebra.Order.BigOperators.Group.List
import Mathlib.Tactic.Linarith

/-! Truncation of a value to an integer, and what is lost where the shares of several weights are truncated. -/
namespace NTrade.Lib.TowardZero

variable {K : Type*} [Field K] [LinearOrder K] [FloorRing K]

def trunc (x : K) : Int := if 0 ≤ x then ⌊x⌋ else ⌈x⌉

section One

/-- Truncation does not go past a value. -/
theorem trunc_nonneg {x : K} (h : 0 ≤ x) : 0 ≤ trunc x ∧ (trunc x : K) ≤ x := by
  rw [trunc, if_pos h]
  exact ⟨Int.floor_nonneg.mpr h, Int.floor_le x⟩

variable [IsStrictOrderedRing K]

theorem trunc_neg (x : K) : trunc (-x) = -trunc x := by
  rcases lt_trichotomy x 0 with hx | rfl | hx
  · rw [trunc, trunc, if_pos (by linarith), if_neg hx.not_ge, Int.floor_neg]
  · simp [trunc]
  · rw [trunc, trunc, if_neg (by linarith), if_pos hx.le, Int.ceil_neg]

theorem trunc_nonpos {x : K} (h : x ≤ 0) : trunc x ≤ 0 ∧ x ≤ (trunc x : K) := by
  have hneg := trunc_nonneg (neg_nonneg.mpr h)
  rw [trunc_neg] at hneg
  push_cast at hneg
  exact ⟨by omega, by linarith [hneg.2]⟩

theorem mul_trunc_nonneg (x : K) : 0 ≤ x * trunc x := by
  rcases le_total 0 x with hx | hx
  · exact mul_nonneg hx (by exact_mod_cast (trunc_nonneg hx).1)
  · exact mul_nonneg_of_nonpos_of_nonpos hx (by exact_mod_cast (trunc_nonpos hx).1)

theorem abs_sub_trunc_lt (x : K) : |x - trunc x| < 1 := by
  rw [trunc, abs_lt]
  split
  · constructor <;> linarith [Int.floor_le x, Int.lt_floor_add_one x]
  · constructor <;> linarith [Int.le_ceil x, Int.ceil_lt_add_one x]

theorem abs_trunc_le (x : K) : |(trunc x : K)| ≤ |x| := by
  rcases le_total 0 x with hx | hx
  · obtain ⟨h0, h1⟩ := trunc_nonneg hx
    rw [abs_of_nonneg hx, abs_of_nonneg (by exact_mod_cast h0)]
    exact h1
  · obtain ⟨h0, h1⟩ := trunc_nonpos hx
    rw [abs_of_nonpos hx, abs_of_nonpos (by exact_mod_cast h0)]
    linarith

end One

section Shares
variable (share : K)

/-- The parts that a share makes of weights, each of them truncated. -/
def part (weight : Int) : Int := trunc (weight * share)

variable [IsStrictOrderedRing K]

theorem part_neg (weight : Int) : part (-share) weight = -part share weight := by
  rw [part, mul_neg, trunc_neg, part]

/-- Opposite shares have opposite parts. -/
theorem sum_parts_neg (weights : List Int) :
    (weights.map (part (-share))).sum = -(weights.map (part share)).sum := by
  induction weights with
  | nil => rfl
  | cons w weights ih =>
    rw [List.map_cons, List.sum_cons, ih, part_neg, List.map_cons, List.sum_cons]
    omega

theorem sum_parts_zero (weights : List Int) : (weights.map (part (0 : K))).sum = 0 := by
  have hneg := sum_parts_neg (0 : K) weights
  rw [neg_zero] at hneg
  omega

variable {share} {weights : List Int}

theorem abs_part_le (share : K) {weight : Int} (h : (0 : K) ≤ weight) : |(part share weight : K)| ≤ weight * |share| := by
  rw [← abs_of_nonneg h, ← abs_mul]
  exact abs_trunc_le _

/-- A share of less than all leaves of each weight at least one. -/
theorem abs_part_lt (hshare : |share| < 1) {weight : Int} (h : 1 ≤ weight) : |part share weight| < weight := by
  have hw : (0 : K) < weight := by exact_mod_cast (show 0 < weight by omega)
  have hlt : |(part share weight : K)| < (weight : K) := by
    calc
      |(part share weight : K)| ≤ weight * |share| := abs_part_le share hw.le
      _ < weight * 1 := mul_lt_mul_of_pos_left hshare hw
      _ = weight := mul_one _
  exact_mod_cast hlt

/-- The parts are no more than the share of the sum. -/
theorem abs_sum_parts_le (share : K) (h : ∀ w ∈ weights, (1 : Int) ≤ w) :
    |(((weights.map (part share)).sum : Int) : K)| ≤ (weights.sum : Int) * |share| := by
  induction weights with
  | nil => simp
  | cons w weights ih =>
    have hw : (0 : K) ≤ w := by exact_mod_cast (show 0 ≤ w by have := h w List.mem_cons_self; omega)
    rw [List.map_cons, List.sum_cons, List.sum_cons, Int.cast_add, Int.cast_add]
    calc
      _ ≤ |(part share w : K)| + |(((weights.map (part share)).sum : Int) : K)| := abs_add_le _ _
      _ ≤ w * |share| + (weights.sum : Int) * |share| :=
        add_le_add (abs_part_le share hw) (ih fun v hv => h v (List.mem_cons_of_mem _ hv))
      _ = _ := (add_mul _ _ _).symm

/-- The parts are on the side of the share. -/
theorem mul_sum_parts_nonneg (share : K) (h : ∀ w ∈ weights, (1 : Int) ≤ w) :
    0 ≤ share * ((weights.map (part share)).sum : Int) := by
  induction weights with
  | nil => simp
  | cons w weights ih =>
    have hw : (0 : K) < w := by exact_mod_cast (show 0 < w by have := h w List.mem_cons_self; omega)
    have hpart : 0 ≤ share * part share w := by
      have hprod := mul_trunc_nonneg ((w : K) * share)
      rw [mul_assoc] at hprod
      exact nonneg_of_mul_nonneg_right hprod hw
    rw [List.map_cons, List.sum_cons, Int.cast_add, mul_add]
    exact add_nonneg hpart (ih fun v hv => h v (List.mem_cons_of_mem _ hv))

/-- What is lost is less than one for each weight. -/
theorem abs_sub_sum_parts_lt (share : K) (hne : weights ≠ []) :
    |(weights.sum : Int) * share - ((weights.map (part share)).sum : Int)| < weights.length := by
  induction weights with
  | nil => exact absurd rfl hne
  | cons w weights ih =>
    have hw := abs_lt.mp (abs_sub_trunc_lt ((w : K) * share))
    rw [← part] at hw
    rw [List.map_cons, List.sum_cons, List.sum_cons, List.length_cons, Int.cast_add, Int.cast_add, Nat.cast_add,
      Nat.cast_one, abs_lt]
    cases weights with
    | nil =>
      rw [List.map_nil, List.sum_nil, List.length_nil, Int.cast_zero, Nat.cast_zero]
      constructor <;> linarith
    | cons v weights =>
      have hrest := abs_lt.mp (ih (List.cons_ne_nil v weights))
      constructor <;> linarith

end Shares

end NTrade.Lib.TowardZero
