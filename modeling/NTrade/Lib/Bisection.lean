import Mathlib.Topology.Order.IntermediateValue
import Mathlib.Topology.Algebra.Order.Field
import Mathlib.Data.Real.Basic
import Mathlib.Topology.Instances.Real.Lemmas
import Mathlib.Tactic.Linarith
import Mathlib.Tactic.Ring

/-! Bisection of a bracket for a value of a function, with an early exit and a cap on the steps. -/
namespace NTrade.Lib.Bisection

section Search

variable {K : Type*} [Field K] [LinearOrder K] [IsStrictOrderedRing K]

/-- Halve the bracket until the value in its middle is within the tolerance, `n` times at most. -/
def bisect (f : K → K) (y tol : K) : Nat → K → K → K
  | 0, lo, hi => (lo + hi) / 2
  | n + 1, lo, hi =>
    let mid := (lo + hi) / 2
    if |f mid - y| < tol then mid
    else if f mid < y then bisect f y tol n mid hi
    else bisect f y tol n lo mid

/-- An interval with the value between those at its ends. -/
structure Brackets (f : K → K) (y lo hi : K) : Prop where
  ordered : lo ≤ hi
  below : f lo ≤ y
  above : y ≤ f hi

variable {f : K → K} {y lo hi : K}

theorem Brackets.mid (h : Brackets f y lo hi) : lo ≤ (lo + hi) / 2 ∧ (lo + hi) / 2 ≤ hi := by
  have hle := h.ordered
  constructor <;> linarith

omit [Field K] [IsStrictOrderedRing K] in
theorem Brackets.raise (h : Brackets f y lo hi) {mid : K} (hmid : mid ≤ hi) (hf : f mid < y) : Brackets f y mid hi :=
  ⟨hmid, hf.le, h.above⟩

omit [Field K] [IsStrictOrderedRing K] in
theorem Brackets.lower (h : Brackets f y lo hi) {mid : K} (hmid : lo ≤ mid) (hf : ¬ f mid < y) : Brackets f y lo mid :=
  ⟨hmid, h.below, not_lt.mp hf⟩

/-- The search ends in the middle of a bracket inside the first one, where it is near enough or after all halvings. -/
theorem bisect_brackets (tol : K) (n : Nat) (h : Brackets f y lo hi) :
    ∃ lo' hi', Brackets f y lo' hi' ∧ lo ≤ lo' ∧ hi' ≤ hi ∧ bisect f y tol n lo hi = (lo' + hi') / 2 ∧
      (|f ((lo' + hi') / 2) - y| < tol ∨ hi' - lo' = (hi - lo) / 2 ^ n) := by
  induction n generalizing lo hi with
  | zero => exact ⟨lo, hi, h, le_rfl, le_rfl, rfl, .inr (by rw [pow_zero, div_one])⟩
  | succ n ih =>
    obtain ⟨hlo, hhi⟩ := h.mid
    rw [bisect]
    by_cases hnear : |f ((lo + hi) / 2) - y| < tol
    · exact ⟨lo, hi, h, le_rfl, le_rfl, if_pos hnear, .inl hnear⟩
    · rw [if_neg hnear]
      split_ifs with hlt
      · obtain ⟨lo', hi', hbr, h1, h2, he, hw⟩ := ih (h.raise hhi hlt)
        refine ⟨lo', hi', hbr, hlo.trans h1, h2, he, hw.imp_right fun hw => ?_⟩
        rw [hw, pow_succ']
        ring
      · obtain ⟨lo', hi', hbr, h1, h2, he, hw⟩ := ih (h.lower hlo hlt)
        refine ⟨lo', hi', hbr, h1, h2.trans hhi, he, hw.imp_right fun hw => ?_⟩
        rw [hw, pow_succ']
        ring

end Search

section Roots

open Set

variable {f : ℝ → ℝ} {y lo hi : ℝ}

/-- A continuous function takes the value in the bracket. -/
theorem Brackets.exists_root (h : Brackets f y lo hi) (hf : ContinuousOn f (Icc lo hi)) : ∃ r ∈ Icc lo hi, f r = y :=
  intermediate_value_Icc h.ordered hf ⟨h.below, h.above⟩

/-- A monotone and continuous function takes the values between those at the ends of an interval, and no other. -/
theorem exists_root_iff (hle : lo ≤ hi) (hmono : MonotoneOn f (Icc lo hi)) (hf : ContinuousOn f (Icc lo hi)) :
    (∃ r ∈ Icc lo hi, f r = y) ↔ f lo ≤ y ∧ y ≤ f hi := by
  constructor
  · rintro ⟨r, hr, rfl⟩
    exact ⟨hmono (left_mem_Icc.mpr hle) hr hr.1, hmono hr (right_mem_Icc.mpr hle) hr.2⟩
  · rintro ⟨hlo, hhi⟩
    exact Brackets.exists_root ⟨hle, hlo, hhi⟩ hf

/-- What the search finds is in the interval, and near a root: its value is within the tolerance of that of the root,
or it is itself within half of the last bracket of it. -/
theorem bisect_near_root (tol : ℝ) (n : Nat) (h : Brackets f y lo hi) (hf : ContinuousOn f (Icc lo hi)) :
    bisect f y tol n lo hi ∈ Icc lo hi ∧ ∃ r ∈ Icc lo hi, f r = y ∧
      (|f (bisect f y tol n lo hi) - f r| < tol ∨ |bisect f y tol n lo hi - r| ≤ (hi - lo) / 2 ^ (n + 1)) := by
  obtain ⟨lo', hi', hbr, hlo, hhi, he, hw⟩ := bisect_brackets tol n h
  obtain ⟨r, hr, hroot⟩ := hbr.exists_root (hf.mono (Icc_subset_Icc hlo hhi))
  obtain ⟨hleft, hright⟩ := hbr.mid
  rw [he]
  refine ⟨⟨hlo.trans hleft, hright.trans hhi⟩, r, Icc_subset_Icc hlo hhi hr, hroot, ?_⟩
  rw [hroot]
  refine hw.imp_right fun hw => ?_
  have hhalf : (hi - lo) / 2 ^ (n + 1) = (hi' - lo') / 2 := by rw [hw, pow_succ, div_div]
  rw [hhalf, abs_le]
  constructor <;> linarith [hr.1, hr.2]

end Roots

end NTrade.Lib.Bisection
