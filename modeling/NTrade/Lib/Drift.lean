import Mathlib.Algebra.Order.Field.Basic
import Mathlib.Algebra.Order.AbsoluteValue.Basic
import Mathlib.Tactic.Linarith
import Mathlib.Tactic.Ring

/-! Totals that are rounded each time they move, against the totals that are not. -/
namespace NTrade.Lib
variable {K : Type*} [Field K] [LinearOrder K]

/-- After `n` roundings of at most `u` each a total is this near to the one that is not rounded. -/
def Drift (u : K) (n : Nat) (x y : K) : Prop := |x - y| ≤ n * u

namespace Drift
variable {u x y x' y' : K} {n m : Nat} {rnd : K → K}

theorem neg (h : Drift u n x y) : Drift u n (-x) (-y) := by
  rw [Drift] at h ⊢
  rw [neg_sub_neg, abs_sub_comm]
  exact h

theorem rounded (hr : ∀ x, |rnd x - x| ≤ u) (x : K) : Drift u 1 (rnd x) x := by
  rw [Drift, Nat.cast_one, one_mul]
  exact hr x

variable [IsStrictOrderedRing K]

theorem refl (u x : K) : Drift u 0 x x := by
  rw [Drift, sub_self, abs_zero, Nat.cast_zero, zero_mul]

theorem mono (h : Drift u n x y) (hu : 0 ≤ u) (hnm : n ≤ m) : Drift u m x y := by
  rw [Drift] at h ⊢
  exact h.trans (mul_le_mul_of_nonneg_right (Nat.cast_le.mpr hnm) hu)

theorem add (h : Drift u n x y) (h' : Drift u m x' y') : Drift u (n + m) (x + x') (y + y') := by
  rw [Drift, add_sub_add_comm, Nat.cast_add, add_mul]
  exact (abs_add_le _ _).trans (add_le_add h h')

theorem sub (h : Drift u n x y) (h' : Drift u m x' y') : Drift u (n + m) (x - x') (y - y') := by
  rw [sub_eq_add_neg, sub_eq_add_neg]
  exact h.add h'.neg

theorem trans (h : Drift u n x y) (h' : Drift u m y y') : Drift u (n + m) x y' := by
  rw [Drift, Nat.cast_add, add_mul]
  exact (abs_sub_le x y y').trans (add_le_add h h')

/-- A movement rounds once more. -/
theorem move (hr : ∀ x, |rnd x - x| ≤ u) (h : Drift u n x y) (d : K) : Drift u (n + 1) (rnd (x + d)) (y + d) := by
  have hd : Drift u n (x + d) (y + d) := h.add (refl u d)
  rw [Nat.add_comm]
  exact (rounded hr (x + d)).trans hd

end Drift
end NTrade.Lib
