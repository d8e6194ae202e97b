import Mathlib.Algebra.Order.Ring.Rat
import Mathlib.Algebra.Order.Field.Basic
import Mathlib.Tactic.Linarith
import Mathlib.Tactic.Positivity

/-! Directional movement: what a range gains on one side of the one before it. The gains on both sides come
to no more than the true range, so that they are shares of it. -/
namespace NTrade.Lib.Directional

def gain (own other : Rat) : Rat := if other < own ∧ 0 < own then own else 0

theorem gain_nonneg (own other : Rat) : 0 ≤ gain own other := by
  rw [gain]
  split_ifs with h
  · exact h.2.le
  · exact le_rfl

/-- One side gains at most. -/
theorem gain_add_gain_le {a b t : Rat} (ha : a ≤ t) (hb : b ≤ t) (ht : 0 ≤ t) : gain a b + gain b a ≤ t := by
  rw [gain, gain]
  split_ifs with h h'
  · exact absurd h.1 h'.1.not_gt
  · linarith
  · linarith
  · linarith

/-- The gains of a range on the one before it, against its true range. -/
theorem gain_le_range {high low high' low' close' : Rat} (h : low ≤ high) (hl : low' ≤ close') (hh : close' ≤ high') :
    gain (high - high') (low' - low) + gain (low' - low) (high - high') ≤
      max (max (high - low) |high - close'|) |low - close'| := by
  apply gain_add_gain_le
  · refine le_trans ?_ (le_max_left _ _)
    refine le_trans ?_ (le_max_right _ _)
    exact le_trans (by linarith) (le_abs_self _)
  · refine le_trans ?_ (le_max_right _ _)
    exact le_trans (by linarith) (neg_le_abs _)
  · refine le_trans ?_ (le_max_left _ _)
    exact le_trans (by linarith) (le_max_left _ _)

/-- Percentages of a whole that is not less than the parts together. -/
theorem share_bounds {p m s : Rat} (hp : 0 ≤ p) (hm : 0 ≤ m) (hs : 0 < s) (h : p + m ≤ s) :
    0 ≤ 100 * p / s ∧ 0 ≤ 100 * m / s ∧ 100 * p / s + 100 * m / s ≤ 100 := by
  refine ⟨by positivity, by positivity, ?_⟩
  rw [← add_div, ← mul_add, div_le_iff₀ hs]
  linarith

/-- How far two parts are apart, in percent of both. -/
theorem contrast_bounds {p m s : Rat} (hp : 0 ≤ p) (hm : 0 ≤ m) (hs : 0 < s) (h : p + m ≤ s) :
    0 ≤ 100 * |p - m| / s ∧ 100 * |p - m| / s ≤ 100 := by
  have habs : |p - m| ≤ s := abs_le.mpr ⟨by linarith, by linarith⟩
  refine ⟨by positivity, ?_⟩
  rw [div_le_iff₀ hs]
  linarith

end NTrade.Lib.Directional
