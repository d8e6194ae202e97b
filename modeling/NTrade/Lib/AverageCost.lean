import Mathlib.Algebra.Order.Ring.Rat
import Mathlib.Algebra.Order.Field.Basic
import Mathlib.Algebra.BigOperators.Group.List.Basic
import Mathlib.Tactic.Linarith
import Mathlib.Tactic.Positivity

/-! Average-cost accounting of signed trades in one instrument, long or short. -/
namespace NTrade.Lib

structure Holding where
  quantity : Int
  average : Rat

namespace Holding

def flat : Holding := ⟨0, 0⟩

/-- Adding in the direction of a holding averages the prices, a partial exit keeps the
average, opening and reversing through zero start from the price of the trade. -/
def trade (h : Holding) (n : Int) (price : Rat) : Holding where
  quantity := h.quantity + n
  average :=
    if h.quantity + n = 0 then 0
    else if h.quantity = 0 then price
    else if 0 < h.quantity * n then (|(h.quantity : Rat)| * h.average + |(n : Rat)| * price) / |(h.quantity + n : Rat)|
    else if |n| < |h.quantity| then h.average
    else price

def ofTrades (trades : List (Int × Rat)) : Holding := trades.foldl (fun h t => h.trade t.1 t.2) flat

@[simp] theorem ofTrades_concat (trades : List (Int × Rat)) (n : Int) (price : Rat) :
    ofTrades (trades ++ [(n, price)]) = (ofTrades trades).trade n price := by
  simp [ofTrades]

theorem quantity_ofTrades (trades : List (Int × Rat)) : (ofTrades trades).quantity = (trades.map Prod.fst).sum := by
  induction trades using List.reverseRecOn with
  | nil => rfl
  | append_singleton trades t ih =>
    rw [show trades ++ [t] = trades ++ [(t.1, t.2)] from rfl, ofTrades_concat]
    simp [trade, ih]

theorem average_trade_nonneg {h : Holding} {n : Int} {price : Rat} (hh : 0 ≤ h.average) (hp : 0 ≤ price) :
    0 ≤ (h.trade n price).average := by
  unfold trade
  dsimp only
  split
  · exact le_refl 0
  · split
    · exact hp
    · split
      · positivity
      · split
        · exact hh
        · exact hp

theorem average_nonneg {trades : List (Int × Rat)} (h : ∀ t ∈ trades, 0 ≤ t.2) : 0 ≤ (ofTrades trades).average := by
  induction trades using List.reverseRecOn with
  | nil => exact le_refl 0
  | append_singleton trades t ih =>
    rw [show trades ++ [t] = trades ++ [(t.1, t.2)] from rfl, ofTrades_concat]
    exact average_trade_nonneg (ih fun s hs => h s (List.mem_append_left _ hs)) (h t (by simp))

/-- What turns a holding around is larger than it. -/
theorem reverses {q n : Int} (hs : ¬0 < q * n) (hr : q * (q + n) < 0) : |q| < |n| := by
  rw [← sq_lt_sq]
  nlinarith

/-- What leaves a part of a holding is smaller than it. -/
theorem exits {q n : Int} (hq : q ≠ 0) (hs : ¬0 < q * n) (hz : q + n ≠ 0) (hr : ¬q * (q + n) < 0) :
    |n| < |q| := by
  rcases lt_or_gt_of_ne hq with hq | hq
  · have hn : 0 ≤ n := by
      by_contra hn
      exact hs (mul_pos_of_neg_of_neg hq (not_le.mp hn))
    have hsum : q + n < 0 := by
      rcases lt_or_gt_of_ne hz with h | h
      · exact h
      · exact absurd (mul_neg_of_neg_of_pos hq h) hr
    rw [abs_of_neg hq, abs_of_nonneg hn]
    omega
  · have hn : n ≤ 0 := by
      by_contra hn
      exact hs (mul_pos hq (not_le.mp hn))
    have hsum : 0 < q + n := by
      rcases lt_or_gt_of_ne hz with h | h
      · exact absurd (mul_neg_of_pos_of_neg hq h) hr
      · exact h
    rw [abs_of_pos hq, abs_of_nonpos hn]
    omega

end Holding
end NTrade.Lib
