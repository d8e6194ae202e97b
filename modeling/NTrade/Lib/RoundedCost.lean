import NTrade.Lib.AverageCost

/-! Average-cost accounting where every average is rounded, and how far its prices are from
those of the account that rounds nothing. -/
namespace NTrade.Lib.Holding
variable (rnd : Rat → Rat)

def tradeRounded (h : Holding) (n : Int) (price : Rat) : Holding where
  quantity := h.quantity + n
  average :=
    if h.quantity + n = 0 then 0
    else if h.quantity = 0 then price
    else if 0 < h.quantity * n then
      rnd ((|(h.quantity : Rat)| * h.average + |(n : Rat)| * price) / |(h.quantity + n : Rat)|)
    else if |n| < |h.quantity| then h.average
    else price

def ofTradesRounded (trades : List (Int × Rat)) : Holding :=
  trades.foldl (fun h t => h.tradeRounded rnd t.1 t.2) flat

def averagedAfter (quantity : Int) (k : Nat) (n : Int) : Nat :=
  if quantity + n = 0 ∨ quantity = 0 then 0
  else if 0 < quantity * n then k + 1
  else if |n| < |quantity| then k
  else 0

/-- How often the price of what is held was averaged since it was entered. -/
def averaged (trades : List (Int × Rat)) : Nat :=
  (trades.foldl (fun s t => (s.1 + t.1, averagedAfter s.1 s.2 t.1)) ((0 : Int), 0)).2

variable {rnd} {trades : List (Int × Rat)}

theorem ofTradesRounded_concat (trades : List (Int × Rat)) (t : Int × Rat) :
    ofTradesRounded rnd (trades ++ [t]) = (ofTradesRounded rnd trades).tradeRounded rnd t.1 t.2 := by
  simp [ofTradesRounded]

theorem quantity_ofTradesRounded (trades : List (Int × Rat)) :
    (ofTradesRounded rnd trades).quantity = (ofTrades trades).quantity := by
  induction trades using List.reverseRecOn with
  | nil => rfl
  | append_singleton trades t ih =>
    rw [ofTradesRounded_concat, show trades ++ [t] = trades ++ [(t.1, t.2)] from rfl, ofTrades_concat]
    exact congrArg (· + t.1) ih

private theorem averaged_fold (trades : List (Int × Rat)) :
    (trades.foldl (fun s t => (s.1 + t.1, averagedAfter s.1 s.2 t.1)) ((0 : Int), 0)).1 = (ofTrades trades).quantity := by
  induction trades using List.reverseRecOn with
  | nil => rfl
  | append_singleton trades t ih =>
    rw [List.foldl_concat, show trades ++ [t] = trades ++ [(t.1, t.2)] from rfl, ofTrades_concat]
    exact congrArg (· + t.1) ih

theorem averaged_concat (trades : List (Int × Rat)) (t : Int × Rat) :
    averaged (trades ++ [t]) = averagedAfter (ofTrades trades).quantity (averaged trades) t.1 := by
  rw [averaged, List.foldl_concat, averaged_fold]
  rfl

/-- Averaging with further trades brings two prices closer. -/
private theorem abs_average_sub_le {q n : Int} {a b price : Rat} (h : 0 < q * n) :
    abs ((|(q : Rat)| * a + |(n : Rat)| * price) / |(q + n : Rat)| -
      (|(q : Rat)| * b + |(n : Rat)| * price) / |(q + n : Rat)|) ≤ |a - b| := by
  have hsum : |(q + n : Rat)| = |(q : Rat)| + |(n : Rat)| := by
    have h' : (0 : Rat) ≤ q * n := by exact_mod_cast h.le
    exact (abs_add_eq_add_abs_iff _ _).mpr (mul_nonneg_iff.mp h')
  have hq : 0 < |(q : Rat)| := by
    apply abs_pos.mpr
    rintro hz
    obtain rfl : q = 0 := by exact_mod_cast hz
    simp at h
  have hpos : 0 < |(q + n : Rat)| := by rw [hsum]; positivity
  calc
    _ = |(q : Rat)| / |(q + n : Rat)| * |a - b| := by
      rw [← sub_div, add_sub_add_right_eq_sub, ← mul_sub, abs_div, abs_mul, abs_abs, abs_abs, mul_div_right_comm]
    _ ≤ 1 * |a - b| := by
      apply mul_le_mul_of_nonneg_right _ (abs_nonneg _)
      rw [div_le_one hpos, hsum]
      linarith [abs_nonneg (n : Rat)]
    _ = |a - b| := one_mul _

variable {ε : Rat}

/-- One trade moves the two prices apart by one rounding at most. -/
theorem abs_tradeRounded_sub_le (hr : ∀ x, |rnd x - x| ≤ ε) {h h' : Holding} (hq : h.quantity = h'.quantity) {k : Nat}
    (ha : |h.average - h'.average| ≤ k * ε) (n : Int) (price : Rat) :
    |(h.tradeRounded rnd n price).average - (h'.trade n price).average| ≤ averagedAfter h'.quantity k n * ε := by
  rw [tradeRounded, trade, averagedAfter, hq]
  dsimp only
  by_cases hz : h'.quantity + n = 0
  · simp [hz]
  · by_cases h0 : h'.quantity = 0
    · simp [h0]
    · rw [if_neg hz, if_neg hz, if_neg h0, if_neg h0, if_neg (not_or.mpr ⟨hz, h0⟩)]
      by_cases hs : 0 < h'.quantity * n
      · rw [if_pos hs, if_pos hs, if_pos hs, Nat.cast_succ, add_mul, one_mul, add_comm (_ * ε)]
        refine (abs_sub_le _ _ _).trans (add_le_add (hr _) ?_)
        exact (abs_average_sub_le hs).trans ha
      · rw [if_neg hs, if_neg hs, if_neg hs]
        by_cases hl : |n| < |h'.quantity|
        · rw [if_pos hl, if_pos hl, if_pos hl]
          exact ha
        · rw [if_neg hl, if_neg hl, if_neg hl]
          simp

/-- The prices of the two accounts differ by the roundings since what is held was entered. -/
theorem abs_ofTradesRounded_sub_le (hr : ∀ x, |rnd x - x| ≤ ε) (trades : List (Int × Rat)) :
    |(ofTradesRounded rnd trades).average - (ofTrades trades).average| ≤ averaged trades * ε := by
  induction trades using List.reverseRecOn with
  | nil => simp [ofTradesRounded, ofTrades, averaged]
  | append_singleton trades t ih =>
    rw [ofTradesRounded_concat, averaged_concat, show trades ++ [t] = trades ++ [(t.1, t.2)] from rfl, ofTrades_concat]
    exact abs_tradeRounded_sub_le hr (quantity_ofTradesRounded trades) ih t.1 t.2

end NTrade.Lib.Holding
