import NTrade.Domain.Order
import NTrade.Lib.Dict
import NTrade.Lib.HalfEven
import Mathlib.Data.Rat.Floor
import Mathlib.Algebra.Group.Subgroup.ZPowers.Basic
import Mathlib.Tactic.Positivity
import Mathlib.Tactic.Linarith
import Mathlib.Tactic.Ring

/-! Commission and Indian statutory charges of a fill. -/
namespace NTrade.Execution
open NTrade.Domain NTrade.Lib

def roundHalfEven (q : Rat) : Int :=
  let f := ⌊q⌋
  if q - f < 1 / 2 then f
  else if 1 / 2 < q - f then f + 1
  else if f % 2 = 0 then f else f + 1

def PRICE_PRECISION : Nat := 4

/-- `round(x, ndigits)` in exact arithmetic. -/
def round (x : Rat) (ndigits : Nat) : Rat := roundHalfEven (x * 10 ^ ndigits) / 10 ^ ndigits

def grid (ndigits : Nat) : AddSubgroup Rat := AddSubgroup.zmultiples (1 / 10 ^ ndigits)

/-- This is the rounding of the library, at rational numbers. -/
theorem round_eq (x : Rat) (ndigits : Nat) : round x ndigits = HalfEven.decimals x ndigits := rfl

/-- Rounding moves a value by half of the last decimal at most. -/
theorem abs_round_sub_le (x : Rat) (ndigits : Nat) : |round x ndigits - x| ≤ 1 / 2 / 10 ^ ndigits := by
  rw [round_eq]
  exact HalfEven.abs_decimals_sub_le x ndigits

theorem round_mono {x y : Rat} (h : x ≤ y) (ndigits : Nat) : round x ndigits ≤ round y ndigits := by
  rw [round_eq, round_eq]
  exact HalfEven.decimals_mono h ndigits

theorem round_mem (x : Rat) (ndigits : Nat) : round x ndigits ∈ grid ndigits := by
  rw [round, grid, AddSubgroup.mem_zmultiples_iff]
  exact ⟨roundHalfEven (x * 10 ^ ndigits), by rw [zsmul_eq_mul, mul_one_div]⟩

theorem round_of_mem {x : Rat} {ndigits : Nat} (h : x ∈ grid ndigits) : round x ndigits = x := by
  obtain ⟨n, rfl⟩ := AddSubgroup.mem_zmultiples_iff.mp h
  have hp : (10 ^ ndigits : Rat) ≠ 0 := by positivity
  have hx : n • (1 / 10 ^ ndigits : Rat) * 10 ^ ndigits = n := by
    rw [zsmul_eq_mul, mul_assoc, one_div, inv_mul_cancel₀ hp, mul_one]
  rw [round_eq]
  exact HalfEven.decimals_of_mul_pow hx

/-- Shares at a price on the grid cost an amount on the grid. -/
theorem mul_intCast_mem {x : Rat} {ndigits : Nat} (h : x ∈ grid ndigits) (n : Int) : x * n ∈ grid ndigits := by
  rw [mul_comm, ← zsmul_eq_mul]
  exact AddSubgroup.zsmul_mem _ h n

/-- Values that round to the same differ by the last decimal at most. -/
theorem abs_sub_le_of_round_eq {x y : Rat} {ndigits : Nat} (h : round x ndigits = round y ndigits) :
    |x - y| ≤ 1 / 10 ^ ndigits := by
  have hx := abs_le.mp (abs_round_sub_le x ndigits)
  have hy := abs_le.mp (abs_round_sub_le y ndigits)
  have he : (1 : Rat) / 10 ^ ndigits = 1 / 2 / 10 ^ ndigits + 1 / 2 / 10 ^ ndigits := by
    rw [← add_div, add_halves]
  rw [abs_le]
  constructor <;> linarith

/-- Each of several roundings moves their sum by half of the last decimal at most. -/
theorem abs_sum_round_sub_le (xs : List Rat) (ndigits : Nat) :
    |(xs.map fun x => round x ndigits).sum - xs.sum| ≤ xs.length * (1 / 2 / 10 ^ ndigits) := by
  induction xs with
  | nil => simp
  | cons x xs ih =>
    have hx := abs_round_sub_le x ndigits
    rw [List.map_cons, List.sum_cons, List.sum_cons, List.length_cons, Nat.cast_succ, add_mul, one_mul,
      add_sub_add_comm, add_comm (_ * _)]
    exact (abs_add_le _ _).trans (add_le_add hx ih)

structure SlippageModel where
  apply : Rat → String → Rat

def FixedSlippage (points : Rat) : SlippageModel :=
  ⟨fun price side => if side = "BUY" then price + points else price - points⟩

structure CommissionModel where
  apply : Rat → Rat

def FlatCommission (amount : Rat) : CommissionModel := ⟨fun _ => amount⟩

def PercentageCommission (pct minimum : Rat) : CommissionModel := ⟨fun notional => max (notional * pct) minimum⟩

inductive Product where
  | equity | futures | options
  deriving DecidableEq, Repr

def Product.value : Product → String
  | .equity => "equity"
  | .futures => "futures"
  | .options => "options"

structure IndianStatutoryCosts where
  product : Product
  delivery : Bool
  brokerage : Rat
  sttRates : Dict String Rat
  exchangeRates : Dict String Rat
  sebiFee : Rat
  gstRate : Rat
  stampRates : Dict String Rat

namespace IndianStatutoryCosts

private def STT : Dict String Rat :=
  ⟨[("equity_delivery_buy", 25 / 100000), ("equity_delivery_sell", 1 / 1000),
    ("equity_intraday_sell", 25 / 100000), ("fno_buy", 625 / 1000000), ("fno_sell", 125 / 100000)], by decide⟩

private def EXCHANGE_CHARGE : Dict String Rat :=
  ⟨[("equity", 297 / 10000000), ("futures", 173 / 10000000), ("options", 503 / 1000000)], by decide⟩

private def STAMP_DUTY : Dict String Rat :=
  ⟨[("equity_delivery_buy", 3 / 100000), ("equity_intraday", 2 / 100000), ("fno", 1 / 10000)], by decide⟩

def default : IndianStatutoryCosts where
  product := .equity
  delivery := false
  brokerage := 0
  sttRates := STT
  exchangeRates := EXCHANGE_CHARGE
  sebiFee := 1 / 1000000
  gstRate := 18 / 100
  stampRates := STAMP_DUTY

variable (c : IndianStatutoryCosts)

def sttKey (side : String) : String :=
  let sell := side.toUpper = "SELL"
  if c.product = .futures ∨ c.product = .options then
    if sell then "fno_sell" else "fno_buy"
  else if c.delivery then
    if sell then "equity_delivery_sell" else "equity_delivery_buy"
  else if sell then "equity_intraday_sell" else "equity_intraday_buy"

def stt (notional : Rat) (side : String) : Rat := notional * c.sttRates.getD (c.sttKey side) 0

def exchangeCharge (notional : Rat) : Rat := notional * c.exchangeRates.getD c.product.value 0

def sebi (notional : Rat) : Rat := notional * c.sebiFee

def stamp (notional : Rat) (side : String) : Rat :=
  if side.toUpper = "SELL" then 0
  else
    let key :=
      if c.product = .futures ∨ c.product = .options then "fno"
      else if c.delivery then "equity_delivery_buy" else "equity_intraday"
    notional * c.stampRates.getD key 0

def gst (notional : Rat) (brokerage : Option Rat) : Rat :=
  (brokerage.getD c.brokerage + c.exchangeCharge notional + c.sebi notional) * c.gstRate

def totalCost (notional : Rat) (side : String) (brokerage : Option Rat) : Rat :=
  c.stt notional side + c.exchangeCharge notional + c.sebi notional + c.stamp notional side +
    c.gst notional brokerage

/-- The statutory charge of a leg is linear in its notional and in its brokerage. -/
theorem totalCost_some (notional brokerage : Rat) (side : String) :
    c.totalCost notional side (some brokerage) =
      notional * c.totalCost 1 side (some 0) + brokerage * c.gstRate := by
  rw [totalCost, totalCost, stt, stt, stamp, stamp, gst, gst, exchangeCharge, exchangeCharge, sebi, sebi]
  simp only [Option.getD_some]
  split <;> ring

def forInstrument (instrument : Instrument) (delivery : Option Bool) : IndianStatutoryCosts :=
  match instrument.kind with
  | .option => { c with product := .options, delivery := delivery.getD false }
  | .future => { c with product := .futures, delivery := delivery.getD false }
  | _ => { c with delivery := delivery.getD c.delivery }

end IndianStatutoryCosts
end NTrade.Execution
