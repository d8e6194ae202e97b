import NTrade.Engines.CandleEngine
import NTrade.Execution.Simulator

/-! Limit orders against the bar of the run: whether they fill, and at which price. -/
namespace NTrade.Backtest
open NTrade.Domain NTrade.Events NTrade.Engines NTrade.Execution NTrade.Lib

def FillPolicy.limitFill (intent : OrderIntent) (bar : Ohlcv) : Option Rat :=
  if intent.side = "BUY" then
    if bar.low ≤ intent.price then some (min intent.price bar.open_) else none
  else if intent.price ≤ bar.high then some (max intent.price bar.open_)
  else none

namespace BarAwareExecution
variable (cfg : SimulatedConfig)

def submit (publish : Event → SimulatedExecution → SimulatedExecution) (bar : Option Ohlcv) (ltp : Option Rat)
    (intent : OrderIntent) (s : SimulatedExecution) : SimulatedExecution × Option OrderRejected :=
  if intent.orderType ≠ "MARKET" then
    match bar with
    | none => SimulatedExecution.submit cfg publish ltp intent s
    | some bar =>
      match FillPolicy.limitFill intent bar with
      | none => (s, some (rejection intent "limit not touched"))
      | some price => SimulatedExecution.submit cfg publish ltp { intent with price } s
  else SimulatedExecution.submit cfg publish ltp intent s

end BarAwareExecution

structure Bounded (bar : Ohlcv) : Prop where
  low_le_open : bar.low ≤ bar.open_
  open_le_high : bar.open_ ≤ bar.high
  low_le_close : bar.low ≤ bar.close
  close_le_high : bar.close ≤ bar.high

def TradesThrough (intent : OrderIntent) (bar : Ohlcv) : Prop :=
  if intent.side = "BUY" then bar.low ≤ intent.price else intent.price ≤ bar.high

instance (intent : OrderIntent) (bar : Ohlcv) : Decidable (TradesThrough intent bar) :=
  inferInstanceAs (Decidable (if intent.side = "BUY" then bar.low ≤ intent.price else intent.price ≤ bar.high))

def AtLeastAsGood (intent : OrderIntent) (price : Rat) : Prop :=
  if intent.side = "BUY" then price ≤ intent.price else intent.price ≤ price

/-- The order is filled whole at a price of the bar, rounded, that is no worse than its limit. -/
def FilledWithin (intent : OrderIntent) (bar : Ohlcv) (s : SimulatedExecution)
    (result : SimulatedExecution × Option OrderRejected) : Prop :=
  result.2 = none ∧ ∃ fill price, result.1.fills.getLast? = some fill ∧ fill.orderId = simId (s.seq + 1) ∧
    fill.symbol = intent.symbol ∧ fill.side = intent.side ∧ fill.quantity = intent.quantity ∧
    fill.fillPrice = round price PRICE_PRECISION ∧ bar.low ≤ price ∧ price ≤ bar.high ∧ AtLeastAsGood intent price

def Fillable (cfg : SimulatedConfig) (intent : OrderIntent) (bar : Ohlcv) : Prop :=
  (cfg.instrument intent.symbol).isSome ∧ TradesThrough intent bar ∧ (intent.side = "BUY" → 0 < bar.open_)

section
open FillPolicy
variable {cfg : SimulatedConfig} {publish : Event → SimulatedExecution → SimulatedExecution} {bar : Ohlcv}
  {ltp : Option Rat} {intent : OrderIntent} {s : SimulatedExecution} {price : Rat}

theorem limitFill_eq_none : limitFill intent bar = none ↔ ¬TradesThrough intent bar := by
  rw [limitFill, TradesThrough]
  split_ifs with hb hl hl
  · simpa using hl
  · simpa using hl
  · simpa using hl
  · simpa using hl

/-- The price of a limit order is within the bar and no worse than the limit. -/
theorem limitFill_within (hbar : Bounded bar) (h : limitFill intent bar = some price) :
    bar.low ≤ price ∧ price ≤ bar.high ∧ AtLeastAsGood intent price := by
  rw [limitFill] at h
  rw [AtLeastAsGood]
  split_ifs at h ⊢ with hb hl hl
  · obtain rfl := Option.some.inj h
    exact ⟨le_min hl hbar.low_le_open, (min_le_right _ _).trans hbar.open_le_high, min_le_left _ _⟩
  · obtain rfl := Option.some.inj h
    exact ⟨hbar.low_le_open.trans (le_max_right _ _), max_le hl hbar.open_le_high, le_max_left _ _⟩

theorem limitFill_pos (hprice : 0 < intent.price) (h : limitFill intent bar = some price) :
    0 < price ↔ (intent.side = "BUY" → 0 < bar.open_) := by
  rw [limitFill] at h
  split_ifs at h with hb hl hl
  · obtain rfl := Option.some.inj h
    rw [lt_min_iff, forall_prop_of_true hb]
    exact and_iff_right hprice
  · obtain rfl := Option.some.inj h
    exact iff_of_true (lt_max_of_lt_left hprice) fun hs => absurd hs hb

theorem executedPrice_limit (htype : intent.orderType ≠ "MARKET") (price : Rat) :
    SimulatedExecution.executedPrice cfg { intent with price } ltp =
      if price ≤ 0 then .error "invalid fill price" else .ok price :=
  if_neg htype

/-- An order that cannot be filled is rejected, and nothing else happens. -/
theorem rejected_of_not_fillable (htype : intent.orderType ≠ "MARKET") (hprice : 0 < intent.price)
    (h : ¬Fillable cfg intent bar) :
    ∃ reason, BarAwareExecution.submit cfg publish (some bar) ltp intent s = (s, some (rejection intent reason)) := by
  rw [BarAwareExecution.submit, if_pos htype]
  cases hfill : limitFill intent bar with
  | none => exact ⟨_, rfl⟩
  | some price =>
    have htrades : TradesThrough intent bar := by
      by_contra hno
      rw [limitFill_eq_none.mpr hno] at hfill
      cases hfill
    dsimp only
    rw [SimulatedExecution.submit]
    dsimp only
    cases hi : cfg.instrument intent.symbol with
    | none => exact ⟨_, rfl⟩
    | some instrument =>
      have hpos : ¬0 < price := fun hp => h ⟨by rw [hi]; rfl, htrades, (limitFill_pos hprice hfill).mp hp⟩
      dsimp only
      rw [executedPrice_limit htype, if_pos (not_lt.mp hpos)]
      exact ⟨_, rfl⟩

theorem filled_of_fillable (hbar : Bounded bar) (htype : intent.orderType ≠ "MARKET") (hprice : 0 < intent.price)
    (h : Fillable cfg intent bar) :
    FilledWithin intent bar s (BarAwareExecution.submit cfg publish (some bar) ltp intent s) := by
  obtain ⟨hknown, htrades, hopen⟩ := h
  obtain ⟨instrument, hi⟩ := Option.isSome_iff_exists.mp hknown
  cases hfill : limitFill intent bar with
  | none => exact absurd htrades (limitFill_eq_none.mp hfill)
  | some price =>
    have hpos : 0 < price := (limitFill_pos hprice hfill).mpr hopen
    have hexec : SimulatedExecution.executedPrice cfg { intent with price } ltp = .ok price := by
      rw [executedPrice_limit htype, if_neg (not_le.mpr hpos)]
    have hsubmit : BarAwareExecution.submit cfg publish (some bar) ltp intent s =
        SimulatedExecution.submit cfg publish ltp { intent with price } s := by
      rw [BarAwareExecution.submit, if_pos htype, hfill]
    have hnone : (SimulatedExecution.submit cfg publish ltp { intent with price } s).2 = none := by
      rw [SimulatedExecution.submit]
      dsimp only
      rw [hi]
      dsimp only
      rw [hexec]
    obtain ⟨hlow, hhigh, hgood⟩ := limitFill_within hbar hfill
    rw [hsubmit]
    exact ⟨hnone, _, price, SimulatedExecution.fills_submit hi hexec, rfl, rfl, rfl, rfl, rfl, hlow, hhigh, hgood⟩

/-- On a valid bar a limit order fills within the bar and no worse than its limit exactly when its instrument is
registered, the bar reaches the limit and a purchase at the open has a price; otherwise it is rejected and nothing
changes. -/
theorem limit_fills_iff (hbar : Bounded bar) (htype : intent.orderType ≠ "MARKET") (hprice : 0 < intent.price) :
    (FilledWithin intent bar s (BarAwareExecution.submit cfg publish (some bar) ltp intent s) ↔ Fillable cfg intent bar) ∧
      (¬Fillable cfg intent bar →
        ∃ reason, BarAwareExecution.submit cfg publish (some bar) ltp intent s = (s, some (rejection intent reason))) := by
  refine ⟨⟨fun hf => ?_, filled_of_fillable hbar htype hprice⟩, rejected_of_not_fillable htype hprice⟩
  by_contra hno
  obtain ⟨reason, hrej⟩ := @rejected_of_not_fillable cfg publish bar ltp intent s htype hprice hno
  rw [hrej] at hf
  cases hf.1

end

private def limitBuy : OrderIntent where
  symbol := "TCS"
  exchange := "NSE"
  side := "BUY"
  quantity := 10
  price := 100

private def onlyTcs : SimulatedConfig where
  instrument symbol := if symbol = "TCS" then some ⟨"TCS", "NSE", .equity, false⟩ else none
  date _ := 0

private def gapDown : Ohlcv := ⟨98, 101, 97, 99, 1000⟩

theorem fills_at_open :
    (FilledWithin limitBuy gapDown {} (BarAwareExecution.submit onlyTcs (fun _ s => s) (some gapDown) none limitBuy {}) ↔
        Fillable onlyTcs limitBuy gapDown) ∧
      (¬Fillable onlyTcs limitBuy gapDown →
        ∃ reason, BarAwareExecution.submit onlyTcs (fun _ s => s) (some gapDown) none limitBuy {} =
          ({}, some (rejection limitBuy reason))) :=
  limit_fills_iff ⟨by decide +kernel, by decide +kernel, by decide +kernel, by decide +kernel⟩ (by decide) (by decide +kernel)

/-- Bars that reach the limit of a purchase: of a symbol that is not registered, and with an open of nothing. -/
theorem reached_and_rejected :
    (Bounded gapDown ∧ TradesThrough { limitBuy with symbol := "INFY" } gapDown ∧
      (BarAwareExecution.submit onlyTcs (fun _ s => s) (some gapDown) none { limitBuy with symbol := "INFY" } {}).2 ≠ none) ∧
    (Bounded { gapDown with open_ := 0, low := 0 } ∧ TradesThrough limitBuy { gapDown with open_ := 0, low := 0 } ∧
      (BarAwareExecution.submit onlyTcs (fun _ s => s) (some { gapDown with open_ := 0, low := 0 }) none limitBuy {}).2 ≠ none) := by
  refine ⟨⟨⟨?_, ?_, ?_, ?_⟩, ?_, ?_⟩, ⟨⟨?_, ?_, ?_, ?_⟩, ?_, ?_⟩⟩
  all_goals decide +kernel

end NTrade.Backtest
