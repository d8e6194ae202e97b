import NTrade.Engines.RiskEngine
import NTrade.Execution.CostParity

/-! The notional cap of the risk engine against what the simulated target executes. The two
choose their prices apart: the engine before approval, the target from the intent. -/
namespace NTrade.Engines
open NTrade.Domain NTrade.Events

def OrderEngine.intent (signal : SignalGenerated) : OrderIntent :=
  { symbol := signal.symbol, exchange := signal.exchange, side := signal.side, quantity := signal.quantity,
    orderType := signal.orderType, price := signal.price, referencePrice := signal.referencePrice.getD 0,
    strategy := signal.strategy, ts := signal.ts }

namespace RiskEngine
variable {e : RiskEngine} {signal : SignalGenerated} {r : Reading}

def screenedPrice (signal : SignalGenerated) (r : Reading) : Rat :=
  if signal.price ≤ 0 then r.referencePrice signal.symbol else signal.price

theorem checkNotional_eq_none {cap : Rat} (hcap : e.limits.maxNotional = some cap) :
    e.checkNotional signal r = none ↔
      0 < screenedPrice signal r ∧ screenedPrice signal r * signal.quantity ≤ cap := by
  rw [checkNotional, hcap]
  dsimp only
  rw [← screenedPrice]
  split_ifs with hp hn
  · simp [hp]
  · simp [hn]
  · exact ⟨fun _ => ⟨not_le.mp hp, not_lt.mp hn⟩, fun _ => rfl⟩

/-- An approved signal has passed the notional check. -/
theorem checkNotional_of_approved (h : e.check signal r = none) : e.checkNotional signal r = none := by
  rw [check] at h
  split_ifs at h
  split at h
  · cases h
  · split at h
    · cases h
    · next hn => exact hn

/-- An engine that has a notional cap only, at a fresh baseline. -/
def capped (cap equity : Rat) : RiskEngine where
  limits := { maxNotional := some cap }
  startBalance := equity

private theorem check_capped_eq (cap : Rat) : ((capped cap r.equity).updateBreakers r.equity).1.check signal r =
    match (capped cap r.equity).checkNotional signal r with
    | some refusal => some refusal
    | none => none := rfl

theorem check_capped {cap : Rat} (h : (capped cap r.equity).checkNotional signal r = none) :
    ((capped cap r.equity).updateBreakers r.equity).1.check signal r = none := by
  rw [check_capped_eq, h]

end RiskEngine
end NTrade.Engines

namespace NTrade.Execution
open NTrade.Domain NTrade.Events NTrade.Engines NTrade.Lib

def quotedPrice (intent : OrderIntent) (ltp : Option Rat) : Rat :=
  if intent.orderType = "MARKET" then orElse intent.referencePrice (ltp.getD 0) else intent.price

def SimulatedConfig.NoSlippage (cfg : SimulatedConfig) : Prop := ∀ price side, cfg.slippage.apply price side = price

/-- Whatever cap an engine approves a signal under, what the target fills of it is within. -/
def WithinCap (cfg : SimulatedConfig) (signal : SignalGenerated) (r : Reading) (ltp : Option Rat) : Prop :=
  ∀ (e : RiskEngine) (cap : Rat), e.limits.maxNotional = some cap →
    (e.updateBreakers r.equity).1.check signal r = none →
    ∀ a : SimulatedFill cfg, a.intent = OrderEngine.intent signal → a.ltp = ltp → a.fill.notional ≤ cap

/-- At the price of its fill a signal is worth no more than where the engine values it. -/
def PricedWithin (signal : SignalGenerated) (r : Reading) (ltp : Option Rat) : Prop :=
  let screened := RiskEngine.screenedPrice signal r
  let traded := quotedPrice (OrderEngine.intent signal) ltp
  0 < screened → 0 < traded → signal.quantity * round traded PRICE_PRECISION ≤ signal.quantity * screened

variable {cfg : SimulatedConfig} {signal : SignalGenerated} {r : Reading} {ltp : Option Rat}

/-- Without slippage an order executes at its quoted price, where that is one. -/
theorem executedPrice_eq_ok (hs : cfg.NoSlippage) {intent : OrderIntent} {price : Rat} :
    SimulatedExecution.executedPrice cfg intent ltp = .ok price ↔
      0 < quotedPrice intent ltp ∧ quotedPrice intent ltp = price := by
  rw [SimulatedExecution.executedPrice, quotedPrice]
  split_ifs with hm
  · dsimp only
    rw [hs, SimulatedExecution.validPrice]
    split_ifs with hp <;> simp [not_lt.mpr, hp, not_le.mp]
  · rw [SimulatedExecution.validPrice]
    split_ifs with hp <;> simp [not_lt.mpr, hp, not_le.mp]

theorem fill_notional (a : SimulatedFill cfg) : a.fill.notional = a.intent.quantity * round a.price PRICE_PRECISION := by
  rw [a.fill_eq]
  rfl

def SimulatedFill.of {instrument : Instrument} {intent : OrderIntent} {price : Rat}
    (known : cfg.instrument intent.symbol = some instrument)
    (executed : SimulatedExecution.executedPrice cfg intent ltp = .ok price) : SimulatedFill cfg where
  publish _ s := s
  before := {}
  ltp
  intent
  instrument
  price
  fill := _
  known
  executed
  last := SimulatedExecution.fills_submit known executed

/-- An order that declares its price is screened and filled at it. -/
theorem pricedWithin_of_declared (htype : signal.orderType ≠ "MARKET") (hgrid : signal.price ∈ grid PRICE_PRECISION) :
    PricedWithin signal r ltp := by
  have htraded : quotedPrice (OrderEngine.intent signal) ltp = signal.price := if_neg htype
  rw [PricedWithin, htraded]
  intro _ hpos
  rw [RiskEngine.screenedPrice, if_neg (not_le.mpr hpos)]
  rw [round_of_mem hgrid]

/-- A market order that declares no price and carries no reference is screened and filled at the last price. -/
theorem pricedWithin_of_quote {last prevClose : Rat} (htype : signal.orderType = "MARKET") (hprice : signal.price = 0)
    (href : signal.referencePrice = none) (hquote : r.quote signal.symbol = some (last, prevClose))
    (hgrid : last ∈ grid PRICE_PRECISION) : PricedWithin signal r (some last) := by
  have htraded : quotedPrice (OrderEngine.intent signal) (some last) = last := by
    rw [quotedPrice, OrderEngine.intent, if_pos htype, href]
    exact if_pos rfl
  rw [PricedWithin, htraded]
  intro _ hpos
  rw [RiskEngine.screenedPrice, if_pos hprice.le, Reading.referencePrice, hquote]
  dsimp only
  rw [orElse, if_neg hpos.ne', round_of_mem hgrid]

/-- The notional cap bounds what is executed without slippage exactly when the price of the fill does not raise the
worth of the signal above its price in the check, or its symbol is not registered. -/
theorem notional_cap_iff (hs : cfg.NoSlippage) :
    WithinCap cfg signal r ltp ↔ cfg.instrument signal.symbol = none ∨ PricedWithin signal r ltp := by
  constructor
  · intro h
    cases hi : cfg.instrument signal.symbol with
    | none => exact .inl rfl
    | some instrument =>
      refine .inr ?_
      intro hscreened htraded
      let cap := RiskEngine.screenedPrice signal r * signal.quantity
      have happroved : (RiskEngine.capped cap r.equity).checkNotional signal r = none :=
        (RiskEngine.checkNotional_eq_none rfl).mpr ⟨hscreened, le_rfl⟩
      have hle := h (RiskEngine.capped cap r.equity) cap rfl (RiskEngine.check_capped happroved)
        (SimulatedFill.of hi ((executedPrice_eq_ok hs).mpr ⟨htraded, rfl⟩)) rfl rfl
      rw [fill_notional] at hle
      exact hle.trans_eq (mul_comm _ _)
  · rintro h e cap hcap happroved a hintent hltp
    have hn := RiskEngine.checkNotional_of_approved happroved
    rw [RiskEngine.checkNotional_eq_none (by rw [RiskEngine.updateBreakers_keeps.2.1, hcap])] at hn
    obtain ⟨hscreened, hle⟩ := hn
    have hknown := a.known
    have hexec := a.executed
    rw [hintent] at hknown hexec
    rw [hltp] at hexec
    obtain ⟨htraded, hprice⟩ := (executedPrice_eq_ok hs).mp hexec
    rcases h with h | h
    · nomatch h.symm.trans hknown
    · calc
        a.fill.notional = signal.quantity * round a.price PRICE_PRECISION := by rw [fill_notional, hintent]; rfl
        _ ≤ signal.quantity * RiskEngine.screenedPrice signal r := by
          rw [← hprice]
          exact h hscreened htraded
        _ = RiskEngine.screenedPrice signal r * signal.quantity := mul_comm _ _
        _ ≤ cap := hle

private def frictionless : SimulatedConfig where
  instrument _ := some ⟨"TCS", "NSE", .equity, false⟩
  date _ := 0
  statutory := none

private theorem frictionless_noSlippage : frictionless.NoSlippage := by
  intro price side
  by_cases hs : side = "BUY"
  · exact (if_pos hs).trans (add_zero price)
  · exact (if_neg hs).trans (sub_zero price)

private def onClose : SignalGenerated :=
  { symbol := "TCS", exchange := "NSE", side := "BUY", quantity := 500, referencePrice := some 120 }

private def fallen : Reading where
  quote _ := some (100, 90)

theorem notional_cap_on_close :
    WithinCap frictionless onClose fallen (some 100) ↔
      frictionless.instrument "TCS" = none ∨ PricedWithin onClose fallen (some 100) :=
  notional_cap_iff frictionless_noSlippage

/-- Five hundred shares, approved at 100 under a cap of 50000, are filled for 60000. -/
theorem fills_beyond_cap : frictionless.NoSlippage ∧ ¬ WithinCap frictionless onClose fallen (some 100) := by
  refine ⟨frictionless_noSlippage, fun h => ?_⟩
  have hexec : SimulatedExecution.executedPrice frictionless (OrderEngine.intent onClose) (some 100) = .ok 120 :=
    (executedPrice_eq_ok frictionless_noSlippage).mpr ⟨by decide +kernel, by decide +kernel⟩
  have hle := h (RiskEngine.capped 50000 0) 50000 rfl (by decide +kernel)
    (@SimulatedFill.of _ _ ⟨"TCS", "NSE", .equity, false⟩ _ _ rfl hexec) rfl rfl
  rw [fill_notional] at hle
  have hlt : (50000 : Rat) < (500 : Int) * round 120 PRICE_PRECISION := by decide +kernel
  exact hlt.not_ge hle

end NTrade.Execution
