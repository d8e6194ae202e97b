import NTrade.Execution.Tracking
import NTrade.Lib.Literal

/-! The simulated execution target: orders filled against quotes. The quote, the calendar
and what publishing an event does to the target meanwhile are inputs. -/
namespace NTrade.Execution
open NTrade.Domain NTrade.Events NTrade.Lib

structure SimulatedConfig where
  instrument : String → Option Instrument
  /-- The session date of a clock reading, as a day number. -/
  date : Rat → Int
  slippage : SlippageModel := FixedSlippage 0
  commission : CommissionModel := FlatCommission 0
  statutory : Option IndianStatutoryCosts := some IndianStatutoryCosts.default
  deliveryDetection : Bool := true

structure SimulatedExecution where
  entryDate : Dict String Int := Dict.empty
  entryNotional : Dict String Rat := Dict.empty
  seq : Nat := 0
  fills : List OrderFilled := []

/-- The id of the `n`-th simulated order. -/
def simId (n : Nat) : String := "SIM-" ++ String.ofList (pad6 n)

namespace SimulatedExecution
variable (cfg : SimulatedConfig)

def validPrice (price : Rat) : Except String Rat := if price ≤ 0 then .error "invalid fill price" else .ok price

/-- The price an intent executes at, or why it does not. -/
def executedPrice (intent : OrderIntent) (ltp : Option Rat) : Except String Rat :=
  if intent.orderType = "MARKET" then
    let base := orElse intent.referencePrice (ltp.getD 0)
    if base ≤ 0 then .error "no market price available"
    else validPrice (cfg.slippage.apply base intent.side)
  else validPrice intent.price

def noteEntry (intent : OrderIntent) (notional : Rat) (s : SimulatedExecution) : SimulatedExecution :=
  if intent.side = "BUY" ∧ cfg.deliveryDetection then
    { s with
      entryDate := s.entryDate.set intent.symbol (cfg.date intent.ts)
      entryNotional := s.entryNotional.set intent.symbol notional }
  else s

/-- Whether a sale closes a position that was entered on an earlier session date. -/
def heldOvernight (intent : OrderIntent) (s : SimulatedExecution) : Bool :=
  intent.side ≠ "BUY" ∧ cfg.deliveryDetection ∧ (s.entryDate.get intent.symbol).any (· < cfg.date intent.ts)

/-- What the delivery schedule takes from the entry leg beyond the intraday one. -/
def deliveryAdjustment (c : IndianStatutoryCosts) (instrument : Instrument) (entryNotional : Rat) : Rat :=
  let intraday := c.forInstrument instrument none
  let delivery := c.forInstrument instrument (some true)
  round (delivery.stt entryNotional "BUY" + delivery.stamp entryNotional "BUY" -
    intraday.stt entryNotional "BUY" - intraday.stamp entryNotional "BUY") PRICE_PRECISION

def statutoryCharge (instrument : Instrument) (intent : OrderIntent) (notional commission : Rat)
    (s : SimulatedExecution) : Rat :=
  match cfg.statutory with
  | none => 0
  | some c =>
    let held := heldOvernight cfg intent s
    let adjustment := if held then deliveryAdjustment c instrument (s.entryNotional.getD intent.symbol 0) else 0
    let model := c.forInstrument instrument (some held)
    round (model.totalCost notional intent.side (some commission) + adjustment) PRICE_PRECISION

def filledOf (instrument : Instrument) (orderId : String) (intent : OrderIntent) (price : Rat)
    (s : SimulatedExecution) : OrderFilled :=
  let notional := price * intent.quantity
  let commission := round (cfg.commission.apply notional) PRICE_PRECISION
  { orderId, symbol := intent.symbol, exchange := intent.exchange, side := intent.side,
    quantity := intent.quantity, fillPrice := round price PRICE_PRECISION, commission,
    statutory := statutoryCharge cfg instrument intent notional commission s,
    strategy := intent.strategy, ts := intent.ts }

def submit (publish : Event → SimulatedExecution → SimulatedExecution) (ltp : Option Rat) (intent : OrderIntent)
    (s : SimulatedExecution) : SimulatedExecution × Option OrderRejected :=
  match cfg.instrument intent.symbol with
  | none => (s, some (rejection intent ("unknown instrument " ++ Literal.repr intent.symbol)))
  | some instrument =>
    match executedPrice cfg intent ltp with
    | .error reason => (s, some (rejection intent reason))
    | .ok price =>
      let orderId := simId (s.seq + 1)
      let s := publish (.accepted (acceptance orderId intent)) { s with seq := s.seq + 1 }
      let s := noteEntry cfg intent (price * intent.quantity) s
      let filled := filledOf cfg instrument orderId intent price s
      let s := publish (.filled filled) s
      ({ s with fills := s.fills ++ [filled] }, none)

variable {cfg}

theorem executedPrice_pos {intent : OrderIntent} {ltp : Option Rat} {price : Rat}
    (h : executedPrice cfg intent ltp = .ok price) : 0 < price := by
  have hvalid {x : Rat} (hx : validPrice x = .ok price) : 0 < price := by
    rw [validPrice] at hx
    split at hx
    · cases hx
    · next hp =>
      obtain rfl := Except.ok.inj hx
      exact not_le.mp hp
  rw [executedPrice] at h
  split at h
  · dsimp only at h
    split at h
    · cases h
    · exact hvalid h
  · exact hvalid h

/-- The last fill after a submission that was not rejected is its own. -/
theorem fills_submit {publish : Event → SimulatedExecution → SimulatedExecution} {ltp : Option Rat}
    {intent : OrderIntent} {s : SimulatedExecution} {instrument : Instrument} {price : Rat}
    (known : cfg.instrument intent.symbol = some instrument) (executed : executedPrice cfg intent ltp = .ok price) :
    (submit cfg publish ltp intent s).1.fills.getLast? =
      some (filledOf cfg instrument (simId (s.seq + 1)) intent price
        (noteEntry cfg intent (price * intent.quantity)
          (publish (.accepted (acceptance (simId (s.seq + 1)) intent)) { s with seq := s.seq + 1 }))) := by
  rw [submit, known]
  dsimp only
  rw [executed]
  exact List.getLast?_concat

end SimulatedExecution
end NTrade.Execution
