import Mathlib.Data.Rat.Defs
import Mathlib.Algebra.Order.Ring.Rat

/-! Orders as the kernel and the broker adapters share them. Prices, quantities of money
and clock readings are exact rationals; share counts are integers. -/
namespace NTrade.Domain

/-- A scalar on a broker's wire: a number, or nothing that converts to one. -/
abbrev Wire := Option Rat

def toFloat (v : Wire) : Rat := v.getD 0

/-- Conversion to an integer drops the fraction, towards zero. -/
def toInt (v : Wire) : Int := (toFloat v).num.tdiv (toFloat v).den

@[simp] theorem toInt_intCast (n : Int) : toInt (some (n : Rat)) = n := by simp [toInt, toFloat]

@[simp] theorem toInt_zero : toInt (some 0) = 0 := toInt_intCast 0

/-- The value of `a or b` on numbers: zero counts as false. -/
def orElse (a b : Rat) : Rat := if a = 0 then b else a

/-- A computation that may fail has a result if both its parts have. -/
theorem bind_eq_ok {ε α β : Type} {x : Except ε α} {f : α → Except ε β} {b : β} (h : x >>= f = .ok b) :
    ∃ a, x = .ok a ∧ f a = .ok b := by
  cases x with
  | error e => cases h
  | ok a => exact ⟨a, rfl, h⟩

inductive OrderSide where
  | buy | sell
  deriving DecidableEq, Repr

inductive OrderType where
  | limit | market | stopLimit | stopMarket | cover | bracket
  deriving DecidableEq, Repr

inductive TradeType where
  | mis | cnc | margin | mtf
  deriving DecidableEq, Repr

inductive OrderStatus where
  | pending | completed | rejected | cancelled | partiallyFilled
  deriving DecidableEq, Repr

def OrderSide.value : OrderSide → String
  | .buy => "BUY"
  | .sell => "SELL"

def TradeType.value : TradeType → String
  | .mis => "MIS"
  | .cnc => "CNC"
  | .margin => "MARGIN"
  | .mtf => "MTF"

/-- Enumeration members are looked up by value; an unknown value is an error. -/
def OrderSide.ofValue (s : String) : Except String OrderSide :=
  if s = "BUY" then .ok .buy
  else if s = "SELL" then .ok .sell
  else .error ("'" ++ s ++ "' is not a valid OrderSide")

def OrderType.ofValue (s : String) : Except String OrderType :=
  if s = "LIMIT" then .ok .limit
  else if s = "MARKET" then .ok .market
  else if s = "STOP_LIMIT" then .ok .stopLimit
  else if s = "STOP_MARKET" then .ok .stopMarket
  else if s = "COVER" then .ok .cover
  else if s = "BRACKET" then .ok .bracket
  else .error ("'" ++ s ++ "' is not a valid OrderType")

def OrderStatus.value : OrderStatus → String
  | .pending => "PENDING"
  | .completed => "COMPLETED"
  | .rejected => "REJECTED"
  | .cancelled => "CANCELLED"
  | .partiallyFilled => "PARTIALLY_FILLED"

def OrderStatus.ofValue (s : String) : Except String OrderStatus :=
  if s = "PENDING" then .ok .pending
  else if s = "COMPLETED" then .ok .completed
  else if s = "REJECTED" then .ok .rejected
  else if s = "CANCELLED" then .ok .cancelled
  else if s = "PARTIALLY_FILLED" then .ok .partiallyFilled
  else .error ("'" ++ s ++ "' is not a valid OrderStatus")

def OrderStatus.TERMINAL : List String :=
  [OrderStatus.completed.value, OrderStatus.rejected.value, OrderStatus.cancelled.value]

def OrderStatus.isTerminal (s : OrderStatus) : Bool := s.value ∈ OrderStatus.TERMINAL

@[simp] theorem OrderStatus.ofValue_value (s : OrderStatus) : OrderStatus.ofValue s.value = .ok s := by
  cases s <;> decide

theorem OrderStatus.isTerminal_iff (s : OrderStatus) :
    s.isTerminal = true ↔ s = .completed ∨ s = .rejected ∨ s = .cancelled := by
  cases s <;> decide

inductive InstrumentKind where
  | equity | etf | spot | index | currency | commodity | bond | crypto | future | option | synthetic
  deriving DecidableEq, Repr

def InstrumentKind.KIND : InstrumentKind → String
  | equity => "equity"
  | etf => "etf"
  | spot => "spot"
  | index => "index"
  | currency => "currency"
  | commodity => "commodity"
  | bond => "bond"
  | crypto => "crypto"
  | future => "future"
  | option => "option"
  | synthetic => "synthetic"

structure Instrument where
  symbol : String
  exchange : String
  kind : InstrumentKind
  /-- Whether a broker adapter is wired to the instrument. -/
  brokerAdapter : Bool

/-- Cash instruments default to the delivery product, everything else to intraday. -/
def defaultTradeType (instrument : Instrument) : TradeType :=
  match instrument.kind with
  | .equity | .etf | .spot => .cnc
  | _ => .mis

structure Order where
  side : OrderSide
  quantity : Int
  orderType : OrderType := .limit
  tradeType : TradeType := .mis
  price : Rat := 0
  referencePrice : Rat := 0
  orderId : Option String := none
  status : OrderStatus := .pending
  filledQty : Wire := some 0
  avgPrice : Wire := some 0
  deriving DecidableEq

def Order.isFilled (order : Order) : Bool := order.status = .completed

/-- Order entry through an instrument, up to the call of the broker's `place_order`. -/
def OrderFacade.place (instrument : Instrument) (side : String) (quantity : Int)
    (orderType : OrderType) (price referencePrice : Rat) : Except String Order := do
  let side ← OrderSide.ofValue side.toUpper
  if instrument.brokerAdapter then
    return { side, quantity, orderType, tradeType := defaultTradeType instrument, price, referencePrice }
  else
    throw (instrument.symbol ++ " (" ++ instrument.exchange ++ ") has no broker adapter to place orders")

structure OrderBookEntry where
  symbol : String := ""
  orderId : String := ""
  side : String := ""
  quantity : Int := 0
  price : Rat := 0
  status : String := ""
  exchange : String := ""

end NTrade.Domain
