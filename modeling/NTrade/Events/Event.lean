import Mathlib.Algebra.Order.Ring.Rat

/-! Order and risk events, and the stamps the bus puts on what it dispatches. -/
namespace NTrade.Events

structure SignalGenerated where
  symbol : String
  exchange : String
  side : String
  quantity : Int
  price : Rat := 0
  orderType : String := "MARKET"
  strategy : String := ""
  /-- `metadata["reference_price"]`, where the strategy gives one. -/
  referencePrice : Option Rat := none
  ts : Rat := 0
  deriving DecidableEq, Repr

structure OrderIntent where
  symbol : String
  exchange : String
  side : String
  quantity : Int
  orderType : String := "LIMIT"
  price : Rat := 0
  referencePrice : Rat := 0
  strategy : String := ""
  ts : Rat := 0
  deriving DecidableEq, Repr

structure OrderAccepted where
  orderId : String
  symbol : String
  exchange : String
  side : String
  quantity : Int
  strategy : String := ""
  ts : Rat := 0
  deriving DecidableEq, Repr

structure OrderRejected where
  orderId : String := ""
  symbol : String
  exchange : String
  side : String
  quantity : Int
  reason : String
  strategy : String := ""
  ts : Rat := 0
  deriving DecidableEq, Repr

structure OrderFilled where
  orderId : String
  symbol : String
  exchange : String
  side : String
  quantity : Int
  fillPrice : Rat
  commission : Rat := 0
  statutory : Rat := 0
  strategy : String := ""
  ts : Rat := 0
  deriving DecidableEq, Repr

def OrderFilled.notional (e : OrderFilled) : Rat := e.quantity * e.fillPrice

/-- The shares a fill adds to the position of its symbol; what is not bought is sold. -/
def OrderFilled.signedQuantity (e : OrderFilled) : Int := if e.side = "BUY" then e.quantity else -e.quantity

structure PositionUpdated where
  symbol : String
  exchange : String
  quantity : Int
  avgPrice : Rat
  ltp : Rat := 0
  ts : Rat := 0
  deriving DecidableEq, Repr

structure BalanceChanged where
  balance : Rat
  ts : Rat := 0
  deriving DecidableEq, Repr

structure OrderUpdated where
  orderId : String
  symbol : String
  exchange : String
  side : String
  status : String
  filledQty : Int := 0
  avgPrice : Rat := 0
  strategy : String := ""
  ts : Rat := 0
  deriving DecidableEq, Repr

structure OrderTimeout where
  orderId : String
  symbol : String
  exchange : String
  side : String
  quantity : Int
  ageSeconds : Rat
  strategy : String := ""
  ts : Rat := 0
  deriving DecidableEq, Repr

inductive Event where
  | intent (e : OrderIntent)
  | accepted (e : OrderAccepted)
  | rejected (e : OrderRejected)
  | filled (e : OrderFilled)
  | updated (e : OrderUpdated)
  | timeout (e : OrderTimeout)
  | approved (signal : SignalGenerated)
  /-- An event that no order carries: market data, a signal, a position, a halt. -/
  | other (name : String)
  deriving DecidableEq, Repr

/-- The order whose lifecycle an event belongs to; a rejected placement has the empty id. -/
def Event.orderId : Event → Option String
  | .accepted e => some e.orderId
  | .rejected e => some e.orderId
  | .filled e => some e.orderId
  | .updated e => some e.orderId
  | .timeout e => some e.orderId
  | _ => none

/-- What the bus knows of an event in dispatch. Event ids are drawn in order, so two
events never share one. -/
structure Stamp where
  eventId : Nat
  correlationId : Nat
  causationId : Option Nat := none
  deriving DecidableEq, Repr

structure Stamped where
  stamp : Stamp
  body : Event
  deriving DecidableEq, Repr

end NTrade.Events
