import NTrade.Brokers.DhanMapper
import NTrade.Execution.BrokerExecutor

/-! The adapter's order status. The transport calls the broker's library, the adapter refreshes the
order in place, and the execution target goes on from what is left in the order. -/
namespace NTrade.Brokers
open NTrade.Domain NTrade.Execution NTrade.Lib

inductive Fault where
  | rateLimited (message : String)
  | other (message : String)
  deriving DecidableEq

def rateLimitMarkers : List String := ["dh-904", "rate_limit", "rate limit", "429", "too many requests"]

def isRateLimited (message : String) : Bool :=
  rateLimitMarkers.any fun marker => Literal.occursIn marker (Literal.lower message)

inductive Payload where
  /-- Nothing, or anything else that counts as false. -/
  | empty
  | record (d : WireRecord)
  /-- No record, or one with a figure out of range. -/
  | malformed (message : String)

structure OrderDetail where
  orderId : String
  status : String
  filledQty : Int
  avgPrice : Rat
  price : Rat
  quantity : Int
  deriving DecidableEq

def filledKeys : List String := ["filledQty", "filled_qty", "qty"]

def avgPriceKeys : List String := ["avgPrice", "averagePrice", "avg_price"]

def firstTrue (d : WireRecord) : List String → String → String
  | [], default => default
  | k :: ks, default =>
    match (d.get k).filter fun v => !v.isFalse with
    | some v => v.str
    | none => firstTrue d ks default

def orderDetail (orderId : String) (raw : WireRecord) : OrderDetail where
  orderId := firstTrue raw ["orderId", "OrderID"] orderId
  status := firstStr raw ["orderStatus", "OrderStatus", "status"]
  filledQty := firstInt raw filledKeys
  avgPrice := firstFloat raw avgPriceKeys
  price := firstFloat raw ["price", "OrderPrice"]
  quantity := firstInt raw ["quantity", "Qty"]

/-- The detail as the record that the transport hands on; how its floats print plays no part. -/
def OrderDetail.toRecord (detail : OrderDetail) : WireRecord :=
  (((((Dict.empty.set "order_id" (.text detail.orderId)).set "status" (.text detail.status)).set "filled_qty"
    (.int detail.filledQty)).set "avg_price" (.float detail.avgPrice "")).set "price" (.float detail.price "")).set
      "quantity" (.int detail.quantity)

namespace DhanTransport

/-- `_invoke`: an exception that reads like a rate limit becomes one. -/
def invoke {α : Type} : Except Fault α → Except Fault α
  | .error (.other message) => .error (if isRateLimited message then .rateLimited message else .other message)
  | answer => answer

def getOrderStatus (answer : Except Fault String) : Except Fault String := (invoke answer).map Literal.upper

/-- The detail as a record; exceptions other than rate limits leave an empty one. -/
def getOrderDetail (orderId : String) (answer : Except Fault Payload) : Except Fault WireRecord :=
  match invoke answer with
  | .error (.rateLimited message) => .error (.rateLimited message)
  | .error (.other _) => .ok Dict.empty
  | .ok .empty => .ok (orderDetail orderId Dict.empty).toRecord
  | .ok (.record d) => .ok (orderDetail orderId d).toRecord
  | .ok (.malformed message) => .error (.other message)

end DhanTransport

/-- `_DHAN_STATUS`; any other text is taken for pending. -/
def dhanStatus (status : String) : OrderStatus :=
  if status = "COMPLETE" ∨ status = "TRADED" then .completed
  else if status = "PARTIAL" then .partiallyFilled
  else if status = "CANCELLED" ∨ status = "EXPIRED" then .cancelled
  else if status = "REJECTED" then .rejected
  else .pending

namespace DhanBroker

def getOrderDetail (orderId : String) (answer : Except Fault Payload) : Except Fault OrderDetail :=
  match DhanTransport.getOrderDetail orderId answer with
  | .ok raw => .ok (orderDetail orderId raw)
  | .error (.rateLimited message) => .error (.rateLimited message)
  | .error (.other message) => .error (.other ("Dhan order detail fetch failed for " ++ orderId ++ ": " ++ message))

/-- A figure that is reported, or the one the order has if the report is zero. -/
def figureOr (reported : Rat) (current : Wire) : Except Fault Rat :=
  if reported ≠ 0 then .ok reported
  else
    match current with
    | some q => .ok q
    | none => .error (.other "argument must be a string or a real number, not 'NoneType'")

/-- `get_order_status`: the order as it is left, and the exception if one is raised. -/
def getOrderStatus (order : Order) (status : Except Fault String) (detail : Except Fault Payload) :
    Order × Except Fault Unit :=
  let orderId := order.orderId.getD "None"
  match DhanTransport.getOrderStatus status with
  | .error (.rateLimited message) => (order, .error (.rateLimited message))
  | .error (.other message) =>
    (order, .error (.other ("Dhan order status refresh failed for " ++ orderId ++ ": " ++ message)))
  | .ok status =>
    let order := { order with status := dhanStatus status }
    match getOrderDetail orderId detail with
    | .error e => (order, .error e)
    | .ok detail =>
      match figureOr detail.filledQty order.filledQty with
      | .error e => (order, .error e)
      | .ok filled =>
        let order := { order with filledQty := some (toInt (some filled) : Rat) }
        match figureOr detail.avgPrice order.avgPrice with
        | .error e => (order, .error e)
        | .ok avg => ({ order with avgPrice := some avg }, .ok ())

/-- The refresh as the poll sees it; `mono` is its reading of the clock at a failure. -/
def refreshOf (order : Order) (status : Except Fault String) (detail : Except Fault Payload) (mono : Rat) : Refresh :=
  match getOrderStatus order status detail with
  | (order, .ok ()) => .ok { status := order.status, filledQty := order.filledQty, avgPrice := order.avgPrice }
  | (order, .error (.rateLimited _)) => .rateLimited (some order.status)
  | (order, .error (.other _)) => .error (some order.status) mono

def getOrderbook (answer : Except Fault (List WireRecord)) : Except Fault (List OrderBookEntry) :=
  match DhanTransport.invoke answer with
  | .error (.rateLimited message) => .error (.rateLimited message)
  | .error (.other message) => .error (.other ("Dhan orderbook fetch failed: " ++ message))
  | .ok records =>
    match normalizeOrderbook records with
    | .ok book => .ok book
    | .error message => .error (.other ("Dhan orderbook fetch failed: " ++ message))

end DhanBroker

end NTrade.Brokers
