import NTrade.Lib.IsoFormat

/-! The values events carry, and the event classes a log can name. A class declares the types of
its fields, but nothing checks a value against them, so every field takes every value. -/
namespace NTrade.Storage
open NTrade.Lib

/-- The key of a dict: what `json.dumps` writes as a name, or something it refuses. -/
inductive Key where
  | str (s : String)
  | num (n : Number)
  | nan
  | infinite (negative : Bool)
  | bool (b : Bool)
  | none
  | object (name : String)
  deriving DecidableEq

inductive PyValue where
  | none
  | bool (b : Bool)
  | num (n : Number)
  | nan
  | infinite (negative : Bool)
  | str (s : String)
  | datetime (d : DateTime)
  | list (items : List PyValue)
  | tuple (items : List PyValue)
  | dict (entries : List (Key × PyValue))
  | event (cls : String) (fields : List (String × PyValue))
  /-- An instance of any other class. -/
  | object (name : String)

namespace PyValue

def int (n : Nat) : PyValue := .num { whole := n }

def zero : PyValue := .num { whole := 0, fraction := [0] }

end PyValue

inductive Default where
  | value (v : PyValue)
  /-- `uuid4().hex[:12]` -/
  | uuid

structure FieldDef where
  name : String
  default : Option Default := none

namespace FieldDef

def required (name : String) : FieldDef := { name }

def optional (name : String) (v : PyValue) : FieldDef := { name, default := some (.value v) }

def base : List FieldDef :=
  [required "ts", { name := "event_id", default := some .uuid }, optional "correlation_id" .none,
    optional "causation_id" .none]

end FieldDef

structure EventClass where
  name : String
  fields : List FieldDef

namespace EventClass
open FieldDef PyValue

def fieldNames (c : EventClass) : List String := c.fields.map FieldDef.name

def extending (name : String) (fields : List FieldDef) : EventClass where
  name
  fields := base ++ fields

def tickEvent : EventClass := extending "TickEvent"
  [required "symbol", required "exchange", required "price", optional "quantity" (int 0), optional "side" (.str ""),
    optional "kind" (.str "trade")]

def quoteEvent : EventClass := extending "QuoteEvent"
  [required "symbol", required "exchange", optional "ltp" zero, optional "bid" zero, optional "ask" zero,
    optional "open" zero, optional "high" zero, optional "low" zero, optional "prev_close" zero, optional "volume" (int 0),
    optional "oi" (int 0)]

def depthEvent : EventClass := extending "DepthEvent"
  [required "symbol", required "exchange", optional "bids" (.tuple []), optional "asks" (.tuple [])]

def candleClosedEvent : EventClass := extending "CandleClosedEvent"
  [required "symbol", required "exchange", required "timeframe", required "open", required "high", required "low",
    required "close", required "volume"]

def quoteUpdatedEvent : EventClass := extending "QuoteUpdatedEvent"
  [required "symbol", required "exchange", required "ltp", optional "bid" zero, optional "ask" zero]

def indicatorUpdatedEvent : EventClass := extending "IndicatorUpdatedEvent"
  [required "symbol", required "exchange", required "timeframe", optional "indicators" (.dict [])]

def watchlistReady : EventClass := extending "WatchlistReady"
  [optional "results" (.tuple []), optional "strategy" (.str "")]

def orderIntentEvent : EventClass := extending "OrderIntentEvent"
  [required "symbol", required "exchange", required "side", required "quantity", optional "order_type" (.str "LIMIT"),
    optional "price" zero, optional "reference_price" zero, optional "strategy" (.str "")]

def orderAcceptedEvent : EventClass := extending "OrderAcceptedEvent"
  [required "order_id", required "symbol", required "exchange", required "side", required "quantity",
    optional "strategy" (.str "")]

def orderRejectedEvent : EventClass := extending "OrderRejectedEvent"
  [optional "order_id" (.str ""), required "symbol", required "exchange", required "side", required "quantity",
    required "reason", optional "strategy" (.str "")]

def orderFilledEvent : EventClass := extending "OrderFilledEvent"
  [required "order_id", required "symbol", required "exchange", required "side", required "quantity", required "fill_price",
    optional "commission" zero, optional "statutory" zero, optional "strategy" (.str "")]

def orderUpdatedEvent : EventClass := extending "OrderUpdatedEvent"
  [required "order_id", required "symbol", required "exchange", required "side", required "status",
    optional "filled_qty" (int 0), optional "avg_price" zero, optional "strategy" (.str "")]

def orderTimeoutEvent : EventClass := extending "OrderTimeoutEvent"
  [required "order_id", required "symbol", required "exchange", required "side", required "quantity",
    required "age_seconds", optional "strategy" (.str "")]

def positionUpdatedEvent : EventClass := extending "PositionUpdatedEvent"
  [required "symbol", required "exchange", required "quantity", optional "avg_price" zero, optional "ltp" zero]

def balanceChangedEvent : EventClass := extending "BalanceChangedEvent" [required "balance"]

def signalGeneratedEvent : EventClass := extending "SignalGeneratedEvent"
  [required "symbol", required "exchange", required "side", required "quantity", optional "price" zero,
    optional "order_type" (.str "MARKET"), optional "strategy" (.str ""), optional "metadata" (.dict [])]

def signalApprovedEvent : EventClass := extending "SignalApprovedEvent" [required "signal"]

def signalRejectedEvent : EventClass := extending "SignalRejectedEvent" [required "signal", required "reason"]

def riskHaltedEvent : EventClass := extending "RiskHaltedEvent" [required "reason", optional "equity" zero]

def riskResumedEvent : EventClass := extending "RiskResumedEvent" [optional "reason" (.str "")]

def kernelStartedEvent : EventClass := extending "KernelStartedEvent" [optional "mode" (.str "live")]

def sessionStartedEvent : EventClass := extending "SessionStartedEvent" [optional "session_id" (.str "")]

def sessionStoppedEvent : EventClass := extending "SessionStoppedEvent"
  [optional "session_id" (.str ""), optional "reason" (.str "")]

def runnerStartedEvent : EventClass := extending "RunnerStartedEvent" []

def runnerStoppedEvent : EventClass := extending "RunnerStoppedEvent" [optional "reason" (.str "")]

def heartbeatEvent : EventClass := extending "HeartbeatEvent" [optional "tick_count" (int 0), optional "open_orders" (int 0)]

def feedDisconnectedEvent : EventClass := extending "FeedDisconnectedEvent" [optional "reason" (.str "")]

end EventClass

open EventClass in
/-- `_EVENT_TYPES`: the event classes of the modules `market`, `order`, `portfolio`, `risk` and
`lifecycle`. -/
def EVENT_TYPES : List EventClass :=
  [tickEvent, quoteEvent, depthEvent, candleClosedEvent, quoteUpdatedEvent, indicatorUpdatedEvent, watchlistReady,
    orderIntentEvent, orderAcceptedEvent, orderRejectedEvent, orderFilledEvent, orderUpdatedEvent, orderTimeoutEvent,
    positionUpdatedEvent, balanceChangedEvent, signalGeneratedEvent, signalApprovedEvent, signalRejectedEvent,
    riskHaltedEvent, riskResumedEvent, kernelStartedEvent, sessionStartedEvent, sessionStoppedEvent, runnerStartedEvent,
    runnerStoppedEvent, heartbeatEvent, feedDisconnectedEvent]

/-- No two classes share a name. -/
theorem EVENT_TYPES_names_nodup : (EVENT_TYPES.map EventClass.name).Nodup := by decide +kernel

/-- No class names a field twice, or after the tag of its name. -/
theorem fieldNames_nodup : ∀ c ∈ EVENT_TYPES, ("__type__" :: c.fieldNames).Nodup := by decide +kernel

end NTrade.Storage
