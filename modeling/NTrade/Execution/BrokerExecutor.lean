import NTrade.Execution.Tracking
import NTrade.Execution.Guard
import NTrade.Lib.Trace

/-! The live execution target on its event bus. Everything the outside decides is an
input: the venue's answers, the clocks, and what the handlers of an event do while it is
dispatched. A run keeps the trace of what was asked, answered, written and published. -/
namespace NTrade.Execution
open NTrade.Domain NTrade.Events NTrade.Lib

inductive Obs where
  /-- `submit` has an instrument to order; the guard held this receipt for its key. -/
  | submitted (cause : Option Nat) (intent : OrderIntent) (key : Nat) (prior : Option String)
  /-- A placement request reached the venue. -/
  | ordered (intent : OrderIntent)
  /-- The venue accepted it, with or without an id of its own. -/
  | placed (cause : Option Nat) (answer : Option String) (orderId : String) (intent : OrderIntent) (order : Order)
  | tracked (orderId : String) (record : Record)
  /-- A status request reached the venue. -/
  | asked (orderId : String)
  | status (orderId : String) (report : Report)
  | touched (orderId : String) (status : OrderStatus)
  | missed (orderId : String)
  | noted (orderId : String) (status : OrderStatus)
  /-- The refreshed status was the one already noted. -/
  | steady (orderId : String)
  | booked (orderId : String) (n : Int)
  | kept (orderId : String)
  | popped (orderId : String) (status : OrderStatus)
  | evicted (orderId : String)
  | cancelled (orderId : String)
  | adopted (orderId : String) (record : Record)
  | restored (orderId : String) (record : Record)
  /-- The venue executed shares of an order. -/
  | executed (orderId : String) (quantity : Int) (price : Rat)
  /-- A cancellation took effect at the venue. -/
  | cancelTook (orderId : String)
  /-- An event was recorded, after the handlers of its own class have run. -/
  | event (e : Stamped)
  deriving DecidableEq

def Obs.orderId : Obs → Option String
  | .placed _ _ orderId _ _ => some orderId
  | .tracked orderId _ => some orderId
  | .asked orderId => some orderId
  | .status orderId _ => some orderId
  | .touched orderId _ => some orderId
  | .missed orderId => some orderId
  | .noted orderId _ => some orderId
  | .steady orderId => some orderId
  | .booked orderId _ => some orderId
  | .kept orderId => some orderId
  | .popped orderId _ => some orderId
  | .evicted orderId => some orderId
  | .cancelled orderId => some orderId
  | .adopted orderId _ => some orderId
  | .restored orderId _ => some orderId
  | .executed orderId _ _ => some orderId
  | .cancelTook orderId => some orderId
  | .event e => e.body.orderId
  | .submitted _ _ _ _ => none
  | .ordered _ => none

structure BrokerExecution where
  seq : Nat := 0
  openOrders : Dict String Record := Dict.empty
  idem : MemoryIdempotencyGuard Nat String := {}
  breaker : CircuitBreaker := {}

structure World where
  exec : BrokerExecution := {}
  stack : List Stamp := []
  issued : Nat := 0
  trace : List Obs := []
  /-- The list the current poll returns. -/
  emitted : List Event := []

namespace World

def log (o : Obs) (w : World) : World := { w with trace := w.trace ++ [o] }

def setBreaker (breaker : CircuitBreaker) (w : World) : World := { w with exec := { w.exec with breaker } }

def setIdem (idem : MemoryIdempotencyGuard Nat String) (w : World) : World := { w with exec := { w.exec with idem } }

def assign (orderId : String) (seq key : Nat) (w : World) : World :=
  { w with exec := { w.exec with seq, idem := w.exec.idem.recordResult key orderId } }

def setOpen (openOrders : Dict String Record) (w : World) : World := { w with exec := { w.exec with openOrders } }

def record (w : World) (orderId : String) : Option Record := w.exec.openOrders.get orderId

def put (orderId : String) (r : Record) (o : Obs) (w : World) : World :=
  (w.setOpen (w.exec.openOrders.set orderId r)).log o

def update (orderId : String) (f : Record → Record) (o : Obs) (w : World) : World :=
  (w.setOpen (w.exec.openOrders.modify orderId f)).log o

def remove (orderId : String) (o : Obs) (w : World) : World :=
  (w.setOpen (w.exec.openOrders.pop orderId)).log o

def emit (e : Event) (w : World) : World := { w with emitted := w.emitted ++ [e] }

def stamp (w : World) : Stamp where
  eventId := w.issued
  correlationId := (w.stack.head?.map Stamp.correlationId).getD w.issued
  causationId := w.stack.head?.map Stamp.eventId

def enter (w : World) : World := { w with issued := w.issued + 1, stack := w.stamp :: w.stack }

def leave (e : Stamped) (w : World) : World := { w with stack := w.stack.tail, trace := w.trace ++ [.event e] }

/-- Synchronous dispatch. The store subscribes to the base class, so it records an event
after the handlers of the event's own class. -/
def publish (e : Event) (handlers : World → World) (w : World) : World := (handlers w.enter).leave ⟨w.stamp, e⟩

end World

namespace World
variable (orderId : String) (r : Record) (f : Record → Record) (o : Obs) (w : World) (j : String)

@[simp] theorem log_exec : (w.log o).exec = w.exec := rfl

theorem record_put : (w.put orderId r o).record j = if j = orderId then some r else w.record j :=
  Dict.get_set _ _ _ _

theorem record_update :
    (w.update orderId f o).record j = if j = orderId then (w.record j).map f else w.record j :=
  Dict.get_modify _ _ _ _

theorem record_remove : (w.remove orderId o).record j = if j = orderId then none else w.record j :=
  Dict.get_pop _ _ _

end World

inductive Placement where
  | placed (answer : Option String) (report : Report)
  | failed (reason : String)

inductive Refresh where
  | ok (report : Report)
  | rateLimited (touched : Option OrderStatus)
  | error (touched : Option OrderStatus) (mono : Rat)

def venueId (answer : Option String) : Option String := answer.filter fun s => s ≠ "" ∧ s ≠ "None"

variable (cfg : Config)

def emitFill (orderId : String) (intent : OrderIntent) (order : Order) (emitting : Bool) (now : Rat)
    (onFilled : World → World) (w : World) : World :=
  let record := w.record orderId
  let already := (record.map Record.filled).getD 0
  match fillOf cfg orderId intent order already now with
  | none => w
  | some fill =>
    let w := w.publish (.filled fill) onFilled
    let w := if emitting then w.emit (.filled fill) else w
    match record with
    | none => w
    | some _ => w.update orderId (·.book fill.quantity) (.booked orderId fill.quantity)

/-- `submit` once the order has its id: announce it, then fill or track it. -/
def acknowledge (orderId : String) (intent : OrderIntent) (order : Order) (now : Rat)
    (onAccepted onFilled : World → World) (w : World) : World :=
  let w := w.publish (.accepted (acceptance orderId intent)) onAccepted
  if order.isFilled then emitFill cfg orderId intent order false now onFilled w
  else w.put orderId (track intent order now) (.tracked orderId (track intent order now))

/-- `submit` from the venue's acceptance on. -/
def accept (intent : OrderIntent) (key : Nat) (answer : Option String) (order : Order) (now : Rat)
    (onAccepted onFilled : World → World) (w : World) : World :=
  let seq := if (venueId answer).isSome then w.exec.seq else nextSeq w.exec.openOrders w.exec.seq
  let orderId := (venueId answer).getD (brkId seq)
  let identified := { order with orderId := some orderId }
  acknowledge cfg orderId intent identified now onAccepted onFilled
    ((w.assign orderId seq key).log
      (.placed (w.stack.head?.map Stamp.eventId) answer orderId intent identified))

/-- The order a placement request carries, or the error raised before the venue is reached. -/
def request (instrument : Instrument) (intent : OrderIntent) : Except String Order := do
  let orderType ← OrderType.ofValue intent.orderType.toUpper
  OrderFacade.place instrument intent.side intent.quantity orderType intent.price intent.referencePrice

def place (instrument : Instrument) (intent : OrderIntent) (key : Nat) (p : Placement) (now : Rat)
    (onAccepted onFilled : World → World) (w : World) : World × Option OrderRejected :=
  match request instrument intent, p with
  | .error reason, _ => (w.setIdem (w.exec.idem.release key), some (rejection intent reason))
  | .ok _, .failed reason =>
    ((w.setIdem (w.exec.idem.release key)).log (.ordered intent), some (rejection intent reason))
  | .ok order, .placed answer report =>
    (accept cfg intent key answer (report.apply order) now onAccepted onFilled (w.log (.ordered intent)), none)

/-- Place the order; publish accepted at once, fill if the broker is synchronous. The
result is what the source returns, or the error it raises. -/
def submit (intent : OrderIntent) (key : Nat) (p : Placement) (now : Rat)
    (onAccepted onFilled : World → World) (w : World) : World × Except String (Option OrderRejected) :=
  match cfg.brokerBacked intent.symbol with
  | none => (w, .ok (some (rejection intent "no broker-backed instrument")))
  | some instrument =>
    let w := w.log (.submitted (w.stack.head?.map Stamp.eventId) intent key (w.exec.idem.completed.get key))
    match w.exec.idem.checkAndReserve key with
    | .error e => (w, .error e)
    | .ok (some _, _) => (w, .ok none)
    | .ok (none, idem) =>
      let done := place cfg instrument intent key p now onAccepted onFilled (w.setIdem idem)
      (done.1, .ok done.2)

def onSignalApproved (signal : SignalGenerated) (p : Placement) (now : Rat)
    (onIntent onAccepted onFilled onRejected : World → World) (w : World) : World :=
  let intent : OrderIntent :=
    { symbol := signal.symbol, exchange := signal.exchange, side := signal.side,
      quantity := signal.quantity, orderType := signal.orderType, price := signal.price,
      referencePrice := signal.referencePrice.getD 0, strategy := signal.strategy, ts := signal.ts }
  let done := submit cfg intent w.stamp.correlationId p now onAccepted onFilled (w.publish (.intent intent) onIntent)
  match done.2 with
  | .ok (some rejected) => done.1.publish (.rejected rejected) onRejected
  | _ => done.1

def cancel (orderId : String) (ok : Bool) (w : World) : World :=
  match w.record orderId with
  | none => w
  | some _ => if ok then w.update orderId Record.cancel (.cancelled orderId) else w

def tripKillSwitch (mono : Rat) (ok : String → Bool) (w : World) : World :=
  let w := w.exec.openOrders.keys.foldl (fun w orderId => cancel orderId (ok orderId) w) w
  w.setBreaker (w.exec.breaker.tripKill mono)

/-- What a handler does while an event is in dispatch, and what the venue does meanwhile. -/
inductive Act where
  /-- Publish an event of another component, with what its handlers do. -/
  | other (name : String) (handlers : List Act)
  /-- Publish an approved signal; the order engine takes it from there. -/
  | approved (signal : SignalGenerated) (p : Placement) (now : Rat)
      (onIntent onAccepted onFilled onRejected : List Act)
  | cancel (orderId : String) (ok : Bool)
  | tripKill (mono : Rat) (ok : String → Bool)
  | executed (orderId : String) (quantity : Int) (price : Rat)
  | cancelTook (orderId : String)

mutual
def runAct : Act → World → World
  | .other name handlers, w => w.publish (.other name) (runActs handlers)
  | .approved signal p now onIntent onAccepted onFilled onRejected, w =>
    w.publish (.approved signal) (onSignalApproved cfg signal p now (runActs onIntent) (runActs onAccepted)
      (runActs onFilled) (runActs onRejected))
  | .cancel orderId ok, w => Execution.cancel orderId ok w
  | .tripKill mono ok, w => tripKillSwitch mono ok w
  | .executed orderId quantity price, w => w.log (.executed orderId quantity price)
  | .cancelTook orderId, w => w.log (.cancelTook orderId)

def runActs : List Act → World → World
  | [], w => w
  | a :: as, w => runActs as (runAct a w)
end

/-- One order's share of a poll: the clocks, the venue's answer, and what handlers do. -/
structure PollInput where
  now : Rat := 0
  mono : Rat := 0
  refresh : Refresh
  onTimeout : List Act := []
  onUpdated : List Act := []
  onFilled : List Act := []
  onRejected : List Act := []

def checkTimeout (orderId : String) (i : PollInput) (w : World) : World :=
  match w.record orderId with
  | none => w
  | some r =>
    match r.timeoutOf cfg orderId i.now with
    | none => w
    | some e => w.publish (.timeout e) (runActs cfg i.onTimeout)

def checkStatus (orderId : String) (i : PollInput) (w : World) : World :=
  match w.record orderId with
  | none => w
  | some r =>
    if r.order.status = r.status then w.log (.steady orderId)
    else
      (w.update orderId Record.note (.noted orderId r.order.status)).publish (.updated (r.updateOf orderId i.now))
        (runActs cfg i.onUpdated)

def checkFill (orderId : String) (i : PollInput) (w : World) : World :=
  match w.record orderId with
  | none => w
  | some r => emitFill cfg orderId r.intent r.order true i.now (runActs cfg i.onFilled) w

/-- Drop an order whose status is terminal, rejecting what it left unfilled. -/
def settle (orderId : String) (i : PollInput) (w : World) : World :=
  match w.record orderId with
  | none => w
  | some r =>
    let status := r.order.status
    match status with
    | .completed => w.remove orderId (.popped orderId status)
    | .rejected | .cancelled =>
      let w :=
        match r.rejectionOf orderId status i.now with
        | none => w
        | some e => (w.emit (.rejected e)).publish (.rejected e) (runActs cfg i.onRejected)
      w.remove orderId (.popped orderId status)
    | .pending | .partiallyFilled => w.log (.kept orderId)

def advance (orderId : String) (i : PollInput) (w : World) : World :=
  settle cfg orderId i (checkFill cfg orderId i (checkStatus cfg orderId i (checkTimeout cfg orderId i w)))

/-- Count a failure against the order, and evict it at the limit. -/
def countStale (orderId : String) (w : World) : World :=
  let w := w.update orderId Record.miss (.missed orderId)
  match w.record orderId with
  | none => w
  | some r => if cfg.staleLimit ≤ r.stale then w.remove orderId (.evicted orderId) else w

def touch (orderId : String) (status : Option OrderStatus) (w : World) : World :=
  match status with
  | none => w
  | some status => w.update orderId (·.touch status) (.touched orderId status)

def refresh (orderId : String) (i : PollInput) (w : World) : World :=
  let w := w.log (.asked orderId)
  match i.refresh with
  | .ok report =>
    let w := w.setBreaker w.exec.breaker.onSuccess
    advance cfg orderId i (w.update orderId (·.refresh report) (.status orderId report))
  | .rateLimited touched => touch orderId touched w
  | .error touched mono =>
    let w := touch orderId touched w
    countStale cfg orderId (w.setBreaker (w.exec.breaker.onFailure mono))

def pollOne (orderId : String) (i : PollInput) (w : World) : World :=
  match w.record orderId with
  | none => w
  | some _ =>
    if w.exec.breaker.state = .open then
      let w := countStale cfg orderId w
      if (w.record orderId).isNone then w
      else
        match w.exec.breaker.maybeReset i.mono with
        | (true, breaker) => refresh cfg orderId i (w.setBreaker breaker)
        | (false, _) => w
    else refresh cfg orderId i w

def poll (inputs : String → PollInput) (w : World) : World :=
  w.exec.openOrders.keys.foldl (fun w orderId => pollOne cfg orderId (inputs orderId) w)
    { w with emitted := [] }

/-- Adopt broker-side open orders this tracker does not know. -/
def reconcileOpen (book : List OrderBookEntry) (now : Rat) (w : World) : World :=
  let existing := w.exec.openOrders.keys
  book.foldl (fun w entry =>
    if entry.orderId = "" ∨ entry.orderId ∈ existing then w
    else
      match adopt cfg entry now with
      | none => w
      | some r => w.put entry.orderId r (.adopted entry.orderId r)) w

/-- Rehydrate the tracker from a recovered delta map; the count, or the error raised. -/
def restoreOpen : List (String × Delta) → World → Except String Nat × World
  | [], w => (.ok 0, w)
  | (orderId, delta) :: deltas, w =>
    if orderId ∈ w.exec.openOrders.keys ∨ cfg.instrument delta.symbol = none then restoreOpen deltas w
    else
      match rehydrate orderId delta with
      | .error e => (.error e, w)
      | .ok r =>
        let w := w.put orderId r (.restored orderId r)
        let w := { w with exec := { w.exec with seq := bumpSeq w.exec.seq orderId } }
        let (count, w) := restoreOpen deltas w
        (count.map (· + 1), w)

/-- A call from outside the bus, or an event that starts a causal chain. -/
inductive Step where
  | act (a : Act)
  | submit (intent : OrderIntent) (correlationId : Option Nat) (p : Placement) (now : Rat)
      (onAccepted onFilled : List Act)
  | poll (inputs : String → PollInput)
  | reconcile (book : List OrderBookEntry) (now : Rat)
  | breakerSuccess
  | breakerFailure (mono : Rat)

def step (w : World) : Step → World
  | .act a => runAct cfg a w
  | .submit intent correlationId p now onAccepted onFilled =>
    (submit cfg intent (correlationId.getD w.issued) p now (runActs cfg onAccepted) (runActs cfg onFilled)
      { w with issued := w.issued + 1 }).1
  | .poll inputs => poll cfg inputs w
  | .reconcile book now => reconcileOpen cfg book now w
  | .breakerSuccess => w.setBreaker w.exec.breaker.onSuccess
  | .breakerFailure mono => w.setBreaker (w.exec.breaker.onFailure mono)

def run (steps : List Step) (w : World) : World := steps.foldl (step cfg) w

def oneStock : Config where
  instrument symbol := if symbol = "TCS" then some ⟨"TCS", "NSE", .equity, true⟩ else none

def marketBuy : OrderIntent where
  symbol := "TCS"
  exchange := "NSE"
  side := "BUY"
  quantity := 10
  orderType := "MARKET"
  strategy := "orb"

end NTrade.Execution
