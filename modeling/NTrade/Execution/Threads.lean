import NTrade.Execution.Tracking
import NTrade.Lib.Trace

/-! The execution target under two threads: the feed thread submits, the runner thread
reconciles and polls. Records are objects that a thread can hold on to while the tracker
replaces them, so a record is known by its address. A move is what one thread does between
two points where the other may get in; publishing takes the bus lock, which the feed thread
holds from the placement until `submit` is done. -/
namespace NTrade.Execution
open NTrade.Domain NTrade.Events NTrade.Lib

inductive FeedPhase where
  | idle
  /-- The venue has accepted the order, the placement call has not returned. -/
  | sent (orderId : String) (intent : OrderIntent) (order : Order)
  | accepted (orderId : String) (intent : OrderIntent) (order : Order)
  /-- The acceptance is published, the order neither filled nor tracked. -/
  | announced (orderId : String) (intent : OrderIntent) (order : Order)
  /-- A fill is published, and still to be booked on the record that was found. -/
  | emitted (target : Option Nat) (quantity : Int)

inductive RunnerPhase where
  | idle
  | fetched (book : List OrderBookEntry)
  | adopting (existing : List String) (book : List OrderBookEntry)
  | polling (ids : List String)
  | holding (ids : List String) (orderId : String) (ref : Nat)
  | asking (ids : List String) (orderId : String) (ref : Nat)
  | refreshed (ids : List String) (orderId : String) (ref : Nat)
  | noted (ids : List String) (orderId : String) (ref : Nat)
  | emitted (ids : List String) (orderId : String) (ref : Nat) (target : Option Nat) (quantity : Int)
  | settling (ids : List String) (orderId : String) (ref : Nat)

/-- The ids in the order book that the runner thread has in its hands. -/
def RunnerPhase.rows : RunnerPhase → List String
  | .fetched book | .adopting _ book => book.map OrderBookEntry.orderId
  | _ => []

structure Threads where
  heap : List Record := []
  openOrders : Dict String Nat := Dict.empty
  feed : FeedPhase := .idle
  runner : RunnerPhase := .idle
  /-- What the venue has executed of each order. -/
  broker : String → Nat := fun _ => 0
  /-- The orders `submit` has placed, with their intents. -/
  placed : Dict String OrderIntent := Dict.empty
  fills : List OrderFilled := []

namespace Threads
variable (cfg : Config) (t : Threads) (orderId : String) (ref : Nat)

def record : Option Record := t.heap[ref]?

def tracked : Option Record := (t.openOrders.get orderId).bind t.record

/-- The venue gives a new order an id that no order has had, in no order book that it gave before. -/
def unseen : Bool :=
  t.placed.get orderId = none ∧ (∀ r ∈ t.heap, r.order.orderId ≠ some orderId) ∧ orderId ∉ t.runner.rows

def busFree : Bool := t.feed matches .idle

def update (f : Record → Record) : Threads := { t with heap := t.heap.modify ref f }

/-- A new record goes under an order's id, whatever was there. -/
def insert (r : Record) : Threads :=
  { t with heap := t.heap ++ [r], openOrders := t.openOrders.set orderId t.heap.length }

def drop : Threads := { t with openOrders := t.openOrders.pop orderId }

@[simp] theorem record_update (f : Record → Record) (j : Nat) :
    (t.update ref f).record j = (t.record j).map fun r => if ref = j then f r else r :=
  List.getElem?_modify f ref t.heap j

theorem record_insert (r : Record) (j : Nat) :
    (t.insert orderId r).record j = if j = t.heap.length then some r else t.record j := by
  unfold record insert
  dsimp only
  rw [List.getElem?_append]
  split
  · next h => rw [if_neg (Nat.ne_of_lt h)]
  · next h =>
    split
    · next he => simp [he]
    · next hne =>
      have hlt : t.heap.length < j := by omega
      rw [List.getElem?_eq_none (Nat.le_of_lt hlt)]
      simp [show j - t.heap.length ≠ 0 by omega]

/-- `_emit_fill` up to its publish, for an order that one thread holds. -/
def fill (intent : OrderIntent) (order : Order) (now : Rat) : Option OrderFilled :=
  fillOf cfg orderId intent order (((t.tracked orderId).map Record.filled).getD 0) now

def emit (e : OrderFilled) : Threads := { t with fills := t.fills ++ [e] }

/-- `_emit_fill` after its publish. -/
def book (target : Option Nat) (n : Int) : Threads :=
  match target with
  | none => t
  | some ref => t.update ref (·.book n)

def emitted : Int := Trace.total (fun e => if e.orderId = orderId then e.quantity else 0) t.fills

end Threads

structure FeedInput where
  orderId : String
  intent : OrderIntent
  order : Order
  status : OrderStatus := .pending
  avgPrice : Wire := some 0
  now : Rat := 0

inductive Answer where
  | ok (status : OrderStatus) (avgPrice : Wire)
  | rateLimited (touched : Option OrderStatus)
  | error (touched : Option OrderStatus)

structure RunnerInput where
  reconcile : Bool := false
  book : List OrderBookEntry := []
  circuitOpen : Bool := false
  probe : Bool := false
  answer : Answer := .rateLimited none
  cancels : Bool := false
  now : Rat := 0

section Steps
variable (cfg : Config)

def placedOrder (orderId : String) (i : FeedInput) (order : Order) (t : Threads) : Order :=
  { Report.apply ⟨i.status, some (t.broker orderId : Rat), i.avgPrice⟩ order with orderId := some orderId }

def feedStep (i : FeedInput) (t : Threads) : Threads :=
  match t.feed with
  | .idle =>
    if t.unseen i.orderId then
      { t with feed := .sent i.orderId i.intent i.order, placed := t.placed.set i.orderId i.intent }
    else t
  | .sent orderId intent order => { t with feed := .accepted orderId intent (placedOrder orderId i order t) }
  | .accepted orderId intent order => { t with feed := .announced orderId intent order }
  | .announced orderId intent order =>
    if order.isFilled then
      match t.fill cfg orderId intent order i.now with
      | none => { t with feed := .idle }
      | some e => { t.emit e with feed := .emitted (t.openOrders.get orderId) e.quantity }
    else { t.insert orderId (track intent order i.now) with feed := .idle }
  | .emitted target n => { t.book target n with feed := .idle }

/-- Count a failure against the record at hand, and evict the order at the limit. -/
def countMiss (orderId : String) (ref : Nat) (t : Threads) : Threads :=
  let t := t.update ref Record.miss
  if (t.record ref).any fun r => cfg.staleLimit ≤ r.stale then t.drop orderId else t

def touchRecord (ref : Nat) (status : Option OrderStatus) (t : Threads) : Threads :=
  match status with
  | none => t
  | some status => t.update ref (·.touch status)

def adoptEntry (existing : List String) (entry : OrderBookEntry) (now : Rat) (t : Threads) : Threads :=
  if entry.orderId = "" ∨ entry.orderId ∈ existing then t
  else
    match adopt cfg entry now with
    | none => t
    | some r => t.insert entry.orderId r

/-- The status events of a poll: a timeout, whose handler may cancel the tracked order, and
a change of status. Either has to wait for the bus. -/
def noteStatus (orderId : String) (ref : Nat) (r : Record) (i : RunnerInput) (t : Threads) : Threads :=
  let t :=
    match r.timeoutOf cfg orderId i.now, t.openOrders.get orderId with
    | some _, some current => if i.cancels then t.update current Record.cancel else t
    | _, _ => t
  t.update ref Record.note

def runnerStep (i : RunnerInput) (t : Threads) : Threads :=
  match t.runner with
  | .idle => { t with runner := if i.reconcile then .fetched i.book else .polling t.openOrders.keys }
  | .fetched book => { t with runner := .adopting t.openOrders.keys book }
  | .adopting _ [] => { t with runner := .idle }
  | .adopting existing (entry :: book) =>
    { adoptEntry cfg existing entry i.now t with runner := .adopting existing book }
  | .polling [] => { t with runner := .idle }
  | .polling (orderId :: ids) =>
    match t.openOrders.get orderId with
    | none => { t with runner := .polling ids }
    | some ref => { t with runner := .holding ids orderId ref }
  | .holding ids orderId ref =>
    if i.circuitOpen then
      let t := countMiss cfg orderId ref t
      if (t.openOrders.get orderId).isSome ∧ i.probe then { t with runner := .asking ids orderId ref }
      else { t with runner := .polling ids }
    else { t with runner := .asking ids orderId ref }
  | .asking ids orderId ref =>
    match i.answer with
    | .ok status avgPrice =>
      { t.update ref (·.refresh ⟨status, some (t.broker orderId : Rat), avgPrice⟩) with runner := .refreshed ids orderId ref }
    | .rateLimited touched => { touchRecord ref touched t with runner := .polling ids }
    | .error touched => { countMiss cfg orderId ref (touchRecord ref touched t) with runner := .polling ids }
  | .refreshed ids orderId ref =>
    match t.record ref with
    | none => t
    | some r =>
      if ((r.timeoutOf cfg orderId i.now).isSome ∨ r.order.status ≠ r.status) ∧ ¬ t.busFree then t
      else { noteStatus cfg orderId ref r i t with runner := .noted ids orderId ref }
  | .noted ids orderId ref =>
    match t.record ref with
    | none => t
    | some r =>
      match t.fill cfg orderId r.intent r.order i.now with
      | none => { t with runner := .settling ids orderId ref }
      | some e =>
        if t.busFree then
          { t.emit e with runner := .emitted ids orderId ref (t.openOrders.get orderId) e.quantity }
        else t
  | .emitted ids orderId ref target n => { t.book target n with runner := .settling ids orderId ref }
  | .settling ids orderId ref =>
    match t.record ref with
    | none => t
    | some r =>
      match r.order.status with
      | .pending | .partiallyFilled => { t with runner := .polling ids }
      | .completed => { t.drop orderId with runner := .polling ids }
      | .rejected | .cancelled =>
        if (r.rejectionOf orderId r.order.status i.now).isSome ∧ ¬ t.busFree then t
        else { t.drop orderId with runner := .polling ids }

inductive ThreadMove where
  /-- The venue executes shares of an order. -/
  | execute (orderId : String) (n : Nat)
  | feed (i : FeedInput)
  | runner (i : RunnerInput)

def threadStep (t : Threads) : ThreadMove → Threads
  | .execute orderId n => { t with broker := Function.update t.broker orderId (t.broker orderId + n) }
  | .feed i => feedStep cfg i t
  | .runner i => runnerStep cfg i t

def threadRun (moves : List ThreadMove) (t : Threads) : Threads := moves.foldl (threadStep cfg) t

end Steps
end NTrade.Execution
