import NTrade.Domain.Order
import NTrade.Events.Event
import NTrade.Execution.Costs
import Mathlib.Data.List.Nodup

/-! What the broker execution target computes for one order: its tracking record, the
events of its lifecycle, and the records that adoption and recovery build for it. -/
namespace NTrade.Execution
open NTrade.Domain NTrade.Events NTrade.Lib

structure Config where
  instrument : String → Option Instrument
  commission : CommissionModel := FlatCommission 0
  statutory : Option IndianStatutoryCosts := some IndianStatutoryCosts.default
  staleLimit : Nat := 10
  orderTimeoutSeconds : Rat := 300

/-- The registered instrument of a symbol, if a broker adapter is wired to it. -/
def Config.brokerBacked (cfg : Config) (symbol : String) : Option Instrument :=
  (cfg.instrument symbol).filter Instrument.brokerAdapter

structure Record where
  intent : OrderIntent
  order : Order
  filled : Int
  status : OrderStatus
  placedAt : Rat
  stale : Nat := 0
  deriving DecidableEq

structure Report where
  status : OrderStatus
  filledQty : Wire
  avgPrice : Wire
  deriving DecidableEq

def Report.apply (report : Report) (order : Order) : Order :=
  { order with status := report.status, filledQty := report.filledQty, avgPrice := report.avgPrice }

def Record.refresh (r : Record) (report : Report) : Record :=
  { r with order := report.apply r.order, stale := 0 }

/-- A refresh that fails between the status and the detail request leaves the status. -/
def Record.touch (r : Record) (status : OrderStatus) : Record := { r with order := { r.order with status } }

/-- The adapter marks the order as soon as the cancel request returns. -/
def Record.cancel (r : Record) : Record := r.touch .cancelled

def Record.miss (r : Record) : Record := { r with stale := r.stale + 1 }

def Record.note (r : Record) : Record := { r with status := r.order.status }

def Record.book (r : Record) (n : Int) : Record := { r with filled := r.filled + n }

section Fields
variable (r : Record)

@[simp] theorem Record.refresh_intent (report : Report) : (r.refresh report).intent = r.intent := rfl
@[simp] theorem Record.refresh_filled (report : Report) : (r.refresh report).filled = r.filled := rfl
@[simp] theorem Record.refresh_order (report : Report) : (r.refresh report).order = report.apply r.order := rfl
@[simp] theorem Record.touch_intent (status : OrderStatus) : (r.touch status).intent = r.intent := rfl
@[simp] theorem Record.touch_filled (status : OrderStatus) : (r.touch status).filled = r.filled := rfl
@[simp] theorem Record.cancel_intent : r.cancel.intent = r.intent := rfl
@[simp] theorem Record.cancel_filled : r.cancel.filled = r.filled := rfl
@[simp] theorem Record.cancel_filledQty : r.cancel.order.filledQty = r.order.filledQty := rfl
@[simp] theorem Record.cancel_avgPrice : r.cancel.order.avgPrice = r.order.avgPrice := rfl
@[simp] theorem Record.miss_intent : r.miss.intent = r.intent := rfl
@[simp] theorem Record.miss_stale : r.miss.stale = r.stale + 1 := rfl
@[simp] theorem Record.miss_filled : r.miss.filled = r.filled := rfl
@[simp] theorem Record.note_intent : r.note.intent = r.intent := rfl
@[simp] theorem Record.note_filled : r.note.filled = r.filled := rfl
@[simp] theorem Record.note_order : r.note.order = r.order := rfl
@[simp] theorem Record.book_intent (n : Int) : (r.book n).intent = r.intent := rfl
@[simp] theorem Record.book_filled (n : Int) : (r.book n).filled = r.filled + n := rfl
@[simp] theorem Record.book_order (n : Int) : (r.book n).order = r.order := rfl

end Fields

def rejection (intent : OrderIntent) (reason : String) : OrderRejected :=
  { symbol := intent.symbol, exchange := intent.exchange, side := intent.side,
    quantity := intent.quantity, reason, strategy := intent.strategy, ts := intent.ts }

def acceptance (orderId : String) (intent : OrderIntent) : OrderAccepted :=
  { orderId, symbol := intent.symbol, exchange := intent.exchange, side := intent.side,
    quantity := intent.quantity, strategy := intent.strategy, ts := intent.ts }

def track (intent : OrderIntent) (order : Order) (now : Rat) : Record :=
  { intent, order, filled := 0, status := order.status, placedAt := now }

/-- The price of a fill: the broker's average, else the price of the intent. -/
def fillPrice (intent : OrderIntent) (avgPrice : Wire) : Rat := orElse (toFloat avgPrice) intent.price

def commissionOf (cfg : Config) (notional : Rat) : Rat := round (cfg.commission.apply notional) PRICE_PRECISION

def statutoryOf (cfg : Config) (intent : OrderIntent) (notional commission : Rat) : Rat :=
  match cfg.statutory with
  | none => 0
  | some statutory =>
    let model :=
      match cfg.instrument intent.symbol with
      | none => statutory
      | some instrument => statutory.forInstrument instrument none
    round (model.totalCost notional intent.side (some commission)) PRICE_PRECISION

/-- `_emit_fill` up to its publish: the fill of the quantity filled beyond `already`. -/
def fillOf (cfg : Config) (orderId : String) (intent : OrderIntent) (order : Order) (already : Int)
    (now : Rat) : Option OrderFilled :=
  let newQty := toInt order.filledQty - already
  if newQty ≤ 0 then none
  else
    let price := fillPrice intent order.avgPrice
    if price ≤ 0 then none
    else
      let notional := price * newQty
      let commission := commissionOf cfg notional
      some { orderId, symbol := intent.symbol, exchange := intent.exchange, side := intent.side,
             quantity := newQty, fillPrice := price, commission,
             statutory := statutoryOf cfg intent notional commission,
             strategy := intent.strategy, ts := now }

def Record.fillOf (cfg : Config) (orderId : String) (r : Record) (now : Rat) : Option OrderFilled :=
  Execution.fillOf cfg orderId r.intent r.order r.filled now

/-- The timeout event of an order that has been pending for too long. -/
def Record.timeoutOf (cfg : Config) (orderId : String) (r : Record) (now : Rat) : Option OrderTimeout :=
  let age := now - r.placedAt
  if r.order.status = .pending ∧ cfg.orderTimeoutSeconds < age then
    some { orderId, symbol := r.intent.symbol, exchange := r.intent.exchange, side := r.intent.side,
           quantity := r.intent.quantity, ageSeconds := age, strategy := r.intent.strategy, ts := now }
  else none

def Record.updateOf (orderId : String) (r : Record) (now : Rat) : OrderUpdated :=
  { orderId, symbol := r.intent.symbol, exchange := r.intent.exchange, side := r.intent.side,
    status := r.order.status.value, filledQty := toInt r.order.filledQty,
    avgPrice := toFloat r.order.avgPrice, strategy := r.intent.strategy, ts := now }

/-- The rejection of what an order left unfilled when it ended in `status`. -/
def Record.rejectionOf (orderId : String) (r : Record) (status : OrderStatus) (now : Rat) :
    Option OrderRejected :=
  let remaining := r.intent.quantity - r.filled
  if 0 < remaining then
    some { orderId, symbol := r.intent.symbol, exchange := r.intent.exchange, side := r.intent.side,
           quantity := remaining, reason := "order " ++ status.value, strategy := r.intent.strategy,
           ts := now }
  else none

def pad6 (n : Nat) : List Char := List.leftpad 6 '0' (Nat.toDigits 10 n)

def brkId (n : Nat) : String := "BRK-" ++ String.ofList (pad6 n)

private def findBrk (isOpen : String → Bool) : Nat → Nat → Nat
  | 0, seq => seq + 1
  | fuel + 1, seq => if isOpen (brkId (seq + 1)) then findBrk isOpen fuel (seq + 1) else seq + 1

/-- The next value of `_seq` whose id is not open. Among one more candidate than there
are open orders one is free. -/
def nextSeq (openOrders : Dict String Record) (seq : Nat) : Nat :=
  findBrk (· ∈ openOrders.keys) openOrders.size seq

def adopt (cfg : Config) (entry : OrderBookEntry) (now : Rat) : Option Record :=
  if entry.status ∈ OrderStatus.TERMINAL then none
  else
    match cfg.brokerBacked entry.symbol, OrderSide.ofValue entry.side.toUpper,
      (if entry.status = "" then .ok .pending else OrderStatus.ofValue entry.status) with
    | some instrument, .ok side, .ok status =>
      some
        { intent :=
            { symbol := entry.symbol,
              exchange := if entry.exchange = "" then instrument.exchange else entry.exchange,
              side := entry.side, quantity := entry.quantity, price := entry.price, strategy := "",
              ts := now }
          order := { side, quantity := entry.quantity, orderId := some entry.orderId, status, filledQty := some 0 }
          filled := 0
          status
          placedAt := now }
    | _, _, _ => none

theorem adopt_eq_some {cfg : Config} {entry : OrderBookEntry} {now : Rat} {r : Record}
    (h : adopt cfg entry now = some r) :
    r.order.orderId = some entry.orderId ∧ r.filled = 0 ∧ toInt r.order.filledQty = 0 := by
  unfold adopt at h
  split at h
  · cases h
  · split at h
    · obtain rfl := Option.some.inj h
      exact ⟨rfl, rfl, toInt_zero⟩
    · cases h

structure Delta where
  quantity : Int
  filled : Int
  remaining : Int
  symbol : String
  exchange : String
  side : String
  strategy : String
  status : String
  placedAt : Rat
  deriving DecidableEq

/-- The record recovery rebuilds from a delta. -/
def rehydrate (orderId : String) (delta : Delta) : Except String Record := do
  let side ← OrderSide.ofValue delta.side.toUpper
  let status ← OrderStatus.ofValue delta.status
  return { intent :=
             { symbol := delta.symbol, exchange := delta.exchange, side := delta.side,
               quantity := delta.quantity, strategy := delta.strategy, ts := delta.placedAt }
           order := { side, quantity := delta.quantity, orderId := some orderId, status, filledQty := some delta.filled }
           filled := delta.filled
           status
           placedAt := delta.placedAt }

/-- The counter after a recovered id: past the digits behind its last hyphen. -/
def bumpSeq (seq : Nat) (orderId : String) : Nat :=
  let token := (orderId.toList.reverse.takeWhile (· ≠ '-')).reverse
  if token ≠ [] ∧ token.all Char.isDigit then max seq (Nat.ofDigitChars 10 token 0) else seq

theorem fillOf_eq_none_iff {cfg : Config} {orderId : String} {intent : OrderIntent} {order : Order}
    {already : Int} {now : Rat} : fillOf cfg orderId intent order already now = none ↔
      toInt order.filledQty ≤ already ∨ fillPrice intent order.avgPrice ≤ 0 := by
  unfold fillOf
  dsimp only
  split
  · exact ⟨fun _ => .inl (by omega), fun _ => rfl⟩
  · split
    · next hp => exact ⟨fun _ => .inr hp, fun _ => rfl⟩
    · next hq hp =>
      constructor
      · intro h; cases h
      · rintro (h | h)
        · omega
        · exact absurd h hp

theorem fillOf_eq_some {cfg : Config} {orderId : String} {intent : OrderIntent} {order : Order}
    {already : Int} {now : Rat} {fill : OrderFilled} (h : fillOf cfg orderId intent order already now = some fill) :
    fill.orderId = orderId ∧ fill.strategy = intent.strategy ∧ 0 < fill.quantity ∧
      already + fill.quantity = toInt order.filledQty ∧ fill.fillPrice = fillPrice intent order.avgPrice ∧
      0 < fill.fillPrice ∧ fill.ts = now := by
  unfold fillOf at h
  dsimp only at h
  split at h
  · cases h
  · split at h
    · cases h
    · next hq hp =>
      obtain rfl := Option.some.inj h
      exact ⟨rfl, rfl, by dsimp only; omega, by dsimp only; omega, rfl, lt_of_not_ge hp, rfl⟩

private theorem ofDigitChars_pad6 (n : Nat) : Nat.ofDigitChars 10 (pad6 n) 0 = n := by
  rw [pad6, List.leftpad, Nat.ofDigitChars_append, Nat.ofDigitChars_replicate_zero, Nat.mul_zero,
    Nat.ofDigitChars_ten_toDigits]

private theorem isDigit_of_mem_pad6 {n : Nat} {c : Char} (h : c ∈ pad6 n) : c.isDigit = true := by
  rcases List.mem_append.mp h with h | h
  · obtain rfl := List.eq_of_mem_replicate h
    rfl
  · exact Nat.isDigit_of_mem_toDigits (by decide) (by decide) h

private theorem brkId_toList (n : Nat) : (brkId n).toList = ['B', 'R', 'K', '-'] ++ pad6 n := by
  simp [brkId]

theorem brkId_injective : Function.Injective brkId := by
  intro m n h
  have hl := congrArg String.toList h
  rw [brkId_toList, brkId_toList] at hl
  rw [← ofDigitChars_pad6 m, ← ofDigitChars_pad6 n, List.append_cancel_left hl]

private theorem findBrk_lt (isOpen : String → Bool) (fuel seq : Nat) : seq < findBrk isOpen fuel seq := by
  induction fuel generalizing seq with
  | zero => exact Nat.lt_succ_self seq
  | succ fuel ih =>
    unfold findBrk
    split
    · exact (Nat.lt_succ_self seq).trans (ih (seq + 1))
    · exact Nat.lt_succ_self seq

theorem lt_nextSeq (openOrders : Dict String Record) (seq : Nat) : seq < nextSeq openOrders seq :=
  findBrk_lt _ _ _

private theorem token_brkId (n : Nat) :
    ((brkId n).toList.reverse.takeWhile (· ≠ '-')).reverse = pad6 n := by
  have hd : ∀ c ∈ (pad6 n).reverse, decide (c ≠ '-') = true := by
    intro c hc
    have := isDigit_of_mem_pad6 (List.mem_reverse.mp hc)
    simp only [decide_eq_true_eq]
    rintro rfl
    exact absurd this (by decide)
  rw [brkId_toList, List.reverse_append, List.takeWhile_append_of_pos hd]
  simp

/-- Recovery moves the counter past every fallback id it restores. -/
theorem le_bumpSeq_brkId (seq n : Nat) : n ≤ bumpSeq seq (brkId n) := by
  have hne : pad6 n ≠ [] := by
    intro h
    have := congrArg List.length h
    simp [pad6] at this
  have hall : (pad6 n).all Char.isDigit = true := List.all_eq_true.mpr fun c hc => isDigit_of_mem_pad6 hc
  simp only [bumpSeq, token_brkId, hall, ofDigitChars_pad6]
  simp [hne]

theorem le_bumpSeq (seq : Nat) (orderId : String) : seq ≤ bumpSeq seq orderId := by
  unfold bumpSeq
  dsimp only
  split
  · exact Nat.le_max_left _ _
  · exact Nat.le_refl _

end NTrade.Execution
