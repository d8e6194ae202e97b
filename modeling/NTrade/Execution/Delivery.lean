import NTrade.Execution.Simulator
import NTrade.Lib.Fifo
import NTrade.Lib.Trace
import Mathlib.Algebra.Order.Field.Basic
import Mathlib.Tactic.LinearCombination

/-! The delivery schedule of the simulated target against the shares held overnight. The target
knows the date and the notional of the last purchase only; the shares are matched first in, first out. -/
namespace NTrade.Execution
open NTrade.Domain NTrade.Events NTrade.Lib SimulatedExecution

structure Ticket where
  intent : OrderIntent
  ltp : Option Rat
  side : intent.side = "BUY" ∨ intent.side = "SELL"

def Ticket.buys (o : Ticket) : Bool := o.intent.side = "BUY"

structure EquityTarget where
  cfg : SimulatedConfig
  instrument : Instrument
  symbol : String
  detects : cfg.deliveryDetection = true
  known : cfg.instrument symbol = some instrument
  equity : instrument.kind = .equity

def runOrders (cfg : SimulatedConfig) (orders : List Ticket) : SimulatedExecution :=
  orders.foldl (fun s o => (SimulatedExecution.submit cfg (fun _ s => s) o.ltp o.intent s).1) {}

namespace EquityTarget
variable (k : EquityTarget)

def charging (c : IndianStatutoryCosts) : SimulatedConfig := { k.cfg with statutory := some c }

def dealt (o : Ticket) : Option Rat :=
  if o.intent.symbol = k.symbol then (executedPrice k.cfg o.intent o.ltp).toOption else none

def lots (orders : List Ticket) : Fifo.Book (Int × Rat) :=
  orders.foldl (fun book o =>
    match k.dealt o with
    | none => book
    | some price => book.trade o.buys o.intent.quantity.toNat (k.cfg.date o.intent.ts, price)) {}

/-- The shares of a sale that were bought on an earlier date. -/
def heldShares (orders : List Ticket) (o : Ticket) : List (Nat × (Int × Rat)) :=
  if o.buys then []
  else ((k.lots orders).closed false o.intent.quantity.toNat).filter fun l => l.2.1 < k.cfg.date o.intent.ts

def entryCost (held : List (Nat × (Int × Rat))) : Rat := (held.map fun l : Nat × (Int × Rat) => l.2.2 * (l.1 : Rat)).sum

/-- The charge of a fill with these shares on the delivery schedule and the rest on the intraday one. -/
def dueStatutory (c : IndianStatutoryCosts) (o : Ticket) (price : Rat) (held : List (Nat × (Int × Rat)))
    (commission : Rat) : Rat :=
  let delivered : Rat := price * Fifo.shares held
  let intraday := price * o.intent.quantity - delivered
  round ((c.forInstrument k.instrument (some true)).totalCost delivered o.intent.side (some 0) +
    (c.forInstrument k.instrument (some false)).totalCost intraday o.intent.side (some commission) +
    deliveryAdjustment c k.instrument (entryCost held)) PRICE_PRECISION

/-- Every fill of the equity is charged for the shares that were held overnight. -/
def DeliveredOnce (c : IndianStatutoryCosts) (orders : List Ticket) : Prop :=
  Trace.Each (fun pre o => ∀ price fill, k.dealt o = some price →
    (SimulatedExecution.submit (k.charging c) (fun _ s => s) o.ltp o.intent
      (runOrders (k.charging c) pre)).1.fills.getLast? = some fill →
    fill.statutory = k.dueStatutory c o price (k.heldShares pre o) fill.commission) orders

def purchase (o : Ticket) : Option (Int × Rat) :=
  if o.buys then (k.dealt o).map fun price => (k.cfg.date o.intent.ts, price * o.intent.quantity) else none

/-- A sale of exactly the last purchase, held overnight, or of shares that were not. -/
def SoldAsBought (pre : List Ticket) (o : Ticket) : Prop :=
  ∀ price, k.dealt o = some price → o.buys = false →
    let last := Trace.last k.purchase pre
    if last.any (·.1 < k.cfg.date o.intent.ts) then
      (Fifo.shares (k.heldShares pre o) : Int) = o.intent.quantity ∧
        entryCost (k.heldShares pre o) = (last.map Prod.snd).getD 0
    else Fifo.shares (k.heldShares pre o) = 0

variable {k} {c : IndianStatutoryCosts} {o : Ticket} {pre : List Ticket} {price : Rat}

theorem dealt_eq_some (h : k.dealt o = some price) :
    o.intent.symbol = k.symbol ∧ executedPrice k.cfg o.intent o.ltp = .ok price ∧ 0 < price := by
  rw [dealt] at h
  split at h
  · next hs =>
    cases hp : executedPrice k.cfg o.intent o.ltp with
    | error reason =>
      rw [hp] at h
      cases h
    | ok p =>
      rw [hp] at h
      obtain rfl := Option.some.inj h
      exact ⟨hs, rfl, executedPrice_pos hp⟩
  · cases h

/-- What an order does to what the target knows of its last purchase. -/
theorem entry_submit (s : SimulatedExecution) :
    let s' := (SimulatedExecution.submit (k.charging c) (fun _ s => s) o.ltp o.intent s).1
    s'.entryDate.get k.symbol = ((k.purchase o).map Prod.fst).or (s.entryDate.get k.symbol) ∧
      s'.entryNotional.get k.symbol = ((k.purchase o).map Prod.snd).or (s.entryNotional.get k.symbol) := by
  dsimp only
  have hprice : executedPrice (k.charging c) o.intent o.ltp = executedPrice k.cfg o.intent o.ltp := rfl
  have hdetects : (k.charging c).deliveryDetection = true := k.detects
  rw [SimulatedExecution.submit, purchase, dealt, hprice]
  cases hi : (k.charging c).instrument o.intent.symbol with
  | none =>
    have hs : o.intent.symbol ≠ k.symbol := by
      intro hs
      have hk : k.cfg.instrument o.intent.symbol = none := hi
      rw [hs, k.known] at hk
      cases hk
    rw [if_neg hs]
    simp
  | some instrument =>
    cases hp : executedPrice k.cfg o.intent o.ltp with
    | error reason =>
      simp [Except.toOption]
    | ok price =>
      dsimp only
      rw [noteEntry]
      by_cases hb : o.intent.side = "BUY"
      · have hbuys : o.buys = true := decide_eq_true hb
        rw [if_pos ⟨hb, hdetects⟩, if_pos hbuys]
        by_cases hs : o.intent.symbol = k.symbol
        · rw [if_pos hs, hs]
          simp [Dict.get_set_self, Except.toOption, charging]
        · rw [if_neg hs]
          simp [Dict.get_set_of_ne (Ne.symm hs)]
      · have hbuys : o.buys ≠ true := fun h => hb (of_decide_eq_true h)
        rw [if_neg fun h => hb h.1, if_neg hbuys]
        simp

/-- The target knows the last purchase. -/
theorem entry_runOrders (orders : List Ticket) :
    (runOrders (k.charging c) orders).entryDate.get k.symbol = (Trace.last k.purchase orders).map Prod.fst ∧
      (runOrders (k.charging c) orders).entryNotional.get k.symbol = (Trace.last k.purchase orders).map Prod.snd := by
  induction orders using List.reverseRecOn with
  | nil => exact ⟨rfl, rfl⟩
  | append_singleton orders o ih =>
    have hrun : runOrders (k.charging c) (orders ++ [o]) =
        (SimulatedExecution.submit (k.charging c) (fun _ s => s) o.ltp o.intent (runOrders (k.charging c) orders)).1 :=
      List.foldl_concat _ _ _ _
    obtain ⟨hd, hn⟩ := @entry_submit k c o (runOrders (k.charging c) orders)
    rw [hrun, Trace.last_concat, hd, hn, ih.1, ih.2]
    cases k.purchase o with
    | none => exact ⟨rfl, rfl⟩
    | some p => exact ⟨rfl, rfl⟩

def charged (k : EquityTarget) (c : IndianStatutoryCosts) (o : Ticket) (price : Rat) (last : Option (Int × Rat)) : Rat :=
  let held : Bool := o.buys = false ∧ last.any (·.1 < k.cfg.date o.intent.ts)
  round ((c.forInstrument k.instrument (some held)).totalCost (price * o.intent.quantity) o.intent.side
      (some (round (k.cfg.commission.apply (price * o.intent.quantity)) PRICE_PRECISION)) +
    if held then deliveryAdjustment c k.instrument ((last.map Prod.snd).getD 0) else 0) PRICE_PRECISION

theorem fill_eq (h : k.dealt o = some price) (pre : List Ticket) :
    ∃ fill, (SimulatedExecution.submit (k.charging c) (fun _ s => s) o.ltp o.intent
        (runOrders (k.charging c) pre)).1.fills.getLast? = some fill ∧
      fill.commission = round (k.cfg.commission.apply (price * o.intent.quantity)) PRICE_PRECISION ∧
      fill.statutory = k.charged c o price (Trace.last k.purchase pre) := by
  obtain ⟨hs, hp, -⟩ := dealt_eq_some h
  have hknown : (k.charging c).instrument o.intent.symbol = some k.instrument := hs ▸ k.known
  have hexec : executedPrice (k.charging c) o.intent o.ltp = .ok price := hp
  refine ⟨_, fills_submit hknown hexec, rfl, ?_⟩
  obtain ⟨hdate, hnotional⟩ := @entry_runOrders k c pre
  have hst : (k.charging c).statutory = some c := rfl
  rw [filledOf]
  dsimp only
  rw [statutoryCharge, hst, charged]
  dsimp only
  rw [heldOvernight, noteEntry]
  rcases o.side with hb | hb
  · have hbuys : o.buys = true := decide_eq_true hb
    simp [hb, hbuys, charging]
  · have hbuys : o.buys = false := by simp [Ticket.buys, hb]
    have hsell : ¬(o.intent.side = "BUY" ∧ (k.charging c).deliveryDetection = true) := by
      rw [hb]
      exact fun hc => absurd hc.1 (by decide)
    rw [if_neg hsell, hs, hdate, Dict.getD, hnotional]
    cases Trace.last k.purchase pre with
    | none => simp [hb, hbuys, charging]
    | some last => simp [hb, hbuys, k.detects, charging]

section Schedules
variable {held : List (Nat × (Int × Rat))} {commission : Rat}

theorem entryCost_eq_zero (h : Fifo.shares held = 0) : entryCost held = 0 := by
  apply List.sum_eq_zero
  intro x hx
  obtain ⟨l, hl, rfl⟩ := List.mem_map.mp hx
  have hz : l.1 = 0 := List.sum_eq_zero_iff.mp h l.1 (List.mem_map_of_mem hl)
  rw [hz, Nat.cast_zero, mul_zero]

theorem gstRate_forInstrument (c : IndianStatutoryCosts) (i : Instrument) (delivery : Option Bool) :
    (c.forInstrument i delivery).gstRate = c.gstRate := by
  rw [IndianStatutoryCosts.forInstrument]
  split <;> rfl

theorem deliveryAdjustment_zero (c : IndianStatutoryCosts) (i : Instrument) : deliveryAdjustment c i 0 = 0 := by
  have hz : ∀ model : IndianStatutoryCosts, model.stt 0 "BUY" = 0 ∧ model.stamp 0 "BUY" = 0 := by
    intro model
    rw [IndianStatutoryCosts.stt, IndianStatutoryCosts.stamp, zero_mul]
    exact ⟨rfl, by split <;> simp⟩
  rw [deliveryAdjustment, (hz _).1, (hz _).2, (hz _).1, (hz _).2, add_zero, sub_zero, sub_zero]
  exact round_of_mem (zero_mem _)

theorem due_of_whole (h : (Fifo.shares held : Int) = o.intent.quantity) :
    k.dueStatutory c o price held commission =
      round ((c.forInstrument k.instrument (some true)).totalCost (price * o.intent.quantity) o.intent.side (some commission) +
        deliveryAdjustment c k.instrument (entryCost held)) PRICE_PRECISION := by
  have hn : (Fifo.shares held : Rat) = o.intent.quantity := by exact_mod_cast h
  rw [dueStatutory, hn, sub_self, IndianStatutoryCosts.totalCost_some _ _ 0, IndianStatutoryCosts.totalCost_some _ 0,
    IndianStatutoryCosts.totalCost_some _ _ commission, gstRate_forInstrument, gstRate_forInstrument]
  congr 1
  ring

theorem due_of_none (h : Fifo.shares held = 0) :
    k.dueStatutory c o price held commission =
      round ((c.forInstrument k.instrument (some false)).totalCost (price * o.intent.quantity) o.intent.side
        (some commission)) PRICE_PRECISION := by
  rw [dueStatutory, h, entryCost_eq_zero h, deliveryAdjustment_zero, Nat.cast_zero, mul_zero, sub_zero,
    IndianStatutoryCosts.totalCost_some _ 0 0]
  congr 1
  ring

/-- A schedule that taxes nothing but delivery: its sales and its purchases. -/
def rated (sell buy : Rat) : IndianStatutoryCosts where
  product := .equity
  delivery := false
  brokerage := 0
  sttRates := ⟨[("equity_delivery_sell", sell), ("equity_delivery_buy", buy)], by simp⟩
  exchangeRates := Dict.empty
  sebiFee := 0
  gstRate := 0
  stampRates := Dict.empty

private theorem sell_upper : "SELL".toUpper = "SELL" := by decide +kernel

private theorem buy_upper : "BUY".toUpper = "BUY" := by decide +kernel

theorem forInstrument_rated (sell buy : Rat) (delivery : Option Bool) :
    (rated sell buy).forInstrument k.instrument delivery = { rated sell buy with delivery := delivery.getD false } := by
  rw [IndianStatutoryCosts.forInstrument, k.equity]
  rfl

theorem totalCost_rated (sell buy notional : Rat) (delivery : Bool) (brokerage : Option Rat) :
    ((rated sell buy).forInstrument k.instrument (some delivery)).totalCost notional "SELL" brokerage =
      if delivery then notional * sell else 0 := by
  rw [forInstrument_rated]
  cases delivery with
  | true =>
    simp [IndianStatutoryCosts.totalCost, IndianStatutoryCosts.stt, IndianStatutoryCosts.sttKey, sell_upper,
      IndianStatutoryCosts.exchangeCharge, IndianStatutoryCosts.sebi, IndianStatutoryCosts.stamp,
      IndianStatutoryCosts.gst, rated, Dict.getD, Dict.get, Dict.empty]
  | false =>
    simp [IndianStatutoryCosts.totalCost, IndianStatutoryCosts.stt, IndianStatutoryCosts.sttKey, sell_upper,
      IndianStatutoryCosts.exchangeCharge, IndianStatutoryCosts.sebi, IndianStatutoryCosts.stamp,
      IndianStatutoryCosts.gst, rated, Dict.getD, Dict.get, Dict.empty]

theorem deliveryAdjustment_rated (sell buy notional : Rat) :
    deliveryAdjustment (rated sell buy) k.instrument notional = round (notional * buy) PRICE_PRECISION := by
  rw [deliveryAdjustment, forInstrument_rated, forInstrument_rated]
  simp [IndianStatutoryCosts.stt, IndianStatutoryCosts.sttKey, buy_upper, IndianStatutoryCosts.stamp, rated,
    Dict.getD, Dict.get, Dict.empty]

end Schedules

section Exactness
variable {held : List (Nat × (Int × Rat))} {last : Option (Int × Rat)} {commission : Rat}

theorem charged_overnight (hb : o.buys = false) (hlast : last.any (·.1 < k.cfg.date o.intent.ts)) :
    k.charged c o price last =
      round ((c.forInstrument k.instrument (some true)).totalCost (price * o.intent.quantity) o.intent.side
        (some (round (k.cfg.commission.apply (price * o.intent.quantity)) PRICE_PRECISION)) +
        deliveryAdjustment c k.instrument ((last.map Prod.snd).getD 0)) PRICE_PRECISION := by
  have hheld : decide (o.buys = false ∧ last.any (·.1 < k.cfg.date o.intent.ts)) = true := decide_eq_true ⟨hb, hlast⟩
  rw [charged, hheld, if_pos rfl]

theorem charged_intraday (h : ¬(o.buys = false ∧ last.any (·.1 < k.cfg.date o.intent.ts))) :
    k.charged c o price last =
      round ((c.forInstrument k.instrument (some false)).totalCost (price * o.intent.quantity) o.intent.side
        (some (round (k.cfg.commission.apply (price * o.intent.quantity)) PRICE_PRECISION))) PRICE_PRECISION := by
  have hheld : decide (o.buys = false ∧ last.any (·.1 < k.cfg.date o.intent.ts)) = false := decide_eq_false h
  rw [charged, hheld, if_neg Bool.false_ne_true, add_zero]

/-- Whole numbers that round alike are equal. -/
private theorem eq_of_round_eq {m n : Int} (h : round (m : Rat) PRICE_PRECISION = round (n : Rat) PRICE_PRECISION) :
    m = n := by
  have hle := abs_sub_le_of_round_eq h
  have hlt : ((|m - n| : Int) : Rat) < 1 := by
    rw [Int.cast_abs, Int.cast_sub]
    exact hle.trans_lt (by decide +kernel)
  exact sub_eq_zero.mp (Int.abs_lt_one_iff.mp (by exact_mod_cast hlt))

/-- Amounts that any rate taxes alike are equal. -/
private theorem eq_of_round_mul_eq {x y : Rat}
    (h : ∀ rate : Rat, round (x * rate) PRICE_PRECISION = round (y * rate) PRICE_PRECISION) : x = y := by
  by_contra hne
  have hd : 0 < |x - y| := abs_pos.mpr (sub_ne_zero.mpr hne)
  have hle := abs_sub_le_of_round_eq (h (1 / |x - y|))
  rw [← sub_mul, abs_mul, abs_of_pos (one_div_pos.mpr hd), mul_one_div, div_self hd.ne'] at hle
  exact absurd hle (by decide +kernel)

private theorem round_round (x : Rat) : round (round x PRICE_PRECISION) PRICE_PRECISION = round x PRICE_PRECISION :=
  round_of_mem (round_mem _ _)

theorem due_rated (hside : o.intent.side = "SELL") (sell buy : Rat) :
    k.dueStatutory (rated sell buy) o price held commission =
      round (price * Fifo.shares held * sell + round (entryCost held * buy) PRICE_PRECISION) PRICE_PRECISION := by
  rw [dueStatutory, hside, totalCost_rated, totalCost_rated, deliveryAdjustment_rated, if_pos rfl,
    if_neg Bool.false_ne_true, add_zero]

/-- Under every schedule an order is charged what is due exactly when the last purchase tells what is sold. -/
theorem charged_eq_due_iff (hp : 0 < price) (hheld : o.buys = true → held = []) :
    (∀ c, k.charged c o price last = k.dueStatutory c o price held
        (round (k.cfg.commission.apply (price * o.intent.quantity)) PRICE_PRECISION)) ↔
      (o.buys = false →
        if last.any (·.1 < k.cfg.date o.intent.ts) then
          (Fifo.shares held : Int) = o.intent.quantity ∧ entryCost held = (last.map Prod.snd).getD 0
        else Fifo.shares held = 0) := by
  cases hb : o.buys with
  | true =>
    have hnone : Fifo.shares held = 0 := by rw [hheld hb, Fifo.shares_nil]
    refine iff_of_true (fun c => ?_) nofun
    rw [charged_intraday fun h => by simp [hb] at h, due_of_none hnone]
  | false =>
    have hside : o.intent.side = "SELL" := o.side.resolve_left (of_decide_eq_false hb)
    have hunit (m : Int) : price * m * (1 / price) = m := by
      rw [mul_right_comm, mul_one_div, div_self hp.ne', one_mul]
    rw [forall_prop_of_true rfl]
    by_cases hlast : last.any (·.1 < k.cfg.date o.intent.ts) = true
    · rw [if_pos hlast]
      constructor
      · intro h
        constructor
        · have hsale := h (rated (1 / price) 0)
          rw [charged_overnight hb hlast, due_rated hside, hside, totalCost_rated, deliveryAdjustment_rated, if_pos rfl,
            mul_zero, mul_zero, round_of_mem (zero_mem _), add_zero, add_zero, hunit] at hsale
          have hn := hunit (Fifo.shares held)
          rw [Int.cast_natCast] at hn
          rw [hn, ← Int.cast_natCast] at hsale
          exact (eq_of_round_eq hsale).symm
        · apply eq_of_round_mul_eq
          intro rate
          have hentry := h (rated 0 rate)
          rw [charged_overnight hb hlast, due_rated hside, hside, totalCost_rated, deliveryAdjustment_rated, if_pos rfl,
            mul_zero, mul_zero, zero_add, zero_add, round_round, round_round] at hentry
          exact hentry.symm
      · rintro ⟨hn, he⟩ c
        rw [charged_overnight hb hlast, due_of_whole hn, he]
    · rw [if_neg hlast]
      have hno : ¬(o.buys = false ∧ last.any (·.1 < k.cfg.date o.intent.ts)) := fun h => hlast h.2
      constructor
      · intro h
        have hsale := h (rated (1 / price) 0)
        have hn := hunit (Fifo.shares held)
        rw [Int.cast_natCast] at hn
        rw [charged_intraday hno, due_rated hside, hside, totalCost_rated, if_neg Bool.false_ne_true, mul_zero,
          round_of_mem (zero_mem _), add_zero, hn] at hsale
        have hround : round ((0 : Int) : Rat) PRICE_PRECISION = round ((Fifo.shares held : Int) : Rat) PRICE_PRECISION := by
          rw [Int.cast_zero, round_of_mem (zero_mem _), Int.cast_natCast]
          exact hsale
        exact_mod_cast (eq_of_round_eq hround).symm
      · intro hn c
        rw [charged_intraday hno, due_of_none hn]

end Exactness

/-- Whatever the schedule, every fill of the equity in every run of orders is charged delivery for the shares held
overnight and no others exactly when each sale is of the last purchase, held overnight, or of no such share. -/
theorem delivery_once_iff (k : EquityTarget) (orders : List Ticket) :
    (∀ c, k.DeliveredOnce c orders) ↔ Trace.Each k.SoldAsBought orders := by
  have hbuys (pre : List Ticket) (o : Ticket) : o.buys = true → k.heldShares pre o = [] := fun h => if_pos h
  constructor
  · rintro h pre o suf rfl price hdealt
    refine (charged_eq_due_iff (dealt_eq_some hdealt).2.2 (hbuys pre o)).mp fun c => ?_
    obtain ⟨fill, hfill, hcom, hstat⟩ := @fill_eq k c o price hdealt pre
    rw [← hstat, ← hcom]
    exact h c pre o suf rfl price fill hdealt hfill
  · rintro h c pre o suf rfl price fill hdealt hfill
    obtain ⟨fill', hfill', hcom, hstat⟩ := @fill_eq k c o price hdealt pre
    obtain rfl := Option.some.inj (hfill.symm.trans hfill')
    rw [hstat, hcom]
    exact (charged_eq_due_iff (dealt_eq_some hdealt).2.2 (hbuys pre o)).mpr (h pre o suf rfl price hdealt) c

end EquityTarget

private def stockTarget : EquityTarget where
  cfg := { instrument := fun _ => some ⟨"TCS", "NSE", .equity, false⟩, date := fun ts => ⌊ts⌋ }
  instrument := ⟨"TCS", "NSE", .equity, false⟩
  symbol := "TCS"
  detects := rfl
  known := rfl
  equity := rfl

private def order (buy : Bool) (quantity : Int) (day : Rat) : Ticket where
  intent := { symbol := "TCS", exchange := "NSE", side := if buy then "BUY" else "SELL", quantity, price := 100, ts := day }
  ltp := none
  side := by cases buy <;> simp

/-- Ten shares bought on day 1 and sold in two halves on day 2 pay the uplift of their purchase twice. -/
theorem two_halves_pay_uplift_twice :
    ¬ stockTarget.DeliveredOnce IndianStatutoryCosts.default [order true 10 1, order false 5 2, order false 5 2] := by
  intro h
  have hdealt : stockTarget.dealt (order false 5 2) = some 100 := by decide +kernel
  obtain ⟨fill, hfill, hcom, hstat⟩ := @EquityTarget.fill_eq stockTarget IndianStatutoryCosts.default _ _ hdealt
    [order true 10 1, order false 5 2]
  have hdue := h [order true 10 1, order false 5 2] (order false 5 2) [] rfl 100 fill hdealt hfill
  rw [hstat, hcom] at hdue
  revert hdue
  decide +kernel

end NTrade.Execution
