import NTrade.Execution.Simulator
import Mathlib.Tactic.FieldSimp
import Mathlib.Tactic.Ring

/-! The charges of the simulated and of the live target on one trade. -/
namespace NTrade.Execution
open NTrade.Domain NTrade.Events NTrade.Lib

structure SimulatedFill (cfg : SimulatedConfig) where
  publish : Event → SimulatedExecution → SimulatedExecution
  before : SimulatedExecution
  ltp : Option Rat
  intent : OrderIntent
  instrument : Instrument
  price : Rat
  fill : OrderFilled
  known : cfg.instrument intent.symbol = some instrument
  executed : SimulatedExecution.executedPrice cfg intent ltp = .ok price
  last : (SimulatedExecution.submit cfg publish ltp intent before).1.fills.getLast? = some fill

structure BrokerFill (cfg : Config) where
  orderId : String
  intent : OrderIntent
  order : Order
  already : Int
  now : Rat
  instrument : Instrument
  fill : OrderFilled
  known : cfg.instrument intent.symbol = some instrument
  filled : fillOf cfg orderId intent order already now = some fill

namespace SimulatedFill
variable {cfg : SimulatedConfig} (a : SimulatedFill cfg)

def found : SimulatedExecution :=
  a.publish (.accepted (acceptance (simId (a.before.seq + 1)) a.intent)) { a.before with seq := a.before.seq + 1 }

/-- The fill does not close a position entered on an earlier date, or nothing looks for that. -/
def SameDay : Prop :=
  cfg.deliveryDetection = false ∨ a.intent.side = "BUY" ∨
    ∀ day, a.found.entryDate.get a.intent.symbol = some day → cfg.date a.intent.ts ≤ day

theorem fill_eq : a.fill = SimulatedExecution.filledOf cfg a.instrument (simId (a.before.seq + 1)) a.intent a.price
    (SimulatedExecution.noteEntry cfg a.intent (a.price * a.intent.quantity) a.found) := by
  have h := a.last
  rw [SimulatedExecution.fills_submit a.known a.executed] at h
  exact (Option.some.inj h).symm

variable {a}

theorem heldOvernight_eq_false (h : a.SameDay) :
    SimulatedExecution.heldOvernight cfg a.intent
      (SimulatedExecution.noteEntry cfg a.intent (a.price * a.intent.quantity) a.found) = false := by
  rw [SimulatedExecution.heldOvernight, SimulatedExecution.noteEntry, decide_eq_false_iff_not]
  rintro ⟨hside, hon, hearlier⟩
  rw [if_neg (fun hc => hside hc.1)] at hearlier
  rcases h with h | h | h
  · rw [h] at hon
    cases hon
  · exact hside h
  · cases hget : a.found.entryDate.get a.intent.symbol with
    | none =>
      rw [hget] at hearlier
      cases hearlier
    | some day =>
      rw [hget] at hearlier
      exact absurd (h day hget) (not_le.mpr (of_decide_eq_true hearlier))

end SimulatedFill

namespace IndianStatutoryCosts

/-- What the transaction tax and the stamp duty take of each unit of notional. -/
def dutyRate (c : IndianStatutoryCosts) (side : String) : Rat := c.stt 1 side + c.stamp 1 side

def intraday (c : IndianStatutoryCosts) : IndianStatutoryCosts := { c with delivery := false }

variable (c : IndianStatutoryCosts)

theorem stt_add_stamp (notional : Rat) (side : String) :
    c.stt notional side + c.stamp notional side = notional * c.dutyRate side := by
  rw [dutyRate, stt, stt, stamp, stamp]
  split <;> ring

/-- The delivery flag moves a charge through the tax and the stamp duty only. -/
theorem totalCost_intraday_sub (notional : Rat) (side : String) (brokerage : Option Rat) :
    c.intraday.totalCost notional side brokerage - c.totalCost notional side brokerage =
      notional * (c.intraday.dutyRate side - c.dutyRate side) := by
  have hi := c.intraday.stt_add_stamp notional side
  have hc := c.stt_add_stamp notional side
  have hg : c.intraday.gst notional brokerage = c.gst notional brokerage := rfl
  have he : c.intraday.exchangeCharge notional = c.exchangeCharge notional := rfl
  have hs : c.intraday.sebi notional = c.sebi notional := rfl
  rw [totalCost, totalCost, hg, he, hs]
  linarith

theorem dutyRate_intraday_of_product (h : c.product ≠ .equity) (side : String) :
    c.intraday.dutyRate side = c.dutyRate side := by
  have hp : c.product = .futures ∨ c.product = .options := by
    cases hc : c.product with
    | equity => exact absurd hc h
    | futures => exact .inl rfl
    | options => exact .inr rfl
  have hi : c.intraday.product = .futures ∨ c.intraday.product = .options := hp
  rw [dutyRate, dutyRate, stt, stt, stamp, stamp, sttKey, sttKey, if_pos hp, if_pos hi, if_pos hp, if_pos hi]
  rfl

theorem forInstrument_derivative {instrument : Instrument} (h : instrument.kind = .option ∨ instrument.kind = .future) :
    c.forInstrument instrument (some false) = c.forInstrument instrument none := by
  rcases h with h | h <;> rw [forInstrument, forInstrument, h] <;> rfl

theorem forInstrument_cash {instrument : Instrument} (ho : instrument.kind ≠ .option) (hf : instrument.kind ≠ .future) :
    c.forInstrument instrument (some false) = c.intraday ∧ c.forInstrument instrument none = c := by
  cases hk : instrument.kind <;> first
    | exact absurd hk ho
    | exact absurd hk hf
    | (rw [forInstrument, forInstrument, hk]; exact ⟨rfl, rfl⟩)

theorem forInstrument_congr {i j : Instrument} (h : i.kind = j.kind) (delivery : Option Bool) :
    c.forInstrument i delivery = c.forInstrument j delivery := by
  rw [forInstrument, forInstrument, h]

theorem totalCost_forInstrument {instrument : Instrument} {side : String}
    (h : instrument.kind = .option ∨ instrument.kind = .future ∨ c.product ≠ .equity ∨ c.delivery = false ∨
      c.intraday.dutyRate side = c.dutyRate side) (notional : Rat) (brokerage : Option Rat) :
    (c.forInstrument instrument (some false)).totalCost notional side brokerage =
      (c.forInstrument instrument none).totalCost notional side brokerage := by
  by_cases hd : instrument.kind = .option ∨ instrument.kind = .future
  · rw [c.forInstrument_derivative hd]
  · obtain ⟨ho, hf⟩ := not_or.mp hd
    obtain ⟨hi, hn⟩ := c.forInstrument_cash ho hf
    have hrate : c.intraday.dutyRate side = c.dutyRate side := by
      rcases h with h | h | h | h | h
      · exact absurd h ho
      · exact absurd h hf
      · exact c.dutyRate_intraday_of_product h side
      · rw [intraday, ← h]
      · exact h
    have hsub := c.totalCost_intraday_sub notional side brokerage
    rw [hrate, sub_self, mul_zero] at hsub
    rw [hi, hn]
    exact sub_eq_zero.mp hsub

end IndianStatutoryCosts

/-- The charges of one trade executed by both targets: same models, same class, same side, price and quantity. -/
def ChargesAgree (commission : CommissionModel) (statutory : Option IndianStatutoryCosts) (kind : InstrumentKind)
    (side : String) : Prop :=
  ∀ (sim : SimulatedConfig) (cfg : Config), sim.commission = commission → cfg.commission = commission →
    sim.statutory = statutory → cfg.statutory = statutory →
    ∀ (a : SimulatedFill sim) (b : BrokerFill cfg), a.instrument.kind = kind → b.instrument.kind = kind →
      a.intent.side = side → b.intent.side = side → a.SameDay →
      a.price = b.fill.fillPrice → a.fill.quantity = b.fill.quantity →
      a.fill.commission = b.fill.commission ∧ a.fill.statutory = b.fill.statutory

/-- The schedule is not one for delivery, does not apply to the class, or taxes the side alike. -/
def SchedulesAgree (statutory : Option IndianStatutoryCosts) (kind : InstrumentKind) (side : String) : Prop :=
  ∀ c, statutory = some c →
    kind = .option ∨ kind = .future ∨ c.product ≠ .equity ∨ c.delivery = false ∨
      c.intraday.dutyRate side = c.dutyRate side

theorem SimulatedFill.charges {cfg : SimulatedConfig} {a : SimulatedFill cfg} (h : a.SameDay) :
    a.fill.quantity = a.intent.quantity ∧
    a.fill.commission = round (cfg.commission.apply (a.price * a.intent.quantity)) PRICE_PRECISION ∧
    a.fill.statutory = match cfg.statutory with
      | none => 0
      | some c => round ((c.forInstrument a.instrument (some false)).totalCost (a.price * a.intent.quantity)
          a.intent.side (some a.fill.commission)) PRICE_PRECISION := by
  have hf := heldOvernight_eq_false h
  rw [a.fill_eq]
  refine ⟨rfl, rfl, ?_⟩
  rw [SimulatedExecution.filledOf]
  dsimp only
  rw [SimulatedExecution.statutoryCharge]
  cases cfg.statutory with
  | none => rfl
  | some c =>
    dsimp only
    rw [hf, if_neg Bool.false_ne_true, add_zero]

theorem BrokerFill.charges {cfg : Config} (b : BrokerFill cfg) :
    b.fill.commission = round (cfg.commission.apply (b.fill.fillPrice * b.fill.quantity)) PRICE_PRECISION ∧
    b.fill.statutory = match cfg.statutory with
      | none => 0
      | some c => round ((c.forInstrument b.instrument none).totalCost (b.fill.fillPrice * b.fill.quantity)
          b.intent.side (some b.fill.commission)) PRICE_PRECISION := by
  have h := b.filled
  rw [fillOf] at h
  dsimp only at h
  split_ifs at h with hq hp
  obtain hfill := Option.some.inj h
  rw [← hfill]
  refine ⟨rfl, ?_⟩
  dsimp only
  rw [statutoryOf]
  cases cfg.statutory with
  | none => rfl
  | some c =>
    dsimp only
    rw [b.known]

section Trade
variable (commission : CommissionModel) (statutory : Option IndianStatutoryCosts) (kind : InstrumentKind)
  (side : String) (price : Rat) (quantity : Int)

private def listed : Instrument := ⟨"INFY", "NSE", kind, true⟩

private def simulated : SimulatedConfig where
  instrument _ := some (listed kind)
  date _ := 0
  commission
  statutory
  deliveryDetection := false

private def live : Config where
  instrument _ := some (listed kind)
  commission
  statutory := statutory

private def limitOrder : OrderIntent where
  symbol := "INFY"
  exchange := "NSE"
  side
  quantity
  price := price

private def simulatedTrade (hp : 0 < price) : SimulatedFill (simulated commission statutory kind) where
  publish _ s := s
  before := {}
  ltp := none
  intent := limitOrder side price quantity
  instrument := listed kind
  price
  fill := SimulatedExecution.filledOf (simulated commission statutory kind) (listed kind) (simId 1)
    (limitOrder side price quantity) price
    (SimulatedExecution.noteEntry (simulated commission statutory kind) (limitOrder side price quantity)
      (price * quantity) { seq := 1 })
  known := rfl
  executed := if_neg (not_le.mpr hp)
  last := SimulatedExecution.fills_submit rfl (if_neg (not_le.mpr hp))

private def brokerTrade (hp : 0 < price) (hq : 0 < quantity) : BrokerFill (live commission statutory kind) where
  orderId := "1"
  intent := limitOrder side price quantity
  order := { side := .buy, quantity, filledQty := some quantity, avgPrice := some price }
  already := 0
  now := 0
  instrument := listed kind
  fill :=
    { orderId := "1", symbol := "INFY", exchange := "NSE", side, quantity, fillPrice := price
      commission := commissionOf (live commission statutory kind) (price * quantity)
      statutory := statutoryOf (live commission statutory kind) (limitOrder side price quantity) (price * quantity)
        (commissionOf (live commission statutory kind) (price * quantity))
      ts := 0 }
  known := rfl
  filled := by
    have hprice : fillPrice (limitOrder side price quantity) (some price) = price := if_neg hp.ne'
    rw [fillOf]
    dsimp only
    rw [toInt_intCast, sub_zero, hprice, if_neg (not_le.mpr hq), if_neg (not_le.mpr hp)]
    rfl

variable {commission statutory kind side}

/-- What agreement says of that order. -/
private theorem statutory_eq_of_agree {c : IndianStatutoryCosts} (h : ChargesAgree commission (some c) kind side)
    (hp : 0 < price) (hq : 0 < quantity) :
    let notional := price * quantity
    let brokerage := some (round (commission.apply notional) PRICE_PRECISION)
    round ((c.forInstrument (listed kind) (some false)).totalCost notional side brokerage) PRICE_PRECISION =
      round ((c.forInstrument (listed kind) none).totalCost notional side brokerage) PRICE_PRECISION := by
  let a := simulatedTrade commission (some c) kind side price quantity hp
  let b := brokerTrade commission (some c) kind side price quantity hp hq
  have ha : a.SameDay := .inl rfl
  obtain ⟨-, hst⟩ := h _ _ rfl rfl rfl rfl a b rfl rfl rfl rfl ha rfl rfl
  exact (SimulatedFill.charges ha).2.2.symm.trans (hst.trans b.charges.2)

end Trade

/-- For every commission model, the two targets charge every trade of a class and side alike exactly when the
configured schedule is not one for delivery, does not apply to the class, or takes as much either way. -/
theorem charges_agree_iff (commission : CommissionModel) (statutory : Option IndianStatutoryCosts)
    (kind : InstrumentKind) (side : String) :
    ChargesAgree commission statutory kind side ↔ SchedulesAgree statutory kind side := by
  constructor
  · intro h c hc
    by_contra hne
    obtain ⟨ho, hne⟩ := not_or.mp hne
    obtain ⟨hf, hne⟩ := not_or.mp hne
    have hrate := (not_or.mp (not_or.mp hne).2).2
    have hd : 0 < |c.intraday.dutyRate side - c.dutyRate side| := abs_pos.mpr (sub_ne_zero.mpr hrate)
    -- one share so dear that the two schedules are a whole unit apart
    have hp : 0 < 1 / |c.intraday.dutyRate side - c.dutyRate side| := one_div_pos.mpr hd
    subst hc
    have he := statutory_eq_of_agree _ 1 h hp Int.one_pos
    dsimp only at he
    obtain ⟨hi, hn⟩ := @IndianStatutoryCosts.forInstrument_cash c (listed kind) ho hf
    rw [hi, hn] at he
    have hle := abs_sub_le_of_round_eq he
    rw [c.totalCost_intraday_sub, Int.cast_one, mul_one, abs_mul, abs_of_pos hp, one_div,
      inv_mul_cancel₀ hd.ne', PRICE_PRECISION] at hle
    norm_num at hle
  · intro h sim cfg hsc hcc hss hcs a b hak hbk has hbs hday hprice hqty
    obtain ⟨haq, hac, hast⟩ := SimulatedFill.charges hday
    obtain ⟨hbc, hbst⟩ := b.charges
    have hn : a.price * a.intent.quantity = b.fill.fillPrice * b.fill.quantity := by
      rw [← hprice, ← hqty, haq]
    have hcom : a.fill.commission = b.fill.commission := by rw [hac, hbc, hn, hsc, hcc]
    refine ⟨hcom, ?_⟩
    rw [hast, hbst, hss, hcs, hn, hcom, has, hbs]
    cases statutory with
    | none => rfl
    | some c =>
      dsimp only
      rw [c.forInstrument_congr (hak.trans hbk.symm), c.totalCost_forInstrument (hbk ▸ h c rfl)]

private def deliveryCosts : IndianStatutoryCosts := { IndianStatutoryCosts.default with delivery := true }

/-- Ten shares sold at 100 on a delivery schedule: the simulated target takes the intraday tax. -/
theorem delivery_sale_differs : ¬ ChargesAgree (FlatCommission 0) (some deliveryCosts) .equity "SELL" := by
  intro h
  have he := statutory_eq_of_agree 100 10 h (by decide) (by decide)
  revert he
  decide +kernel

end NTrade.Execution
