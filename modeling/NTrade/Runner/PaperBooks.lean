import NTrade.Brokers.Paper
import NTrade.Runner.Books

/-! Orders on their way through the executor to the paper broker, whose position book and the
portfolio engine's are kept apart: each nets the same fills by an algorithm of its own. -/
namespace NTrade.Runner
open NTrade.Domain NTrade.Events NTrade.Engines NTrade.Execution NTrade.Brokers NTrade.Lib

structure PaperRequest where
  intent : OrderIntent
  key : Nat
  market : MarketView := {}
  now : Rat := 0

structure PaperSession where
  world : World := {}
  paper : PaperBroker := {}

def answerOf (paper : PaperBroker) (instrument : Instrument) (r : PaperRequest) : Placement × PaperBroker :=
  match request instrument r.intent with
  | .error reason => (.failed reason, paper)
  | .ok order =>
    match paper.placeOrder instrument order r.market with
    | .error reason => (.failed reason, paper)
    | .ok (order, paper) =>
      (.placed order.orderId { status := order.status, filledQty := order.filledQty, avgPrice := order.avgPrice }, paper)

def PaperSession.target (cfg : Config) (s : PaperSession) (r : PaperRequest) : Option Instrument :=
  match cfg.brokerBacked r.intent.symbol, s.world.exec.idem.checkAndReserve r.key with
  | some instrument, .ok (none, _) => some instrument
  | _, _ => none

def PaperSession.route (cfg : Config) (s : PaperSession) (r : PaperRequest) : PaperSession :=
  let done :=
    match s.target cfg r with
    | none => (Placement.failed "", s.paper)
    | some instrument => answerOf s.paper instrument r
  { world := (submit cfg r.intent r.key done.1 r.now id id s.world).1
    paper := done.2 }

def routeAll (cfg : Config) (rs : List PaperRequest) (s : PaperSession) : PaperSession := rs.foldl (PaperSession.route cfg) s

def PaperSession.fills (s : PaperSession) : List OrderFilled := s.world.trace.filterMap fillIn

def PaperSession.ledger (s : PaperSession) (cash : Rat) : TradingContext :=
  s.world.trace.foldl bookFill { balance := cash }

/-- The two books hold the same shares of the same symbols, and their prices differ by what
the broker has rounded off since a position was entered. -/
structure SameBook (s : PaperSession) (ctx : TradingContext) : Prop where
  quantities : ∀ symbol, (s.paper.positions.get symbol).map Domain.Position.quantity =
    (ctx.position symbol).map Domain.Position.quantity
  prices : ∀ symbol p q, s.paper.positions.get symbol = some p → ctx.position symbol = some q →
    |p.avgPrice - q.avgPrice| ≤ Holding.averaged (tradesOf symbol s.fills) * (1 / 2 / 10 ^ 4)

/-- An order that the broker fills is for no shares, or for shares at a price that two decimals
can tell from zero, where a purchase is spelled as the portfolio engine reads it. -/
def bookable (cfg : Config) (s : PaperSession) (r : PaperRequest) : Bool :=
  (s.target cfg r).all fun instrument => (request instrument r.intent).toOption.all fun order =>
    (paperPrice order r.market).all fun price =>
      r.intent.quantity = 0 ∨
        0 < r.intent.quantity ∧ 0 < round price 2 ∧ (order.side = .buy → r.intent.side = "BUY")

section Submit
variable (cfg : Config) {w : World} (intent : OrderIntent) (key : Nat) (now : Rat) {instrument : Instrument} {order : Order}

private theorem request_fields {intent : OrderIntent} (h : request instrument intent = .ok order) :
    OrderSide.ofValue intent.side.toUpper = .ok order.side ∧ order.quantity = intent.quantity := by
  rw [request] at h
  obtain ⟨orderType, -, h⟩ := bind_eq_ok h
  rw [OrderFacade.place] at h
  obtain ⟨side, hs, h⟩ := bind_eq_ok h
  split at h
  · cases h
    exact ⟨hs, rfl⟩
  · cases h

/-- An order that the venue has filled at once is reported as one fill, and not tracked. -/
private theorem fills_acknowledge (orderId : String) (order : Order) (ho : w.exec.openOrders = Dict.empty) (hf : order.isFilled = true) :
    (acknowledge cfg orderId intent order now id id w).trace.filterMap fillIn =
        w.trace.filterMap fillIn ++ (fillOf cfg orderId intent order 0 now).toList ∧
      (acknowledge cfg orderId intent order now id id w).exec.openOrders = Dict.empty := by
  have hr (w' : World) (h : w'.exec.openOrders = w.exec.openOrders) : w'.record orderId = none := by
    rw [World.record, h, ho]
    rfl
  rw [acknowledge, if_pos hf, emitFill, hr (w.publish (.accepted (acceptance orderId intent)) id) rfl]
  dsimp only [Option.map_none, Option.getD_none]
  cases fillOf cfg orderId intent order 0 now with
  | none => exact ⟨by simp [World.publish, World.enter, World.leave, fillIn], ho⟩
  | some fill => exact ⟨by simp [World.publish, World.enter, World.leave, fillIn, List.filterMap_cons], ho⟩

private theorem fills_accept (ho : w.exec.openOrders = Dict.empty) (hf : order.isFilled = true) (answer : Option String) :
    ∃ orderId, (accept cfg intent key answer order now id id w).trace.filterMap fillIn =
        w.trace.filterMap fillIn ++ (fillOf cfg orderId intent order 0 now).toList ∧
      (accept cfg intent key answer order now id id w).exec.openOrders = Dict.empty := by
  obtain ⟨orderId, w', ht, hw, he⟩ : ∃ orderId w', w'.trace.filterMap fillIn = w.trace.filterMap fillIn ∧
      w'.exec.openOrders = Dict.empty ∧ accept cfg intent key answer order now id id w =
        acknowledge cfg orderId intent { order with orderId := some orderId } now id id w' :=
    ⟨_, _, by simp [World.log, World.assign, fillIn], ho, rfl⟩
  have h := fills_acknowledge cfg intent now orderId { order with orderId := some orderId } hw hf
  rw [he]
  refine ⟨orderId, ?_, h.2⟩
  rw [h.1, ht]
  rfl

private theorem submit_failed (w : World) (reason : String) :
    (submit cfg intent key (.failed reason) now id id w).1.trace.filterMap fillIn = w.trace.filterMap fillIn ∧
      (submit cfg intent key (.failed reason) now id id w).1.exec.openOrders = w.exec.openOrders := by
  unfold submit
  split
  · exact ⟨rfl, rfl⟩
  · dsimp only
    split
    · exact ⟨by simp [World.log, fillIn], rfl⟩
    · exact ⟨by simp [World.log, fillIn], rfl⟩
    · unfold place
      split
      · exact ⟨by simp [World.log, World.setIdem, fillIn], rfl⟩
      · exact ⟨by simp [World.log, World.setIdem, fillIn], rfl⟩
      · next hp => cases hp

end Submit

section Route
variable {cfg : Config} {s : PaperSession} {r : PaperRequest}

structure Kept (s : PaperSession) : Prop where
  settled : s.world.exec.openOrders = Dict.empty
  sound : ∀ e ∈ s.fills, 0 < e.quantity ∧ 0 < e.fillPrice
  booked : ∀ symbol, Booked (Holding.ofTradesRounded (round · 4) (tradesOf symbol s.fills)) (s.paper.positions.get symbol)

private theorem Kept.congr {t : PaperSession} (h : Kept s) (ho : t.world.exec.openOrders = s.world.exec.openOrders)
    (hf : t.fills = s.fills)
    (hb : ∀ symbol h, Booked h (s.paper.positions.get symbol) → Booked h (t.paper.positions.get symbol)) : Kept t := by
  refine ⟨ho.trans h.settled, ?_, fun symbol => ?_⟩
  · rw [hf]
    exact h.sound
  · rw [hf]
    exact hb symbol _ (h.booked symbol)

private theorem target_eq_some {instrument : Instrument} (h : s.target cfg r = some instrument) :
    cfg.brokerBacked r.intent.symbol = some instrument ∧
      ∃ idem, s.world.exec.idem.checkAndReserve r.key = .ok (none, idem) := by
  unfold PaperSession.target at h
  split at h
  · next idem hi hc =>
    obtain rfl := Option.some.inj h
    exact ⟨hi, idem, hc⟩
  · cases h

/-- A fresh request that the broker fills reaches the kernel as it was filled. -/
private theorem submit_placed {instrument : Instrument} {order : Order} (report : Report) (answer : Option String)
    (ht : s.target cfg r = some instrument) (hr : request instrument r.intent = .ok order)
    (ho : s.world.exec.openOrders = Dict.empty) (hf : report.status = .completed) :
    ∃ orderId,
      (submit cfg r.intent r.key (.placed answer report) r.now id id s.world).1.trace.filterMap fillIn =
        s.fills ++ (fillOf cfg orderId r.intent (report.apply order) 0 r.now).toList ∧
      (submit cfg r.intent r.key (.placed answer report) r.now id id s.world).1.exec.openOrders = Dict.empty := by
  obtain ⟨hi, idem, hc⟩ := target_eq_some ht
  let w := s.world.log (.submitted (s.world.stack.head?.map Stamp.eventId) r.intent r.key
    (s.world.exec.idem.completed.get r.key))
  have hs : (submit cfg r.intent r.key (.placed answer report) r.now id id s.world).1 =
      accept cfg r.intent r.key answer (report.apply order) r.now id id ((w.setIdem idem).log (.ordered r.intent)) := by
    have hc' : w.exec.idem.checkAndReserve r.key = .ok (none, idem) := hc
    simp only [submit, hi]
    rw [show (s.world.log _).exec.idem.checkAndReserve r.key = .ok (none, idem) from hc']
    simp only [place, hr]
    rfl
  have hfilled : (report.apply order).isFilled = true := by simp [Order.isFilled, Report.apply, hf]
  obtain ⟨orderId, htr, hop⟩ := fills_accept cfg r.intent r.key r.now
    (show ((w.setIdem idem).log (.ordered r.intent)).exec.openOrders = _ from ho) hfilled answer
  refine ⟨orderId, ?_, ?_⟩
  · rw [hs, htr, PaperSession.fills]
    congr 1
    simp [w, World.log, World.setIdem, fillIn]
  · rw [hs]
    exact hop

private theorem fillOf_placed (cfg : Config) (r : PaperRequest) (orderId : String) {order : Order} {price : Rat} (hq : 0 < order.quantity) (hp : 0 < price)
    (hf : order.filledQty = some (order.quantity : Rat)) (ha : order.avgPrice = some price) :
    ∃ fill, fillOf cfg orderId r.intent order 0 r.now = some fill ∧ fill.symbol = r.intent.symbol ∧
      fill.side = r.intent.side ∧ fill.quantity = order.quantity ∧ fill.fillPrice = price := by
  have hpr : fillPrice r.intent order.avgPrice = price := by
    rw [fillPrice, ha]
    exact if_neg hp.ne'
  rw [fillOf, hf, toInt_intCast, hpr]
  dsimp only
  rw [if_neg (by omega), if_neg (not_le.mpr hp)]
  exact ⟨_, rfl, rfl, rfl, sub_zero _, rfl⟩

/-- An order the broker fills keeps the books together. -/
private theorem Kept.placed {instrument : Instrument} {order order' : Order} {paper : PaperBroker} (h : Kept s)
    (hreg : instrument.symbol = r.intent.symbol) (ht : s.target cfg r = some instrument)
    (hr : request instrument r.intent = .ok order)
    (hp : s.paper.placeOrder instrument order r.market = .ok (order', paper)) (hb : bookable cfg s r = true) :
    Kept
      { world := (submit cfg r.intent r.key (.placed order'.orderId
          { status := order'.status, filledQty := order'.filledQty, avgPrice := order'.avgPrice }) r.now id id s.world).1
        paper } := by
  obtain ⟨price, hprice, hstatus, hfq, havg, hbook⟩ := placeOrder_eq_ok hp
  obtain ⟨hside, hqty⟩ := request_fields hr
  obtain ⟨orderId, hf, ho⟩ := submit_placed
    { status := order'.status, filledQty := order'.filledQty, avgPrice := order'.avgPrice } order'.orderId ht hr h.settled
    hstatus
  have hb : r.intent.quantity = 0 ∨
      0 < r.intent.quantity ∧ 0 < round price 2 ∧ (order.side = .buy → r.intent.side = "BUY") := by
    simpa only [bookable, ht, hr, hprice, Option.all_some, Except.toOption, decide_eq_true_eq] using hb
  rcases hb with hz | ⟨hpos, hpr, hbuy⟩
  · have hnone : fillOf cfg orderId r.intent (Report.apply
        { status := order'.status, filledQty := order'.filledQty, avgPrice := order'.avgPrice } order) 0 r.now = none := by
      rw [fillOf_eq_none_iff]
      left
      simp [Report.apply, hfq, hqty, hz]
    rw [hnone, Option.toList_none, List.append_nil] at hf
    refine h.congr (ho.trans h.settled.symm) hf fun symbol hold hbk => ?_
    rw [hbook]
    split
    · exact hbk.rebook_zero (hqty.trans hz)
    · exact hbk
  · rw [← hqty] at hpos
    obtain ⟨fill, hfill, hsym, hsd, hfqty, hfpr⟩ := fillOf_placed cfg r orderId (show 0 < (Report.apply
      { status := order'.status, filledQty := order'.filledQty, avgPrice := order'.avgPrice } order).quantity from hpos)
      hpr hfq havg
    rw [hfill, Option.toList_some] at hf
    have hsigned : fill.signedQuantity = delta order := by
      rw [OrderFilled.signedQuantity, hsd, hfqty, delta]
      cases ho : order.side with
      | buy => rw [if_pos (hbuy ho), if_pos rfl]; rfl
      | sell =>
        rw [if_neg, if_neg (by decide)]
        · rfl
        · intro hs
          rw [hs, ho] at hside
          exact absurd hside (by decide +kernel)
    refine ⟨ho, ?_, fun symbol => ?_⟩
    · intro e he
      rw [PaperSession.fills, hf] at he
      rcases List.mem_append.mp he with he | he
      · exact h.sound e he
      · obtain rfl := List.mem_singleton.mp he
        rw [hfqty, hfpr]
        exact ⟨hpos, hpr⟩
    · rw [PaperSession.fills, hf, tradesOf_concat, hbook, hreg, hsym]
      split
      · rw [Holding.ofTradesRounded_concat, hsigned, hfpr]
        exact (h.booked symbol).rebook hpos
      · exact h.booked symbol

theorem Kept.route (hreg : ∀ symbol instrument, cfg.instrument symbol = some instrument → instrument.symbol = symbol)
    (h : Kept s) (hb : bookable cfg s r = true) : Kept (s.route cfg r) := by
  have hfail (reason : String) (paper : PaperBroker) (hp : paper = s.paper) :
      Kept { world := (submit cfg r.intent r.key (.failed reason) r.now id id s.world).1, paper } := by
    obtain ⟨hf, ho⟩ := submit_failed cfg r.intent r.key r.now s.world reason
    subst hp
    exact h.congr ho hf fun _ _ hbk => hbk
  unfold PaperSession.route
  cases ht : s.target cfg r with
  | none => exact hfail "" s.paper rfl
  | some instrument =>
    dsimp only
    unfold answerOf
    cases hr : request instrument r.intent with
    | error reason => exact hfail reason s.paper rfl
    | ok order =>
      dsimp only
      cases hp : s.paper.placeOrder instrument order r.market with
      | error reason => exact hfail reason s.paper rfl
      | ok placed =>
        have hi := (target_eq_some ht).1
        exact h.placed (hreg _ _ (Option.filter_eq_some_iff.mp hi).1) ht hr hp hb

private theorem ledger_eq (s : PaperSession) (cash : Rat) : s.ledger cash = afterFills s.fills { balance := cash } := by
  have hf (t : List Obs) (ctx : TradingContext) : t.foldl bookFill ctx = afterFills (t.filterMap fillIn) ctx := by
    rw [afterFills, List.foldl_filterMap]
    congr 1
    funext ctx o
    rw [bookFill]
    cases fillIn o <;> rfl
  exact hf s.world.trace _

private theorem quantity_eq_of_tells {h h' : Holding} {p q : Option Domain.Position} (hq : h.quantity = h'.quantity)
    (hp : Booked h p) (ht : Tells h' q) : p.map Domain.Position.quantity = q.map Domain.Position.quantity := by
  cases p with
  | none =>
    cases q with
    | none => rfl
    | some q => exact absurd (hq.symm.trans hp) ht.2
  | some p =>
    cases q with
    | none => exact absurd (hq.trans ht) hp.2.1
    | some q => exact congrArg some (hp.1.trans (hq.trans ht.1.symm))

/-- Books of the same trades agree. -/
theorem Kept.sameBook (h : Kept s) (cash : Rat) : SameBook s (s.ledger cash) := by
  have hq : ∀ e ∈ s.fills, 0 < e.quantity := fun e he => (h.sound e he).1
  have hp : ∀ e ∈ s.fills, 0 ≤ e.fillPrice := fun e he => (h.sound e he).2.le
  rw [ledger_eq]
  constructor
  · intro symbol
    have hb := h.booked symbol
    exact quantity_eq_of_tells (Holding.quantity_ofTradesRounded _) hb (tells_afterFills hq)
  · intro symbol p q hpaper hkernel
    have hb := h.booked symbol
    rw [hpaper] at hb
    rw [hb.2.2, prices_afterFills hq hp q hkernel]
    exact Holding.abs_ofTradesRounded_sub_le (fun x => abs_round_sub_le x 4) _

end Route

def PaperSession.start (idem : MemoryIdempotencyGuard Nat String) (breaker : CircuitBreaker) : PaperSession where
  world := { exec := { idem, breaker } }

section Run
variable {cfg : Config} {s : PaperSession}

private theorem routeAll_concat (rs : List PaperRequest) (r : PaperRequest) :
    routeAll cfg (rs ++ [r]) s = (routeAll cfg rs s).route cfg r := by
  simp [routeAll]

theorem Kept.routeAll (hreg : ∀ symbol instrument, cfg.instrument symbol = some instrument → instrument.symbol = symbol)
    (h : Kept s) {rs : List PaperRequest} (hb : Trace.Always (fun pre r => bookable cfg (Runner.routeAll cfg pre s) r) rs) :
    Kept (Runner.routeAll cfg rs s) := by
  induction rs using List.reverseRecOn with
  | nil => exact h
  | append_singleton rs r ih =>
    obtain ⟨hb, hr⟩ := Trace.each_concat.mp hb
    rw [routeAll_concat]
    exact (ih hb).route hreg hr

theorem Kept.start (idem : MemoryIdempotencyGuard Nat String) (breaker : CircuitBreaker) :
    Kept (PaperSession.start idem breaker) :=
  ⟨rfl, fun _ he => (nomatch he), fun _ => rfl⟩

/-- After each of any sequence of bookable orders the paper broker and the portfolio engine
hold the same shares, at prices that differ by the broker's roundings. -/
theorem paper_book_tracks_ledger (cfg : Config)
    (hreg : ∀ symbol instrument, cfg.instrument symbol = some instrument → instrument.symbol = symbol)
    (idem : MemoryIdempotencyGuard Nat String) (breaker : CircuitBreaker) (cash : Rat) (rs : List PaperRequest)
    (hb : Trace.Always (fun pre r => bookable cfg (routeAll cfg pre (.start idem breaker)) r) rs) :
    ∀ pre, pre <+: rs →
      SameBook (routeAll cfg pre (.start idem breaker)) ((routeAll cfg pre (.start idem breaker)).ledger cash) := by
  intro pre hp
  exact ((Kept.start idem breaker).routeAll hreg (hb.of_isPrefix hp)).sameBook cash

end Run

private theorem oneStock_registered (symbol : String) (instrument : Instrument)
    (h : oneStock.instrument symbol = some instrument) : instrument.symbol = symbol := by
  simp only [oneStock] at h
  split at h
  · next hs =>
    obtain rfl := Option.some.inj h
    exact hs.symm
  · cases h

def threeOrders : List PaperRequest :=
  [{ intent := { marketBuy with referencePrice := 100 }, key := 0 },
    { intent := { marketBuy with quantity := 20, orderType := "LIMIT", price := 101 }, key := 1 },
    { intent := { marketBuy with side := "SELL", quantity := 50, referencePrice := 1234 / 1000 }, key := 2 }]

theorem paper_book_tracks_three_orders :
    SameBook (routeAll oneStock threeOrders (.start {} {})) ((routeAll oneStock threeOrders (.start {} {})).ledger 1000) ∧
      ((routeAll oneStock (threeOrders.take 2) (.start {} {})).paper.positions.get "TCS").map Domain.Position.avgPrice =
        some (1006667 / 10000) ∧
      (((routeAll oneStock (threeOrders.take 2) (.start {} {})).ledger 0).position "TCS").map Domain.Position.avgPrice =
        some (302 / 3) :=
  ⟨paper_book_tracks_ledger oneStock oneStock_registered {} {} 1000 threeOrders (by decide +kernel) _ List.prefix_rfl,
    by decide +kernel, by decide +kernel⟩

def lowerCaseBuy : PaperRequest where
  intent := { marketBuy with side := "buy", referencePrice := 100 }
  key := 0

/-- The broker buys, and the portfolio engine sells. -/
theorem lower_case_buy_splits_books :
    ¬ SameBook (routeAll oneStock [lowerCaseBuy] (.start {} {})) ((routeAll oneStock [lowerCaseBuy] (.start {} {})).ledger 0) ∧
      ((routeAll oneStock [lowerCaseBuy] (.start {} {})).paper.positions.get "TCS").map Domain.Position.quantity = some 10 ∧
      ((routeAll oneStock [lowerCaseBuy] (.start {} {})).ledger 0).quantity "TCS" = -10 := by
  refine ⟨?_, by decide +kernel, by decide +kernel⟩
  intro h
  have hq := h.quantities "TCS"
  revert hq
  decide +kernel

end NTrade.Runner
