import NTrade.Domain.Portfolio
import NTrade.Lib.RoundedCost

/-! The paper broker: every order it has a price for is filled at once, and kept in a
position book of its own. -/
namespace NTrade.Brokers
open NTrade.Domain NTrade.Execution NTrade.Lib

structure MarketView where
  liveLtp : Rat := 0
  seated : Option Rat := none

structure PaperBroker where
  orders : List Order := []
  positions : Dict String Domain.Position := Dict.empty

def paperPrice (order : Order) (market : MarketView) : Option Rat :=
  if order.orderType ≠ .market ∧ order.price ≠ 0 then some order.price
  else if 0 < order.referencePrice then some order.referencePrice
  else if 0 < market.liveLtp then some market.liveLtp
  else market.seated

def delta (order : Order) : Int := if order.side = .buy then order.quantity else -order.quantity

/-- The position of a symbol after an order that filled at a price; none is a flat one. -/
def rebook (symbol : String) (order : Order) (fillPrice : Rat) : Option Domain.Position → Option Domain.Position
  | none =>
    if delta order = 0 then none
    else
      some { symbol, quantity := delta order, avgPrice := fillPrice, ltp := fillPrice,
             product := order.tradeType.value }
  | some pos =>
    let qty := pos.quantity + delta order
    let total := pos.avgPrice * |(pos.quantity : Rat)| + fillPrice * order.quantity
    if qty = 0 then none
    else
      some { pos with
        quantity := qty
        avgPrice :=
          if 0 < pos.quantity * qty ∧ |pos.quantity| < |qty| then round (total / |(qty : Rat)|) 4
          else if pos.quantity * qty < 0 then fillPrice
          else pos.avgPrice
        ltp := fillPrice }

/-- `PaperBroker.place_order`: the completed order, or the error it raises without a price. -/
def PaperBroker.placeOrder (b : PaperBroker) (instrument : Instrument) (order : Order) (market : MarketView) :
    Except String (Order × PaperBroker) :=
  match paperPrice order market with
  | none => .error ("no market price available for paper MARKET order on " ++ instrument.symbol)
  | some price =>
    let fillPrice := round price 2
    let order :=
      { order with
        orderId := some ("PAPER-" ++ toString (b.orders.length + 1))
        status := .completed
        filledQty := some order.quantity
        avgPrice := some fillPrice }
    let positions :=
      match rebook instrument.symbol order fillPrice (b.positions.get instrument.symbol) with
      | none => b.positions.pop instrument.symbol
      | some pos => b.positions.set instrument.symbol pos
    .ok (order, { orders := b.orders ++ [order], positions })

def Booked (h : Holding) : Option Domain.Position → Prop
  | none => h.quantity = 0
  | some p => p.quantity = h.quantity ∧ h.quantity ≠ 0 ∧ p.avgPrice = h.average

section Refinement
variable {h : Holding} {position : Option Domain.Position} {order : Order} {symbol : String} {fillPrice : Rat}

theorem abs_delta (hq : 0 ≤ order.quantity) : |delta order| = order.quantity := by
  rw [delta]
  split
  · exact abs_of_nonneg hq
  · rw [abs_neg]
    exact abs_of_nonneg hq

/-- The code compares sizes, the account the directions. -/
private theorem adds_iff {q n : Int} (hq : q ≠ 0) : 0 < q * (q + n) ∧ |q| < |q + n| ↔ 0 < q * n := by
  rcases lt_or_gt_of_ne hq with hq | hq
  · have hm (m : Int) : 0 < q * m ↔ m < 0 := by rw [mul_pos_iff]; omega
    rw [hm, hm]
    constructor
    · rintro ⟨hs, hl⟩
      rw [abs_of_neg hq, abs_of_neg hs] at hl
      omega
    · intro hn
      have hs : q + n < 0 := by omega
      rw [abs_of_neg hq, abs_of_neg hs]
      omega
  · have hm (m : Int) : 0 < q * m ↔ 0 < m := by rw [mul_pos_iff]; omega
    rw [hm, hm]
    constructor
    · rintro ⟨hs, hl⟩
      rw [abs_of_pos hq, abs_of_pos hs] at hl
      omega
    · intro hn
      have hs : 0 < q + n := by omega
      rw [abs_of_pos hq, abs_of_pos hs]
      omega

/-- The broker books an order as the rounded account trades it. -/
theorem Booked.rebook (hb : Booked h position) (hq : 0 < order.quantity) :
    Booked (h.tradeRounded (round · 4) (delta order) fillPrice) (rebook symbol order fillPrice position) := by
  have habs : |delta order| = order.quantity := abs_delta hq.le
  have hne : delta order ≠ 0 := by
    intro hz
    rw [hz, abs_zero] at habs
    omega
  cases position with
  | none =>
    have h0 : h.quantity = 0 := hb
    simp [Brokers.rebook, Booked, Holding.tradeRounded, h0, hne]
  | some p =>
    obtain ⟨hp, hnz, havg⟩ := hb
    have hcast : (order.quantity : Rat) = |(delta order : Rat)| := by exact_mod_cast habs.symm
    rw [Brokers.rebook, hp, havg]
    by_cases hz : h.quantity + delta order = 0
    · rw [if_pos hz]
      exact hz
    · rw [if_neg hz]
      refine ⟨rfl, hz, ?_⟩
      simp only [Holding.tradeRounded, if_neg hz, if_neg hnz, adds_iff hnz]
      by_cases hs : 0 < h.quantity * delta order
      · rw [if_pos hs, if_pos hs, hcast, mul_comm h.average, mul_comm fillPrice, Int.cast_add]
      · rw [if_neg hs, if_neg hs]
        by_cases hr : h.quantity * (h.quantity + delta order) < 0
        · rw [if_pos hr, if_neg (not_lt.mpr (Holding.reverses hs hr).le)]
        · rw [if_neg hr, if_pos (Holding.exits hnz hs hz hr)]

/-- An order without shares leaves the book as it is. -/
theorem Booked.rebook_zero (hb : Booked h position) (hq : order.quantity = 0) :
    Booked h (Brokers.rebook symbol order fillPrice position) := by
  have hd : delta order = 0 := by simp [delta, hq]
  cases position with
  | none =>
    rw [Brokers.rebook, if_pos hd]
    exact hb
  | some p =>
    obtain ⟨hp, hnz, havg⟩ := hb
    have hz : p.quantity + delta order ≠ 0 := by rw [hd, add_zero, hp]; exact hnz
    have hs : ¬0 < h.quantity * 0 := by simp
    have hr : ¬h.quantity * h.quantity < 0 := not_lt.mpr (mul_self_nonneg _)
    rw [Brokers.rebook, if_neg hz, hd, add_zero]
    refine ⟨hp, hnz, ?_⟩
    dsimp only
    rw [hp, if_neg fun hc => lt_irrefl _ hc.2, if_neg hr]
    exact havg

end Refinement

section Book
variable {b b' : PaperBroker} {instrument : Instrument} {order order' : Order} {market : MarketView}

/-- What the broker returns for an order. -/
theorem placeOrder_eq_ok (h : b.placeOrder instrument order market = .ok (order', b')) :
    ∃ price, paperPrice order market = some price ∧ order'.status = .completed ∧
      order'.filledQty = some (order.quantity : Rat) ∧ order'.avgPrice = some (round price 2) ∧
      ∀ symbol, b'.positions.get symbol =
        if symbol = instrument.symbol then rebook symbol order (round price 2) (b.positions.get symbol)
        else b.positions.get symbol := by
  unfold PaperBroker.placeOrder at h
  cases hp : paperPrice order market with
  | none => simp [hp] at h
  | some price =>
    simp only [hp, Except.ok.injEq, Prod.mk.injEq] at h
    obtain ⟨rfl, rfl⟩ := h
    refine ⟨price, rfl, rfl, rfl, rfl, fun symbol => ?_⟩
    dsimp only
    have hbook (position : Option Domain.Position) (orderId : Option String) (filledQty avgPrice : Wire) :
        rebook instrument.symbol { order with orderId, status := .completed, filledQty, avgPrice } (round price 2) position =
          rebook instrument.symbol order (round price 2) position := by
      cases position <;> rfl
    rw [hbook]
    by_cases hs : symbol = instrument.symbol
    · subst hs
      rw [if_pos rfl]
      split
      · next hr => rw [Dict.get_pop, if_pos rfl, hr]
      · next pos hr => rw [Dict.get_set, if_pos rfl, hr]
    · rw [if_neg hs]
      split
      · rw [Dict.get_pop, if_neg hs]
      · rw [Dict.get_set, if_neg hs]

end Book
end NTrade.Brokers
