import NTrade.Domain.Portfolio
import NTrade.Events.Event
import NTrade.Execution.Costs
import NTrade.Lib.AverageCost

/-! The portfolio engine: the position and the cash after each fill, against the
average-cost accounts of the trades in a symbol. -/
namespace NTrade.Engines
open NTrade.Domain NTrade.Events NTrade.Execution NTrade.Lib

def opened (e : OrderFilled) : Domain.Position where
  symbol := e.symbol
  quantity := e.signedQuantity
  avgPrice := e.fillPrice
  ltp := e.fillPrice
  exchange := e.exchange
  strategy := if e.strategy = "" then none else some e.strategy

def netted (e : OrderFilled) (p : Domain.Position) : Domain.Position :=
  let qty := e.signedQuantity
  let newQty := p.quantity + qty
  { p with
    quantity := newQty
    avgPrice :=
      if 0 < p.quantity ↔ 0 < qty then |(p.avgPrice * p.quantity + e.fillPrice * qty) / newQty|
      else if p.quantity * newQty < 0 then e.fillPrice
      else p.avgPrice
    ltp := e.fillPrice }

def charges (e : OrderFilled) : Rat := e.commission + e.statutory

def proceeds (e : OrderFilled) : Rat := if e.side = "BUY" then -e.notional else e.notional

/-- `PortfolioEngine.on_filled`, up to what it publishes. -/
def onFilled (e : OrderFilled) (ctx : TradingContext) : TradingContext where
  positions :=
    match ctx.position e.symbol with
    | none => ctx.positions ++ [opened e]
    | some p =>
      if p.quantity + e.signedQuantity = 0 then Keyed.discard Domain.Position.symbol e.symbol ctx.positions
      else Keyed.revise Domain.Position.symbol e.symbol (netted e) ctx.positions
  balance := round (ctx.balance + proceeds e - charges e) PRICE_PRECISION

def announce (e : OrderFilled) (ctx : TradingContext) : PositionUpdated × BalanceChanged :=
  let remaining := ctx.position e.symbol
  ({ symbol := e.symbol, exchange := e.exchange,
     quantity := (remaining.map Domain.Position.quantity).getD 0,
     avgPrice := (remaining.map Domain.Position.avgPrice).getD 0, ltp := e.fillPrice, ts := e.ts },
   { balance := ctx.balance, ts := e.ts })

def afterFills (fills : List OrderFilled) (ctx : TradingContext) : TradingContext :=
  fills.foldl (fun ctx e => onFilled e ctx) ctx

def tradesOf (symbol : String) (fills : List OrderFilled) : List (Int × Rat) :=
  (fills.filter (·.symbol = symbol)).map fun e => (e.signedQuantity, e.fillPrice)

def netQuantity (symbol : String) (fills : List OrderFilled) : Int := ((tradesOf symbol fills).map Prod.fst).sum

def buyNotional (fills : List OrderFilled) : Rat :=
  ((fills.filter (·.side = "BUY")).map OrderFilled.notional).sum

def sellNotional (fills : List OrderFilled) : Rat :=
  ((fills.filter (·.side ≠ "BUY")).map OrderFilled.notional).sum

def totalCharges (fills : List OrderFilled) : Rat := (fills.map charges).sum

section Step
variable {ctx : TradingContext} {e : OrderFilled} {symbol : String}

private theorem netted_symbol (p : Domain.Position) (h : p.symbol = e.symbol) : (netted e p).symbol = e.symbol := h

theorem onFilled_positions_nodup (h : (ctx.positions.map Domain.Position.symbol).Nodup) :
    ((onFilled e ctx).positions.map Domain.Position.symbol).Nodup := by
  unfold onFilled
  dsimp only
  split
  · next hp => exact Keyed.nodup_concat h hp
  · split
    · exact Keyed.nodup_discard h
    · rw [Keyed.map_key_revise netted_symbol]
      exact h

def filled (e : OrderFilled) : Option Domain.Position → Option Domain.Position
  | none => some (opened e)
  | some p => if p.quantity + e.signedQuantity = 0 then none else some (netted e p)

/-- A fill writes the position of its own symbol, and no other. -/
theorem position_onFilled (h : (ctx.positions.map Domain.Position.symbol).Nodup) :
    (onFilled e ctx).position symbol =
      if symbol = e.symbol then filled e (ctx.position symbol) else ctx.position symbol := by
  have hsym : (opened e).symbol = e.symbol := rfl
  unfold onFilled TradingContext.position
  dsimp only
  by_cases hs : symbol = e.symbol
  · subst hs
    rw [if_pos rfl]
    split
    · next hp =>
      have hp : Keyed.lookup Domain.Position.symbol e.symbol ctx.positions = none := hp
      rw [Keyed.lookup_concat, hp, if_pos hsym]
      rfl
    · next p hp =>
      have hp : Keyed.lookup Domain.Position.symbol e.symbol ctx.positions = some p := hp
      rw [hp, filled]
      split
      · rw [Keyed.lookup_discard h, if_pos rfl]
      · rw [Keyed.lookup_revise netted_symbol, if_pos rfl, hp]
        rfl
  · rw [if_neg hs]
    split
    · rw [Keyed.lookup_concat, hsym, if_neg fun he => hs he.symm, Option.or_none]
    · split
      · rw [Keyed.lookup_discard h, if_neg hs]
      · rw [Keyed.lookup_revise netted_symbol, if_neg hs]

/-- A fill moves the shares held of its own symbol by its quantity. -/
theorem quantity_onFilled (h : (ctx.positions.map Domain.Position.symbol).Nodup) :
    (onFilled e ctx).quantity symbol =
      ctx.quantity symbol + if e.symbol = symbol then e.signedQuantity else 0 := by
  unfold TradingContext.quantity
  rw [position_onFilled h]
  by_cases hs : symbol = e.symbol
  · rw [if_pos hs, if_pos hs.symm]
    cases ctx.position symbol with
    | none => exact (zero_add _).symm
    | some p =>
      unfold filled
      dsimp only
      split
      · next hz => exact hz.symm
      · rfl
  · rw [if_neg hs, if_neg (Ne.symm hs), add_zero]

theorem tradesOf_concat (fills : List OrderFilled) :
    tradesOf symbol (fills ++ [e]) =
      if symbol = e.symbol then tradesOf symbol fills ++ [(e.signedQuantity, e.fillPrice)]
      else tradesOf symbol fills := by
  unfold tradesOf
  rw [List.filter_append, List.map_append]
  by_cases hs : symbol = e.symbol
  · simp [hs]
  · simp [hs, Ne.symm hs]

end Step

def Tells (h : Holding) : Option Domain.Position → Prop
  | none => h.quantity = 0
  | some p => p.quantity = h.quantity ∧ h.quantity ≠ 0

/-- A position tells the average price of a holding. -/
def Prices (h : Holding) (position : Option Domain.Position) : Prop :=
  ∀ p, position = some p → p.avgPrice = h.average

section Refinement
variable {h : Holding} {position : Option Domain.Position} {e : OrderFilled}

theorem signedQuantity_ne (hq : 0 < e.quantity) : e.signedQuantity ≠ 0 := by
  unfold OrderFilled.signedQuantity
  split
  · omega
  · omega

theorem Tells.filled (ht : Tells h position) (hq : 0 < e.quantity) :
    Tells (h.trade e.signedQuantity e.fillPrice) (filled e position) := by
  have hne := signedQuantity_ne hq
  cases position with
  | none =>
    have h0 : h.quantity = 0 := ht
    refine ⟨?_, ?_⟩
    · simp [opened, Holding.trade, h0]
    · simpa [Holding.trade, h0] using hne
  | some p =>
    obtain ⟨hp, -⟩ := ht
    unfold Engines.filled
    dsimp only
    split
    · next hz =>
      show h.quantity + e.signedQuantity = 0
      rw [← hp]
      exact hz
    · next hz =>
      rw [hp] at hz
      exact ⟨congrArg (· + e.signedQuantity) hp, hz⟩

/-- In the same direction the two quotients are of values of one sign. -/
private theorem abs_average {q n : Int} {avg price : Rat} (hs : 0 < q * n) (ha : 0 ≤ avg) (hp : 0 ≤ price) :
    |(avg * q + price * n) / ((q + n : Int) : Rat)| = (|(q : Rat)| * avg + |(n : Rat)| * price) / |(q + n : Rat)| := by
  rw [abs_div, Int.cast_add]
  congr 1
  rcases pos_and_pos_or_neg_and_neg_of_mul_pos hs with ⟨hq, hn⟩ | ⟨hq, hn⟩
  · have hq' : (0 : Rat) < q := by exact_mod_cast hq
    have hn' : (0 : Rat) < n := by exact_mod_cast hn
    rw [abs_of_pos hq', abs_of_pos hn', abs_of_nonneg (by positivity)]
    ring
  · have hq' : (q : Rat) < 0 := by exact_mod_cast hq
    have hn' : (n : Rat) < 0 := by exact_mod_cast hn
    have hle : avg * q + price * n ≤ 0 :=
      add_nonpos (mul_nonpos_of_nonneg_of_nonpos ha hq'.le) (mul_nonpos_of_nonneg_of_nonpos hp hn'.le)
    rw [abs_of_neg hq', abs_of_neg hn', abs_of_nonpos hle]
    ring

/-- The code compares signs, the reference the sign of a product. -/
private theorem same_direction {q n : Int} (hq : q ≠ 0) (hn : n ≠ 0) : (0 < q ↔ 0 < n) ↔ 0 < q * n := by
  rcases lt_or_gt_of_ne hq with hq | hq
  · rcases lt_or_gt_of_ne hn with hn | hn
    · have hm := mul_pos_of_neg_of_neg hq hn
      omega
    · have hm := mul_neg_of_neg_of_pos hq hn
      omega
  · rcases lt_or_gt_of_ne hn with hn | hn
    · have hm := mul_neg_of_pos_of_neg hq hn
      omega
    · have hm := mul_pos hq hn
      omega

theorem Prices.filled (hpr : Prices h position) (ht : Tells h position) (hq : 0 < e.quantity) (ha : 0 ≤ h.average)
    (hp : 0 ≤ e.fillPrice) : Prices (h.trade e.signedQuantity e.fillPrice) (filled e position) := by
  have hne := signedQuantity_ne hq
  intro p' hp'
  cases position with
  | none =>
    have h0 : h.quantity = 0 := ht
    obtain rfl := Option.some.inj hp'
    simp [opened, Holding.trade, h0, hne]
  | some p =>
    obtain ⟨hqp, hnz⟩ := ht
    have havg := hpr p rfl
    unfold Engines.filled at hp'
    dsimp only at hp'
    split at hp'
    · cases hp'
    · next hz =>
      obtain rfl := Option.some.inj hp'
      rw [hqp] at hz
      simp only [netted, Holding.trade, hqp, havg, if_neg hz, if_neg hnz, same_direction hnz hne]
      by_cases hs : 0 < h.quantity * e.signedQuantity
      · rw [if_pos hs, if_pos hs]
        exact abs_average hs ha hp
      · rw [if_neg hs, if_neg hs]
        by_cases hr : h.quantity * (h.quantity + e.signedQuantity) < 0
        · rw [if_pos hr, if_neg (not_lt.mpr (Holding.reverses hs hr).le)]
        · rw [if_neg hr, if_pos (Holding.exits hnz hs hz hr)]

end Refinement

section Run
variable {fills : List OrderFilled} {cash : Rat} {symbol : String}

theorem afterFills_concat (fills : List OrderFilled) (e : OrderFilled) (ctx : TradingContext) :
    afterFills (fills ++ [e]) ctx = onFilled e (afterFills fills ctx) := by
  simp [afterFills]

theorem positions_nodup (fills : List OrderFilled) (cash : Rat) :
    ((afterFills fills { balance := cash }).positions.map Domain.Position.symbol).Nodup := by
  induction fills using List.reverseRecOn with
  | nil => exact List.nodup_nil
  | append_singleton fills e ih =>
    rw [afterFills_concat]
    exact onFilled_positions_nodup ih

/-- After each fill the position of a symbol is its holding. -/
theorem tells_afterFills (hq : ∀ e ∈ fills, 0 < e.quantity) :
    Tells (Holding.ofTrades (tradesOf symbol fills)) ((afterFills fills { balance := cash }).position symbol) := by
  induction fills using List.reverseRecOn with
  | nil => rfl
  | append_singleton fills e ih =>
    have ih := ih fun e he => hq e (List.mem_append_left _ he)
    rw [afterFills_concat, position_onFilled (positions_nodup fills cash), tradesOf_concat]
    split
    · rw [Holding.ofTrades_concat]
      exact ih.filled (hq e (by simp))
    · exact ih

theorem prices_afterFills (hq : ∀ e ∈ fills, 0 < e.quantity) (hp : ∀ e ∈ fills, 0 ≤ e.fillPrice) :
    Prices (Holding.ofTrades (tradesOf symbol fills)) ((afterFills fills { balance := cash }).position symbol) := by
  induction fills using List.reverseRecOn with
  | nil => exact fun p hp => nomatch hp
  | append_singleton fills e ih =>
    have hq' : ∀ e ∈ fills, 0 < e.quantity := fun e he => hq e (List.mem_append_left _ he)
    have hp' : ∀ e ∈ fills, 0 ≤ e.fillPrice := fun e he => hp e (List.mem_append_left _ he)
    rw [afterFills_concat, position_onFilled (positions_nodup fills cash), tradesOf_concat]
    split
    · rw [Holding.ofTrades_concat]
      refine (ih hq' hp').filled (tells_afterFills hq') (hq e (by simp)) ?_ (hp e (by simp))
      apply Holding.average_nonneg
      intro t ht
      obtain ⟨e', he', rfl⟩ := List.mem_map.mp ht
      exact hp' e' (List.mem_of_mem_filter he')
    · exact ih hq' hp'

def OnGrid (e : OrderFilled) : Prop :=
  e.fillPrice ∈ grid PRICE_PRECISION ∧ e.commission ∈ grid PRICE_PRECISION ∧ e.statutory ∈ grid PRICE_PRECISION

theorem proceeds_mem {e : OrderFilled} (h : OnGrid e) : proceeds e ∈ grid PRICE_PRECISION := by
  have hn : e.notional ∈ grid PRICE_PRECISION := by
    rw [OrderFilled.notional, mul_comm]
    exact mul_intCast_mem h.1 e.quantity
  unfold proceeds
  split
  · exact neg_mem hn
  · exact hn

theorem charges_mem {e : OrderFilled} (h : OnGrid e) : charges e ∈ grid PRICE_PRECISION := add_mem h.2.1 h.2.2

/-- On the grid nothing is lost to rounding. -/
theorem balance_afterFills (hc : cash ∈ grid PRICE_PRECISION) (hg : ∀ e ∈ fills, OnGrid e) :
    (afterFills fills { balance := cash }).balance ∈ grid PRICE_PRECISION ∧
      (afterFills fills { balance := cash }).balance = cash + (fills.map proceeds).sum - totalCharges fills := by
  induction fills using List.reverseRecOn with
  | nil => exact ⟨hc, by simp [afterFills, totalCharges]⟩
  | append_singleton fills e ih =>
    obtain ⟨hm, heq⟩ := ih fun e he => hg e (List.mem_append_left _ he)
    have he : OnGrid e := hg e (by simp)
    have hnew : (afterFills fills { balance := cash }).balance + proceeds e - charges e ∈ grid PRICE_PRECISION :=
      sub_mem (add_mem hm (proceeds_mem he)) (charges_mem he)
    rw [afterFills_concat]
    unfold onFilled
    dsimp only
    rw [round_of_mem hnew]
    refine ⟨hnew, ?_⟩
    rw [heq]
    simp only [totalCharges, List.map_append, List.map_singleton, List.sum_append, List.sum_singleton]
    ring

theorem sum_proceeds (fills : List OrderFilled) :
    (fills.map proceeds).sum = sellNotional fills - buyNotional fills := by
  induction fills with
  | nil => simp [sellNotional, buyNotional]
  | cons e fills ih =>
    rw [List.map_cons, List.sum_cons, ih]
    by_cases hs : e.side = "BUY"
    · simp [proceeds, sellNotional, buyNotional, hs]
      ring
    · simp [proceeds, sellNotional, buyNotional, hs]
      ring

end Run

structure Reconciled (cash : Rat) (fills : List OrderFilled) (ctx : TradingContext) : Prop where
  unique : (ctx.positions.map Domain.Position.symbol).Nodup
  opened : ∀ symbol, (∃ p ∈ ctx.positions, p.symbol = symbol) ↔ netQuantity symbol fills ≠ 0
  quantity : ∀ p ∈ ctx.positions, p.quantity = netQuantity p.symbol fills
  balance : ctx.balance = cash - buyNotional fills + sellNotional fills - totalCharges fills
  average : ∀ p ∈ ctx.positions, p.avgPrice = (Holding.ofTrades (tradesOf p.symbol fills)).average

/-- Fills of shares keep the books reconciled, where the cash starts on the grid that the
balance is rounded to and no price is negative. -/
theorem fills_reconcile (fills : List OrderFilled) (cash : Rat) (hq : ∀ e ∈ fills, 0 < e.quantity)
    (hg : ∀ e ∈ fills, OnGrid e) (hc : cash ∈ grid PRICE_PRECISION) (hp : ∀ e ∈ fills, 0 ≤ e.fillPrice) :
    Reconciled cash fills (afterFills fills { balance := cash }) := by
  have hn := positions_nodup fills cash
  have hmem (p) (hp : p ∈ (afterFills fills { balance := cash }).positions) :
      (afterFills fills { balance := cash }).position p.symbol = some p := Keyed.lookup_mem hn hp
  have htells (symbol : String) : Tells (Holding.ofTrades (tradesOf symbol fills))
      ((afterFills fills { balance := cash }).position symbol) := tells_afterFills hq
  refine ⟨hn, fun symbol => ?_, fun p hpos => ?_, ?_, fun p hpos => ?_⟩
  · have ht := htells symbol
    rw [netQuantity, ← Holding.quantity_ofTrades]
    constructor
    · rintro ⟨p, hpos, rfl⟩
      rw [hmem p hpos] at ht
      exact ht.2
    · intro hne
      cases hpos : (afterFills fills { balance := cash }).position symbol with
      | none =>
        rw [hpos] at ht
        exact absurd ht hne
      | some p => exact ⟨p, Keyed.lookup_some hpos⟩
  · have ht := htells p.symbol
    rw [hmem p hpos] at ht
    rw [netQuantity, ← Holding.quantity_ofTrades]
    exact ht.1
  · rw [(balance_afterFills hc hg).2, sum_proceeds]
    ring
  · exact prices_afterFills hq hp p (hmem p hpos)

def buyOne (price : Rat) : OrderFilled where
  orderId := "SIM-000001"
  symbol := "TCS"
  exchange := "NSE"
  side := "BUY"
  quantity := 1
  fillPrice := price

/-- Cash that is not on the grid is rounded to it with the first fill, and a negative price
is averaged to a positive one. -/
theorem off_grid_and_negative_price_break_ledger :
    ¬ Reconciled (1 / 20000) [buyOne 1] (afterFills [buyOne 1] { balance := 1 / 20000 }) ∧
    ¬ Reconciled 10 [buyOne (-1), buyOne (-1)] (afterFills [buyOne (-1), buyOne (-1)] { balance := 10 }) := by
  constructor
  · intro h
    have hb := h.balance
    revert hb
    decide +kernel
  · intro h
    have ha := h.average
    revert ha
    decide +kernel

/-- Two buys, a partial exit and a reversal. -/
theorem fills_reconcile_reversal :
    Reconciled 1000 [buyOne 100, buyOne 102, { buyOne 103 with side := "SELL", commission := 1 },
      { buyOne 104 with side := "SELL", quantity := 3 }]
      (afterFills [buyOne 100, buyOne 102, { buyOne 103 with side := "SELL", commission := 1 },
        { buyOne 104 with side := "SELL", quantity := 3 }] { balance := 1000 }) := by
  have hgrid (n : Int) : (n : Rat) ∈ grid PRICE_PRECISION :=
    AddSubgroup.mem_zmultiples_iff.mpr ⟨n * 10000, by simp [PRICE_PRECISION]; ring⟩
  refine fills_reconcile _ _ (by decide) ?_ (by simpa using hgrid 1000) (by decide +kernel)
  intro e he
  simp only [List.mem_cons, List.not_mem_nil, or_false] at he
  rcases he with rfl | rfl | rfl | rfl
  · exact ⟨by simpa [buyOne] using hgrid 100, zero_mem _, zero_mem _⟩
  · exact ⟨by simpa [buyOne] using hgrid 102, zero_mem _, zero_mem _⟩
  · exact ⟨by simpa [buyOne] using hgrid 103, by simpa using hgrid 1, zero_mem _⟩
  · exact ⟨by simpa [buyOne] using hgrid 104, zero_mem _, zero_mem _⟩

end NTrade.Engines
