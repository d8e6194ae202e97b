import NTrade.Brokers.DhanMapper
import NTrade.Runner.RiskLoop

/-! The two writers of the position list, the import of the broker's rows and the fills,
and whether a symbol that is flat is absent from it. -/
namespace NTrade.Runner
open NTrade.Domain NTrade.Events NTrade.Engines NTrade.Brokers NTrade.Lib

inductive BookMove where
  | sync (broker : BrokerReport) (now : Rat)
  | fill (e : OrderFilled)

def BookMove.apply (ctx : TradingContext) : BookMove → TradingContext
  | .sync broker now => (Engines.sync broker now ctx).ctx
  | .fill e => onFilled e ctx

def afterMoves (moves : List BookMove) (cash : Rat) : TradingContext :=
  moves.foldl BookMove.apply { balance := cash }

def openPositions (strategy : Option String) (ctx : TradingContext) : Nat :=
  (ctx.positions.filter fun p => p.quantity ≠ 0 ∧ strategy.all (p.strategy = some ·)).length

/-- What a flat position's absence means for a turn, from `before` to `after`. -/
structure FlatAbsent (before : TradingContext) (move : BookMove) (after : TradingContext) : Prop where
  held : ∀ p ∈ after.positions, p.quantity ≠ 0
  entered : ∀ e symbol p, move = .fill e → before.quantity symbol = 0 → after.position symbol = some p →
    p.quantity ≠ 0 → p.avgPrice = e.fillPrice
  counted : ∀ engine : RiskEngine, engine.positionCount (readingOf after) = openPositions engine.strategy after

/-- The row that stands for a symbol holds shares, and a fill that opens a position fills some. -/
def HoldsShares (ctx : TradingContext) : BookMove → Prop
  | .sync broker _ => ∀ reported, broker.positions = some reported →
      ∀ symbol, ∀ bp ∈ (rowsOf symbol reported).getLast?, toInt bp.quantity ≠ 0
  | .fill e => ctx.position e.symbol = none → e.quantity ≠ 0

section Step
variable {ctx : TradingContext}

private theorem held_iff (hn : (ctx.positions.map Domain.Position.symbol).Nodup) :
    (∀ p ∈ ctx.positions, p.quantity ≠ 0) ↔ ∀ symbol p, ctx.position symbol = some p → p.quantity ≠ 0 := by
  constructor
  · intro h symbol p hp
    exact h p (Keyed.lookup_some hp).1
  · intro h p hp
    exact h p.symbol p (Keyed.lookup_mem hn hp)

theorem nodup_apply (hn : (ctx.positions.map Domain.Position.symbol).Nodup) (move : BookMove) :
    ((move.apply ctx).positions.map Domain.Position.symbol).Nodup := by
  cases move with
  | sync broker now => exact nodup_sync broker now ctx hn
  | fill e => exact onFilled_positions_nodup hn

/-- A sync leaves no flat position exactly if the last row of every symbol holds shares. -/
private theorem held_sync (broker : BrokerReport) (now : Rat) (hn : (ctx.positions.map Domain.Position.symbol).Nodup)
    (hh : ∀ p ∈ ctx.positions, p.quantity ≠ 0) :
    (∀ p ∈ (sync broker now ctx).ctx.positions, p.quantity ≠ 0) ↔ HoldsShares ctx (.sync broker now) := by
  cases hb : broker.positions with
  | none =>
    have hs : (sync broker now ctx).ctx = ctx := by rw [sync, hb]
    rw [hs]
    refine ⟨?_, fun _ => hh⟩
    intro _ reported hr
    rw [hb] at hr
    cases hr
  | some reported =>
    rw [held_iff (nodup_sync broker now ctx hn)]
    constructor
    · intro h reported' hr symbol bp hbp
      rw [hb] at hr
      obtain rfl := Option.some.inj hr
      refine h symbol (imported bp (ctx.position symbol)) ?_
      rw [position_sync broker now ctx hb, Option.mem_def.mp hbp, Option.map_some]
    · intro h symbol p hp
      rw [position_sync broker now ctx hb] at hp
      obtain ⟨bp, hbp, rfl⟩ := Option.map_eq_some_iff.mp hp
      exact h reported hb symbol bp hbp

private theorem signedQuantity_eq_zero {e : OrderFilled} : e.signedQuantity = 0 ↔ e.quantity = 0 := by
  rw [OrderFilled.signedQuantity]
  split
  · rfl
  · exact neg_eq_zero

/-- A fill leaves no flat position exactly if the position it opens has shares. -/
private theorem held_fill (e : OrderFilled) (hn : (ctx.positions.map Domain.Position.symbol).Nodup)
    (hh : ∀ p ∈ ctx.positions, p.quantity ≠ 0) :
    (∀ p ∈ (onFilled e ctx).positions, p.quantity ≠ 0) ↔ HoldsShares ctx (.fill e) := by
  rw [held_iff hn] at hh
  rw [held_iff (onFilled_positions_nodup hn)]
  constructor
  · intro h hnone hq
    refine h e.symbol (opened e) ?_ (signedQuantity_eq_zero.mpr hq)
    rw [position_onFilled hn, if_pos rfl, hnone]
    rfl
  · intro h symbol p hp
    rw [position_onFilled hn] at hp
    by_cases hs : symbol = e.symbol
    · rw [if_pos hs] at hp
      cases hpos : ctx.position symbol with
      | none =>
        rw [hpos] at hp
        obtain rfl := Option.some.inj hp
        rw [hs] at hpos
        exact fun hz => h hpos (signedQuantity_eq_zero.mp hz)
      | some p₀ =>
        rw [hpos, filled] at hp
        split at hp
        · cases hp
        · next hz =>
          obtain rfl := Option.some.inj hp
          exact hz
    · rw [if_neg hs] at hp
      exact hh symbol p hp

/-- A fill that takes a symbol from flat to open enters at its own price. -/
private theorem entered_fill {e : OrderFilled} {symbol : String} {p : Domain.Position}
    (hn : (ctx.positions.map Domain.Position.symbol).Nodup) (hh : ∀ p ∈ ctx.positions, p.quantity ≠ 0)
    (hz : ctx.quantity symbol = 0) (hp : (onFilled e ctx).position symbol = some p) : p.avgPrice = e.fillPrice := by
  have hnone : ctx.position symbol = none := by
    cases hpos : ctx.position symbol with
    | none => rfl
    | some p₀ =>
      rw [TradingContext.quantity, hpos] at hz
      exact absurd hz (hh p₀ (Keyed.lookup_some hpos).1)
  rw [position_onFilled hn, hnone] at hp
  split at hp
  · obtain rfl := Option.some.inj hp
    rfl
  · cases hp

private theorem counted (hh : ∀ p ∈ ctx.positions, p.quantity ≠ 0) (engine : RiskEngine) :
    engine.positionCount (readingOf ctx) = openPositions engine.strategy ctx := by
  have hf (strategy : Option String) : openPositions strategy ctx =
      (ctx.positions.filter fun p => strategy.all (p.strategy = some ·)).length := by
    rw [openPositions]
    congr 1
    apply List.filter_congr
    intro p hp
    simp [hh p hp]
  rw [hf, RiskEngine.positionCount, readingOf]
  cases engine.strategy with
  | none => simp
  | some name => simp [List.filter_map, Function.comp_def]

/-- In books without a flat position a turn keeps flat positions absent exactly if it holds shares. -/
theorem flatAbsent_iff (move : BookMove) (hn : (ctx.positions.map Domain.Position.symbol).Nodup)
    (hh : ∀ p ∈ ctx.positions, p.quantity ≠ 0) :
    FlatAbsent ctx move (move.apply ctx) ↔ HoldsShares ctx move := by
  have hheld : (∀ p ∈ (move.apply ctx).positions, p.quantity ≠ 0) ↔ HoldsShares ctx move := by
    cases move with
    | sync broker now => exact held_sync broker now hn hh
    | fill e => exact held_fill e hn hh
  constructor
  · exact fun h => hheld.mp h.held
  · intro h
    refine ⟨hheld.mpr h, ?_, counted (hheld.mpr h)⟩
    rintro e symbol p rfl hz hp -
    exact entered_fill hn hh hz hp

end Step

section Run
variable (cash : Rat)

private theorem afterMoves_concat (moves : List BookMove) (move : BookMove) :
    afterMoves (moves ++ [move]) cash = move.apply (afterMoves moves cash) := by
  simp [afterMoves]

private theorem nodup_afterMoves (moves : List BookMove) :
    ((afterMoves moves cash).positions.map Domain.Position.symbol).Nodup := by
  induction moves using List.reverseRecOn with
  | nil => exact List.nodup_nil
  | append_singleton moves move ih =>
    rw [afterMoves_concat]
    exact nodup_apply ih move

private theorem held_afterMoves {moves : List BookMove}
    (h : Trace.Each (fun pre move => FlatAbsent (afterMoves pre cash) move (move.apply (afterMoves pre cash))) moves) :
    ∀ p ∈ (afterMoves moves cash).positions, p.quantity ≠ 0 := by
  induction moves using List.reverseRecOn with
  | nil => exact fun p hp => nomatch hp
  | append_singleton moves move ih =>
    rw [afterMoves_concat]
    exact (Trace.each_concat.mp h).2.held

/-- Flat means absent throughout a session exactly if every row that stands for a symbol in
an import holds shares, and every fill that opens a position fills some. -/
theorem flat_absent_throughout (moves : List BookMove) :
    Trace.Each (fun pre move => FlatAbsent (afterMoves pre cash) move (move.apply (afterMoves pre cash))) moves ↔
      Trace.Each (fun pre move => HoldsShares (afterMoves pre cash) move) moves := by
  induction moves using List.reverseRecOn with
  | nil => exact ⟨fun _ => Trace.Each.nil _, fun _ => Trace.Each.nil _⟩
  | append_singleton moves move ih =>
    rw [Trace.each_concat, Trace.each_concat, ← ih]
    apply and_congr_right
    intro h
    exact flatAbsent_iff move (nodup_afterMoves cash moves) (held_afterMoves cash h)

end Run

def squaredOffRow : WireRecord :=
  ⟨[("tradingSymbol", .text "TCS"), ("netQty", .int 0), ("buyQty", .int 10), ("sellQty", .int 10),
    ("avgTradingPrice", .float 100 "100.0"), ("ltp", .float 101 "101.0")], by decide⟩

def reentry : List BookMove :=
  [.sync { positions := some (positionsFromDf [squaredOffRow]) } 0,
    .fill { orderId := "1", symbol := "TCS", exchange := "NSE", side := "BUY", quantity := 5, fillPrice := 200 }]

/-- The row is kept as a position without shares, which counts as an open one, and whose price
is not the price of the purchase that opens it again. -/
theorem flat_row_is_kept :
    ¬ Trace.Each (fun pre move => FlatAbsent (afterMoves pre 0) move (move.apply (afterMoves pre 0))) reentry ∧
      ((afterMoves (reentry.take 1) 0).positions.map Domain.Position.quantity = [0]) ∧
      openPositions none (afterMoves (reentry.take 1) 0) = 0 ∧
      (RiskEngine.create {} none 0).positionCount (readingOf (afterMoves (reentry.take 1) 0)) = 1 ∧
      ((afterMoves reentry 0).position "TCS").map (fun p => (p.quantity, p.avgPrice)) = some (5, 100) := by
  have hq : (afterMoves (reentry.take 1) 0).positions.map Domain.Position.quantity = [0] := by decide +kernel
  refine ⟨?_, hq, by decide +kernel, by decide +kernel, by decide +kernel⟩
  intro h
  have hh := (h [] _ _ rfl).held
  obtain ⟨p, hp, hz⟩ := List.mem_map.mp (hq ▸ List.mem_singleton_self (0 : Int))
  exact hh p hp hz

end NTrade.Runner
