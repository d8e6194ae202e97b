import NTrade.Runner.RiskLoop
import NTrade.Lib.Deque
import NTrade.Lib.Drawdown

/-! The report of a paper run, which is folded from the history of the bus, against the run.
The history is bounded, and a price that is written without an event is not in it. -/
namespace NTrade.Runner
open NTrade.Domain NTrade.Events NTrade.Engines NTrade.Execution NTrade.Lib

/-- What the bus dispatched, as far as the report reads it. -/
inductive Published where
  | filled (e : OrderFilled)
  | position (u : PositionUpdated)
  | balance (b : BalanceChanged)
  | other

/-- What happens in a run, one thing at a time: what a handler does while an event is dispatched comes right
after it. -/
inductive PaperAct where
  | other
  | fill (e : OrderFilled)
  /-- The portfolio engine books a fill and publishes the position. -/
  | book (e : OrderFilled)
  /-- The portfolio engine publishes the balance, the end of the events of a fill. -/
  | settle (now : Rat)
  /-- A close is written into a position. -/
  | reprice (symbol : String) (close : Rat)
  /-- Holding costs are deducted. -/
  | deduct (amount : Rat)
  | importRow (bp : BrokerPosition) (now : Rat)
  | dropRow (symbol : String) (now : Rat)

structure PaperRun (maxHistory : Nat) where
  ctx : TradingContext
  history : Deque Published maxHistory := Deque.empty
  /-- All that was dispatched. -/
  published : List Published := []
  /-- The equity after the events of each fill, and the positions it is of. -/
  path : List (Rat × Nat) := []

namespace PaperRun
variable {maxHistory : Nat} (s : PaperRun maxHistory)

def equity : Rat := (readingOf s.ctx).equity

def publish (p : Published) : PaperRun maxHistory :=
  { s with history := s.history.push p, published := s.published ++ [p] }

def act : PaperAct → PaperRun maxHistory
  | .other => s.publish .other
  | .fill e => s.publish (.filled e)
  | .book e =>
    let ctx := onFilled e s.ctx
    publish { s with ctx } (.position (announce e ctx).1)
  | .settle now =>
    { s.publish (.balance { balance := s.ctx.balance, ts := now }) with
      path := s.path ++ [(s.equity, s.ctx.positions.length)] }
  | .reprice symbol close =>
    { s with ctx := { s.ctx with
        positions := Keyed.revise Domain.Position.symbol symbol (fun p => { p with ltp := close }) s.ctx.positions } }
  | .deduct amount => { s with ctx := { s.ctx with balance := round (s.ctx.balance - amount) 4 } }
  -- the paper broker reports no cash, so that a sync moves positions only
  | .importRow bp now =>
    let done := upsert now { ctx := s.ctx } bp
    done.updates.foldl (fun s u => s.publish (.position u)) { s with ctx := done.ctx }
  | .dropRow symbol now =>
    match s.ctx.position symbol with
    | none => s
    | some p =>
      publish { s with ctx := { s.ctx with
          positions := Keyed.discard Domain.Position.symbol symbol s.ctx.positions } }
        (.position { symbol, exchange := p.exchange, quantity := 0, avgPrice := 0, ltp := 0, ts := now })

def run (maxHistory : Nat) (cash : Rat) (acts : List PaperAct) : PaperRun maxHistory :=
  acts.foldl act { ctx := { balance := cash } }

end PaperRun

structure EquityTrace where
  cash : Rat
  positions : Dict String (Int × Rat) := Dict.empty
  peak : Rat
  points : List (Rat × Rat)

namespace EquityTrace

def start (cash : Rat) : EquityTrace where
  cash
  peak := cash
  points := [(cash, cash)]

def read (t : EquityTrace) : Published → EquityTrace
  | .position u =>
    { t with positions := if u.quantity ≠ 0 then t.positions.set u.symbol (u.quantity, u.ltp) else t.positions.pop u.symbol }
  | .balance b =>
    let eq := b.balance + t.positions.total fun v => (v.1 : Rat) * v.2
    let peak := max t.peak eq
    { t with cash := b.balance, peak, points := t.points ++ [(peak, eq)] }
  | _ => t

def ofHistory (cash : Rat) (history : List Published) : EquityTrace := history.foldl read (start cash)

end EquityTrace

def equityTrace (cash : Rat) (history : List Published) : List (Rat × Rat) := (EquityTrace.ofHistory cash history).points

def Published.fill? : Published → Option OrderFilled
  | .filled e => some e
  | _ => none

def fillsPublished (published : List Published) : List OrderFilled := published.filterMap Published.fill?

structure Checklist where
  tradedOnlyAllowlistedSymbols : Bool := true
  noUnexplainedRejections : Bool := true
  killSwitchArmed : Bool := false
  forwardTestPeriodMet : Bool := false
  totalCharges : Rat

structure PaperReport where
  nTrades : Nat
  fills : List OrderFilled
  finalEquity : Rat
  maxDrawdownPct : Rat
  checklist : Checklist

def buildPaperReport {maxHistory : Nat} (cash : Rat) (s : PaperRun maxHistory) : PaperReport :=
  let fills := fillsPublished s.history.items
  { nTrades := fills.length
    fills
    finalEquity := round (s.ctx.balance + (s.ctx.positions.map fun p => p.quantity * orElse p.ltp p.avgPrice).sum) 2
    maxDrawdownPct := round (Drawdown.drawdown (equityTrace cash s.history.items)) 2
    checklist := { totalCharges := round (totalCharges fills) 2 } }

/-- A point of the report, and the equity of the run with its positions: each position rounds once. -/
def NearPoint (p : Rat × Rat) (e : Rat × Nat) : Prop := |p.2 - e.1| ≤ (e.2 : Rat) * (1 / 2 / 10 ^ 2)

structure Covers {maxHistory : Nat} (cash : Rat) (s : PaperRun maxHistory) : Prop where
  trades : (buildPaperReport cash s).nTrades = (fillsPublished s.published).length
  charges : |(buildPaperReport cash s).checklist.totalCharges - totalCharges (fillsPublished s.published)| ≤ 1 / 2 / 10 ^ 2
  points : List.Forall₂ NearPoint (equityTrace cash s.history.items).tail s.path
  reported : (buildPaperReport cash s).maxDrawdownPct =
    round (Drawdown.drawdown (Drawdown.peaks cash ((equityTrace cash s.history.items).tail.map Prod.snd))) 2
  drawdown : 0 < cash → ∀ ε, 0 ≤ ε → (∀ e ∈ s.path, (e.2 : Rat) * (1 / 2 / 10 ^ 2) ≤ ε) →
    let real := Drawdown.drawdown (Drawdown.peaks cash (s.path.map Prod.fst))
    |(buildPaperReport cash s).maxDrawdownPct - real| ≤ ε / cash * (200 + real) + 1 / 2 / 10 ^ 2

/-- Whatever left the history is nothing that the report reads. -/
def Retained {maxHistory : Nat} (s : PaperRun maxHistory) : Prop :=
  ∀ p ∈ s.published.take (s.published.length - maxHistory), p = .other

/-- The price that the last event of a symbol tells. -/
def lastTold (symbol : String) (published : List Published) : Option Rat :=
  Trace.last (fun
    | .position u => if u.symbol = symbol then some u.ltp else none
    | _ => none) published

def PricesTold {maxHistory : Nat} (s : PaperRun maxHistory) : Prop :=
  ∀ p ∈ s.ctx.positions, p.quantity ≠ 0 → lastTold p.symbol s.published = some p.ltp

section Reading
variable {cash : Rat} {history : List Published}

@[simp] theorem ofHistory_concat (p : Published) :
    EquityTrace.ofHistory cash (history ++ [p]) = (EquityTrace.ofHistory cash history).read p :=
  List.foldl_concat _ _ _ _

/-- The points of a trace are its values with their peaks. -/
theorem points_ofHistory (cash : Rat) (history : List Published) :
    let t := EquityTrace.ofHistory cash history
    ∃ values, t.points = (cash, cash) :: Drawdown.peaks cash values ∧ t.peak = values.foldl max cash := by
  induction history using List.reverseRecOn with
  | nil => exact ⟨[], rfl, rfl⟩
  | append_singleton history p ih =>
    obtain ⟨values, hp, hk⟩ := ih
    dsimp only
    rw [ofHistory_concat]
    cases p with
    | balance b =>
      refine ⟨values ++ [b.balance + (EquityTrace.ofHistory cash history).positions.total fun v => (v.1 : Rat) * v.2],
        ?_, ?_⟩
      · rw [Drawdown.peaks_concat, ← hk, ← List.cons_append, ← hp]
        rfl
      · rw [List.foldl_concat, ← hk]
        rfl
    | filled e => exact ⟨values, hp, hk⟩
    | position u => exact ⟨values, hp, hk⟩
    | other => exact ⟨values, hp, hk⟩

/-- Events that the report does not read leave the trace. -/
theorem ofHistory_append_of_other {pre : List Published} (h : ∀ p ∈ pre, p = .other) :
    EquityTrace.ofHistory cash (pre ++ history) = EquityTrace.ofHistory cash history := by
  have hpre : pre.foldl EquityTrace.read (EquityTrace.start cash) = EquityTrace.start cash := by
    induction pre with
    | nil => rfl
    | cons p pre ih =>
      rw [h p List.mem_cons_self]
      exact ih fun q hq => h q (List.mem_cons_of_mem _ hq)
  rw [EquityTrace.ofHistory, List.foldl_append, hpre]
  rfl

theorem fillsPublished_append (pre : List Published) :
    fillsPublished (pre ++ history) = fillsPublished pre ++ fillsPublished history := List.filterMap_append

theorem fillsPublished_of_other {pre : List Published} (h : ∀ p ∈ pre, p = .other) : fillsPublished pre = [] := by
  apply List.filterMap_eq_nil_iff.mpr
  intro p hp
  rw [h p hp]
  rfl

theorem lastTold_concat (symbol : String) (p : Published) : lastTold symbol (history ++ [p]) =
    (match p with
      | .position u => if u.symbol = symbol then some u.ltp else none
      | _ => none).or (lastTold symbol history) :=
  Trace.last_concat _ _ _

end Reading

structure Mirrored {maxHistory : Nat} (cash : Rat) (s : PaperRun maxHistory) : Prop where
  history : s.history = Deque.empty.pushAll s.published
  unique : (s.ctx.positions.map Domain.Position.symbol).Nodup
  shares : ∀ symbol, ((EquityTrace.ofHistory cash s.published).positions.get symbol).map Prod.fst =
    if s.ctx.quantity symbol = 0 then none else some (s.ctx.quantity symbol)
  told : ∀ symbol v, (EquityTrace.ofHistory cash s.published).positions.get symbol = some v →
    lastTold symbol s.published = some v.2

namespace Mirrored
variable {maxHistory : Nat} {cash : Rat} {s : PaperRun maxHistory} {ctx : TradingContext}

theorem start : Mirrored cash ({ ctx := { balance := cash } } : PaperRun maxHistory) where
  history := rfl
  unique := List.nodup_nil
  shares _ := rfl
  told _ _ h := nomatch h

/-- A change that moves no shares needs no event. -/
theorem quiet (h : Mirrored cash s) (hn : (ctx.positions.map Domain.Position.symbol).Nodup)
    (hq : ∀ symbol, ctx.quantity symbol = s.ctx.quantity symbol) : Mirrored cash { s with ctx } where
  history := h.history
  unique := hn
  shares symbol := by
    rw [hq]
    exact h.shares symbol
  told := h.told

theorem history_publish (h : s.history = Deque.empty.pushAll s.published) (p : Published) :
    (s.publish p).history = Deque.empty.pushAll (s.publish p).published := by
  rw [PaperRun.publish, Deque.pushAll_append, ← h]
  rfl

/-- The shares of one symbol change, and an event tells it. -/
theorem announced (h : Mirrored cash s) {u : PositionUpdated} (hn : (ctx.positions.map Domain.Position.symbol).Nodup)
    (hq : ∀ symbol, ctx.quantity symbol = if symbol = u.symbol then u.quantity else s.ctx.quantity symbol) :
    Mirrored cash (PaperRun.publish { s with ctx } (.position u)) := by
  have hget (symbol : String) :
      (EquityTrace.ofHistory cash (s.published ++ [Published.position u])).positions.get symbol =
        if symbol = u.symbol then (if u.quantity = 0 then none else some (u.quantity, u.ltp))
        else (EquityTrace.ofHistory cash s.published).positions.get symbol := by
    rw [ofHistory_concat, EquityTrace.read]
    by_cases hz : u.quantity = 0
    · rw [if_neg (not_not.mpr hz), if_pos hz, Dict.get_pop]
    · rw [if_pos hz, if_neg hz, Dict.get_set]
  have hlast (symbol : String) : lastTold symbol (s.published ++ [Published.position u]) =
      (if u.symbol = symbol then some u.ltp else none).or (lastTold symbol s.published) := lastTold_concat _ _
  refine ⟨history_publish h.history _, hn, fun symbol => ?_, fun symbol v hv => ?_⟩
  · show ((EquityTrace.ofHistory cash (s.published ++ [Published.position u])).positions.get symbol).map Prod.fst =
      if ctx.quantity symbol = 0 then none else some (ctx.quantity symbol)
    rw [hget, hq]
    by_cases hs : symbol = u.symbol
    · rw [if_pos hs, if_pos hs]
      split <;> rfl
    · rw [if_neg hs, if_neg hs]
      exact h.shares symbol
  · have hv : (EquityTrace.ofHistory cash (s.published ++ [Published.position u])).positions.get symbol = some v := hv
    show lastTold symbol (s.published ++ [Published.position u]) = some v.2
    rw [hget] at hv
    rw [hlast]
    by_cases hs : symbol = u.symbol
    · rw [if_pos hs] at hv
      rw [if_pos hs.symm]
      split at hv
      · cases hv
      · rw [← Option.some.inj hv]
        rfl
    · rw [if_neg hs] at hv
      rw [if_neg (Ne.symm hs)]
      exact h.told symbol v hv

/-- An event without a position. -/
theorem published (h : Mirrored cash s) {p : Published}
    (hp : ∀ t : EquityTrace, (t.read p).positions = t.positions)
    (ht : ∀ symbol history, lastTold symbol (history ++ [p]) = lastTold symbol history) : Mirrored cash (s.publish p) where
  history := history_publish h.history p
  unique := h.unique
  shares symbol := by
    show ((EquityTrace.ofHistory cash (s.published ++ [p])).positions.get symbol).map Prod.fst = _
    rw [ofHistory_concat, hp]
    exact h.shares symbol
  told symbol v hv := by
    show lastTold symbol (s.published ++ [p]) = some v.2
    have hv : (EquityTrace.ofHistory cash (s.published ++ [p])).positions.get symbol = some v := hv
    rw [ofHistory_concat, hp] at hv
    rw [ht]
    exact h.told symbol v hv

theorem book (h : Mirrored cash s) (e : OrderFilled) : Mirrored cash (s.act (.book e)) := by
  apply h.announced (onFilled_positions_nodup h.unique)
  intro symbol
  by_cases hs : symbol = e.symbol
  · subst hs
    exact (if_pos rfl).symm
  · rw [quantity_onFilled h.unique, if_neg (Ne.symm hs), add_zero]
    exact (if_neg hs).symm

/-- A row is told if it changes. -/
theorem updates_upsert (ctx : TradingContext) (bp : BrokerPosition) (now : Rat) : (upsert now { ctx } bp).updates =
    if rowChanges bp (ctx.position bp.symbol) then
      [{ symbol := bp.symbol, exchange := (imported bp (ctx.position bp.symbol)).exchange, quantity := toInt bp.quantity,
         avgPrice := toFloat bp.avgPrice, ltp := toFloat bp.ltp, ts := now }]
    else [] := rfl

theorem importRow (h : Mirrored cash s) (bp : BrokerPosition) (now : Rat) : Mirrored cash (s.act (.importRow bp now)) := by
  have hn := @nodup_upsert now { ctx := s.ctx } bp h.unique
  have hq (symbol : String) : (upsert now { ctx := s.ctx } bp).ctx.quantity symbol =
      if symbol = bp.symbol then toInt bp.quantity else s.ctx.quantity symbol := by
    rw [TradingContext.quantity, @position_upsert now { ctx := s.ctx } symbol bp]
    split <;> rfl
  rw [PaperRun.act, updates_upsert]
  split
  · exact h.announced hn hq
  · next hc =>
    apply h.quiet hn
    intro symbol
    rw [hq]
    split
    · next hs =>
      rw [hs, TradingContext.quantity]
      cases hp : s.ctx.position bp.symbol with
      | none =>
        simp [rowChanges, hp] at hc
        exact hc.1.1
      | some p =>
        simp [rowChanges, hp] at hc
        exact hc.1.1.symm
    · rfl

theorem dropRow (h : Mirrored cash s) (symbol : String) (now : Rat) : Mirrored cash (s.act (.dropRow symbol now)) := by
  rw [PaperRun.act]
  split
  · exact h
  · next p hp =>
    apply h.announced (Keyed.nodup_discard h.unique)
    intro sym
    have hd : ({ s.ctx with positions := Keyed.discard Domain.Position.symbol symbol s.ctx.positions } :
        TradingContext).position sym = if sym = symbol then none else s.ctx.position sym :=
      Keyed.lookup_discard h.unique
    rw [TradingContext.quantity, hd]
    split
    · rfl
    · rfl

theorem reprice (h : Mirrored cash s) (symbol : String) (close : Rat) : Mirrored cash (s.act (.reprice symbol close)) := by
  have hkey : ∀ p : Domain.Position, p.symbol = symbol → ({ p with ltp := close } : Domain.Position).symbol = symbol :=
    fun _ hp => hp
  apply h.quiet
  · rw [Keyed.map_key_revise hkey]
    exact h.unique
  · intro sym
    have hp : TradingContext.position { s.ctx with
          positions := Keyed.revise Domain.Position.symbol symbol (fun p => { p with ltp := close }) s.ctx.positions } sym =
        if sym = symbol then (s.ctx.position sym).map (fun p => { p with ltp := close }) else s.ctx.position sym :=
      Keyed.lookup_revise hkey
    rw [TradingContext.quantity, hp, TradingContext.quantity]
    split
    · cases s.ctx.position sym <;> rfl
    · rfl

theorem act (h : Mirrored cash s) (a : PaperAct) : Mirrored cash (s.act a) := by
  cases a with
  | other => exact h.published (fun _ => rfl) fun _ _ => lastTold_concat _ _
  | fill e => exact h.published (fun _ => rfl) fun _ _ => lastTold_concat _ _
  | book e => exact h.book e
  | settle now =>
    have hp : Mirrored cash (s.publish (.balance { balance := s.ctx.balance, ts := now })) :=
      h.published (fun _ => rfl) fun _ _ => lastTold_concat _ _
    exact ⟨hp.history, hp.unique, hp.shares, hp.told⟩
  | reprice symbol close => exact h.reprice symbol close
  | deduct amount => exact h.quiet h.unique fun _ => rfl
  | importRow bp now => exact h.importRow bp now
  | dropRow symbol now => exact h.dropRow symbol now

private def openRows (ctx : TradingContext) : List (String × Int × Rat) :=
  (ctx.positions.filter fun p => p.quantity ≠ 0).map fun p => (p.symbol, p.quantity, p.ltp)

private theorem mem_openRows (hn : (s.ctx.positions.map Domain.Position.symbol).Nodup) {symbol : String} {v : Int × Rat} :
    (symbol, v) ∈ openRows s.ctx ↔ ∃ p, s.ctx.position symbol = some p ∧ p.quantity ≠ 0 ∧ v = (p.quantity, p.ltp) := by
  rw [openRows, List.mem_map]
  constructor
  · rintro ⟨p, hp, he⟩
    obtain ⟨hmem, hq⟩ := List.mem_filter.mp hp
    obtain ⟨rfl, rfl⟩ := Prod.mk.inj he
    exact ⟨p, Keyed.lookup_mem hn hmem, of_decide_eq_true hq, rfl⟩
  · rintro ⟨p, hp, hq, rfl⟩
    obtain ⟨hmem, rfl⟩ := Keyed.lookup_some hp
    exact ⟨p, List.mem_filter.mpr ⟨hmem, decide_eq_true hq⟩, rfl⟩

/-- When all prices are told, the trace has the open positions. -/
theorem get_eq_some_iff (h : Mirrored cash s) (ht : PricesTold s) (symbol : String) (v : Int × Rat) :
    (symbol, v) ∈ openRows s.ctx ↔ (EquityTrace.ofHistory cash s.published).positions.get symbol = some v := by
  have hshares := h.shares symbol
  rw [mem_openRows h.unique]
  constructor
  · rintro ⟨p, hp, hq, rfl⟩
    have hqty : s.ctx.quantity symbol = p.quantity := by
      rw [TradingContext.quantity, hp]
      rfl
    rw [hqty, if_neg hq, Option.map_eq_some_iff] at hshares
    obtain ⟨⟨q, x⟩, hget, hx⟩ := hshares
    obtain ⟨hmem, rfl⟩ := Keyed.lookup_some hp
    have htold := h.told _ _ hget
    rw [ht p hmem hq] at htold
    rw [hget, Option.some.inj htold, ← hx]
  · intro hget
    rw [hget] at hshares
    by_cases hz : s.ctx.quantity symbol = 0
    · rw [if_pos hz] at hshares
      cases hshares
    · rw [if_neg hz] at hshares
      have hv : v.1 = s.ctx.quantity symbol := Option.some.inj hshares
      cases hp : s.ctx.position symbol with
      | none =>
        rw [TradingContext.quantity, hp] at hz
        exact absurd rfl hz
      | some p =>
        have hqty : s.ctx.quantity symbol = p.quantity := by
          rw [TradingContext.quantity, hp]
          rfl
        rw [hqty] at hz hv
        obtain ⟨hmem, rfl⟩ := Keyed.lookup_some hp
        have htold := ht p hmem hz
        rw [h.told _ _ hget] at htold
        exact ⟨p, rfl, hz, Prod.ext hv (Option.some.inj htold)⟩

private theorem sum_openRows (ctx : TradingContext) :
    ((openRows ctx).map fun e => (e.2.1 : Rat) * e.2.2).sum = (ctx.positions.map fun p => (p.quantity : Rat) * p.ltp).sum := by
  rw [openRows, List.map_map]
  induction ctx.positions with
  | nil => rfl
  | cons p ps ih =>
    rw [List.filter_cons]
    split
    · rw [List.map_cons, List.sum_cons, ih]
      rfl
    · next hz =>
      have hz : p.quantity = 0 := by simpa using hz
      rw [ih, List.map_cons, List.sum_cons, hz, Int.cast_zero, zero_mul, zero_add]

/-- The equity that is read at a balance is near to the equity of the run. -/
theorem near (h : Mirrored cash s) (ht : PricesTold s) :
    |s.ctx.balance + (EquityTrace.ofHistory cash s.published).positions.total (fun v => (v.1 : Rat) * v.2) - s.equity| ≤
      (s.ctx.positions.length : Rat) * (1 / 2 / 10 ^ 2) := by
  have hrows : ((openRows s.ctx).map Prod.fst).Nodup := by
    rw [openRows, List.map_map]
    exact h.unique.sublist (List.filter_sublist.map _)
  have htotal : (EquityTrace.ofHistory cash s.published).positions.total (fun v => (v.1 : Rat) * v.2) =
      (s.ctx.positions.map fun p => (p.quantity : Rat) * p.ltp).sum := by
    rw [Dict.total_eq_sum _ hrows (h.get_eq_some_iff ht)]
    exact sum_openRows s.ctx
  have hequity : s.equity =
      s.ctx.balance + ((s.ctx.positions.map fun p => (p.quantity : Rat) * p.ltp).map fun x => round x 2).sum := by
    rw [PaperRun.equity, readingOf, Reading.equity, List.map_map, List.map_map]
    rfl
  have hround := abs_sum_round_sub_le (s.ctx.positions.map fun p => (p.quantity : Rat) * p.ltp) 2
  rw [List.length_map] at hround
  rw [htotal, hequity, add_sub_add_left_eq_sub, abs_sub_comm]
  exact hround

end Mirrored

section Prices
variable {maxHistory : Nat} {cash : Rat} {s : PaperRun maxHistory} {ctx : TradingContext}

/-- The prices of the positions, looked up by symbol. -/
private theorem PricesTold.of_position
    (h : ∀ symbol p, s.ctx.position symbol = some p → p.quantity ≠ 0 → lastTold symbol s.published = some p.ltp)
    (hn : (s.ctx.positions.map Domain.Position.symbol).Nodup) : PricesTold s := by
  intro p hp hq
  exact h p.symbol p (Keyed.lookup_mem hn hp) hq

private theorem PricesTold.position (h : PricesTold s) {symbol : String} {p : Domain.Position}
    (hp : s.ctx.position symbol = some p) (hq : p.quantity ≠ 0) : lastTold symbol s.published = some p.ltp := by
  obtain ⟨hmem, rfl⟩ := Keyed.lookup_some hp
  exact h p hmem hq

/-- One position changes, and its price is told. -/
private theorem PricesTold.announced (h : PricesTold s) {u : PositionUpdated}
    (hn : (ctx.positions.map Domain.Position.symbol).Nodup)
    (hp : ∀ symbol, symbol ≠ u.symbol → ctx.position symbol = s.ctx.position symbol)
    (hu : ∀ p, ctx.position u.symbol = some p → p.quantity ≠ 0 → p.ltp = u.ltp) :
    PricesTold (PaperRun.publish { s with ctx } (.position u)) := by
  refine PricesTold.of_position (fun symbol p hpos hq => ?_) hn
  have hlast : lastTold symbol (s.published ++ [Published.position u]) =
      (if u.symbol = symbol then some u.ltp else none).or (lastTold symbol s.published) := lastTold_concat _ _
  have hpos : ctx.position symbol = some p := hpos
  show lastTold symbol (s.published ++ [Published.position u]) = some p.ltp
  rw [hlast]
  by_cases hs : symbol = u.symbol
  · subst hs
    rw [if_pos rfl, hu p hpos hq]
    rfl
  · rw [if_neg (Ne.symm hs)]
    rw [hp symbol hs] at hpos
    exact h.position hpos hq

/-- Whatever writes no price without an event keeps the prices told. -/
theorem PricesTold.act (h : PricesTold s) (hm : Mirrored cash s) {a : PaperAct}
    (ha : ∀ symbol close, a ≠ .reprice symbol close) : PricesTold (s.act a) := by
  have hquiet {p : Published} (hp : ∀ symbol, lastTold symbol (s.published ++ [p]) = lastTold symbol s.published) :
      PricesTold (s.publish p) := by
    intro q hq hz
    exact (hp q.symbol).trans (h q hq hz)
  cases a with
  | other => exact hquiet fun _ => lastTold_concat _ _
  | fill e => exact hquiet fun _ => lastTold_concat _ _
  | settle now => exact @hquiet (.balance { balance := s.ctx.balance, ts := now }) fun _ => lastTold_concat _ _
  | reprice symbol close => exact absurd rfl (ha symbol close)
  | deduct amount => exact h
  | book e =>
    apply h.announced (onFilled_positions_nodup hm.unique)
    · intro symbol hs
      rw [position_onFilled hm.unique]
      exact if_neg hs
    · intro p hp _
      have hp : (onFilled e s.ctx).position e.symbol = some p := hp
      rw [position_onFilled hm.unique, if_pos rfl] at hp
      cases hold : s.ctx.position e.symbol with
      | none =>
        rw [hold, filled] at hp
        rw [← Option.some.inj hp]
        rfl
      | some old =>
        rw [hold, filled] at hp
        split at hp
        · cases hp
        · rw [← Option.some.inj hp]
          rfl
  | importRow bp now =>
    have hn := @nodup_upsert now { ctx := s.ctx } bp hm.unique
    have hp (symbol : String) := @position_upsert now { ctx := s.ctx } symbol bp
    rw [PaperRun.act, Mirrored.updates_upsert]
    split
    · apply h.announced hn
      · intro symbol hs
        rw [hp]
        exact if_neg hs
      · intro p hpos _
        have hpos : (upsert now { ctx := s.ctx } bp).ctx.position bp.symbol = some p := hpos
        rw [hp, if_pos rfl] at hpos
        rw [← Option.some.inj hpos]
        rfl
    · next hc =>
      refine PricesTold.of_position (fun symbol p hpos hq => ?_) hn
      have hpos : (upsert now { ctx := s.ctx } bp).ctx.position symbol = some p := hpos
      rw [hp] at hpos
      by_cases hs : symbol = bp.symbol
      · subst hs
        rw [if_pos rfl] at hpos
        cases hold : s.ctx.position bp.symbol with
        | none =>
          simp [rowChanges, hold] at hc
          rw [← Option.some.inj hpos] at hq
          exact absurd hc.1.1 hq
        | some old =>
          simp [rowChanges, hold] at hc
          obtain ⟨⟨hcq, -⟩, hcl⟩ := hc
          have hltp : old.ltp = p.ltp := by
            rw [hcl, ← Option.some.inj hpos]
            rfl
          have hold0 : old.quantity ≠ 0 := by
            rw [hcq]
            rw [← Option.some.inj hpos] at hq
            exact hq
          rw [← hltp]
          exact h.position hold hold0
      · rw [if_neg hs] at hpos
        exact h.position hpos hq
  | dropRow symbol now =>
    rw [PaperRun.act]
    split
    · exact h
    · have hd (sym : String) : ({ s.ctx with positions := Keyed.discard Domain.Position.symbol symbol s.ctx.positions } :
          TradingContext).position sym = if sym = symbol then none else s.ctx.position sym :=
        Keyed.lookup_discard hm.unique
      apply h.announced (Keyed.nodup_discard hm.unique)
      · intro sym hs
        rw [hd]
        exact if_neg hs
      · intro p hp _
        have hp : ({ s.ctx with positions := Keyed.discard Domain.Position.symbol symbol s.ctx.positions } :
          TradingContext).position symbol = some p := hp
        rw [hd, if_pos rfl] at hp
        cases hp

end Prices

section Run
variable {maxHistory : Nat} {cash : Rat} {s : PaperRun maxHistory}

theorem run_concat (acts : List PaperAct) (a : PaperAct) :
    PaperRun.run maxHistory cash (acts ++ [a]) = (PaperRun.run maxHistory cash acts).act a :=
  List.foldl_concat _ _ _ _

theorem mirrored_run (acts : List PaperAct) : Mirrored cash (PaperRun.run maxHistory cash acts) := by
  induction acts using List.reverseRecOn with
  | nil => exact .start
  | append_singleton acts a ih =>
    rw [run_concat]
    exact ih.act a

/-- In a run that writes no price without an event, all prices are told. -/
theorem pricesTold_run {acts : List PaperAct} (h : ∀ a ∈ acts, ∀ symbol close, a ≠ .reprice symbol close) :
    PricesTold (PaperRun.run maxHistory cash acts) := by
  induction acts using List.reverseRecOn with
  | nil => exact fun _ hp => nomatch hp
  | append_singleton acts a ih =>
    rw [run_concat]
    have hacts := ih fun a ha => h a (List.mem_append_left _ ha)
    exact hacts.act (@mirrored_run maxHistory cash acts) (h a (List.mem_append_right _ (List.mem_singleton_self a)))

/-- Only a balance adds a point. -/
theorem points_act {a : PaperAct} (ha : ∀ now, a ≠ .settle now) :
    (EquityTrace.ofHistory cash (s.act a).published).points = (EquityTrace.ofHistory cash s.published).points ∧
      (s.act a).path = s.path := by
  have hread (p : Published) (h : ∀ t : EquityTrace, (t.read p).points = t.points) :
      (EquityTrace.ofHistory cash (s.published ++ [p])).points = (EquityTrace.ofHistory cash s.published).points := by
    rw [ofHistory_concat, h]
  cases a with
  | settle now => exact absurd rfl (ha now)
  | other => exact ⟨hread _ fun _ => rfl, rfl⟩
  | fill e => exact ⟨hread _ fun _ => rfl, rfl⟩
  | book e => exact ⟨hread _ fun _ => rfl, rfl⟩
  | reprice symbol close => exact ⟨rfl, rfl⟩
  | deduct amount => exact ⟨rfl, rfl⟩
  | importRow bp now =>
    rw [PaperRun.act, Mirrored.updates_upsert]
    split
    · exact ⟨hread _ fun _ => rfl, rfl⟩
    · exact ⟨rfl, rfl⟩
  | dropRow symbol now =>
    rw [PaperRun.act]
    split
    · exact ⟨rfl, rfl⟩
    · exact ⟨hread _ fun _ => rfl, rfl⟩

theorem points_run {acts : List PaperAct}
    (ht : Trace.Each (fun pre a => ∀ now, a = .settle now → PricesTold (PaperRun.run maxHistory cash pre)) acts) :
    List.Forall₂ NearPoint (equityTrace cash (PaperRun.run maxHistory cash acts).published).tail
      (PaperRun.run maxHistory cash acts).path := by
  induction acts using List.reverseRecOn with
  | nil => exact .nil
  | append_singleton acts a ih =>
    obtain ⟨hacts, ha⟩ := Trace.each_concat.mp ht
    have ih := ih hacts
    rw [run_concat]
    by_cases hs : ∃ now, a = .settle now
    · obtain ⟨now, rfl⟩ := hs
      have hnear := (mirrored_run acts).near (ha now rfl)
      obtain ⟨values, hpoints, -⟩ := points_ofHistory cash (PaperRun.run maxHistory cash acts).published
      have hpub : ((PaperRun.run maxHistory cash acts).act (.settle now)).published =
          (PaperRun.run maxHistory cash acts).published ++
            [.balance { balance := (PaperRun.run maxHistory cash acts).ctx.balance, ts := now }] := rfl
      rw [equityTrace, hpub, ofHistory_concat, EquityTrace.read, List.tail_append_of_ne_nil]
      · exact List.rel_append ih (.cons hnear .nil)
      · rw [hpoints]
        exact List.cons_ne_nil _ _
    · obtain ⟨hp, hpath⟩ := @points_act _ cash (PaperRun.run maxHistory cash acts) a fun now h => hs ⟨now, h⟩
      rw [equityTrace, hp, hpath]
      exact ih

/-- A history that lost nothing the report reads is as good as all that was dispatched. -/
theorem items_history (h : s.history = Deque.empty.pushAll s.published) :
    s.history.items = s.published.drop (s.published.length - maxHistory) := by
  rw [h, Deque.items_pushAll]
  rfl

theorem equityTrace_history (h : s.history = Deque.empty.pushAll s.published) (hr : Retained s) :
    equityTrace cash s.history.items = equityTrace cash s.published := by
  have hsplit := List.take_append_drop (s.published.length - maxHistory) s.published
  rw [equityTrace, equityTrace, items_history h, ← ofHistory_append_of_other hr, hsplit]

theorem fills_history (h : s.history = Deque.empty.pushAll s.published) (hr : Retained s) :
    fillsPublished s.history.items = fillsPublished s.published := by
  have hsplit := List.take_append_drop (s.published.length - maxHistory) s.published
  rw [items_history h, ← hsplit, fillsPublished_append, fillsPublished_of_other hr, hsplit]
  rfl

/-- The report covers a run of any length, when the history lost nothing that the report reads, and each
balance is published at the prices that were told. -/
theorem paper_report_covers {acts : List PaperAct} (hr : Retained (PaperRun.run maxHistory cash acts))
    (ht : Trace.Each (fun pre a => ∀ now, a = .settle now → PricesTold (PaperRun.run maxHistory cash pre)) acts) :
    Covers cash (PaperRun.run maxHistory cash acts) := by
  have hm := @mirrored_run maxHistory cash acts
  have htrace : equityTrace cash (PaperRun.run maxHistory cash acts).history.items = _ := equityTrace_history hm.history hr
  have hfills := fills_history hm.history hr
  have hpoints := points_run ht
  obtain ⟨values, hvalues, -⟩ := points_ofHistory cash (PaperRun.run maxHistory cash acts).published
  have hvalues : equityTrace cash (PaperRun.run maxHistory cash acts).published =
      (cash, cash) :: Drawdown.peaks cash values := hvalues
  have hreport : (buildPaperReport cash (PaperRun.run maxHistory cash acts)).maxDrawdownPct =
      round (Drawdown.drawdown (Drawdown.peaks cash values)) 2 := by
    rw [buildPaperReport, htrace, hvalues, Drawdown.drawdown_cons_self]
  refine ⟨?_, ?_, ?_, ?_, ?_⟩
  · rw [buildPaperReport, hfills]
  · rw [buildPaperReport, hfills]
    exact abs_round_sub_le _ _
  · rw [htrace]
    exact hpoints
  · rw [htrace, hvalues, List.tail_cons, Drawdown.map_snd_peaks]
    exact hreport
  · intro hcash ε hε hpath
    dsimp only
    rw [hvalues, List.tail_cons] at hpoints
    have hclose : List.Forall₂ (fun x y => |x - y| ≤ ε) values
        ((PaperRun.run maxHistory cash acts).path.map Prod.fst) := by
      rw [← Drawdown.map_snd_peaks cash values, List.forall₂_map_left_iff, List.forall₂_map_right_iff]
      have hflip : List.Forall₂ (fun e p => NearPoint p e) (PaperRun.run maxHistory cash acts).path
          (Drawdown.peaks cash values) := hpoints.flip
      have hboth := (List.forall₂_and_left _ _).mpr ⟨hpath, hflip⟩
      have hnear : List.Forall₂ (fun (e : Rat × Nat) (p : Rat × Rat) => |p.2 - e.1| ≤ ε) _ _ :=
        hboth.imp fun _ _ h => h.2.trans h.1
      exact hnear.flip
    have hdown := Drawdown.drawdown_near hclose hcash hε
    have hround := abs_round_sub_le (Drawdown.drawdown (Drawdown.peaks cash values)) 2
    rw [hreport]
    calc
      _ ≤ |round (Drawdown.drawdown (Drawdown.peaks cash values)) 2 - Drawdown.drawdown (Drawdown.peaks cash values)| + _ :=
        abs_sub_le _ _ _
      _ ≤ _ := by
        rw [add_comm]
        exact add_le_add hdown hround

theorem published_replicate (acts : List PaperAct) (k : Nat) :
    (PaperRun.run maxHistory cash (acts ++ List.replicate k .other)).published =
      (PaperRun.run maxHistory cash acts).published ++ List.replicate k .other := by
  induction k with
  | zero => simp
  | succ k ih =>
    rw [List.replicate_succ', List.replicate_succ', ← List.append_assoc, run_concat, ← List.append_assoc, ← ih]
    rfl

end Run

private def bought : OrderFilled where
  orderId := "1"
  symbol := "A"
  exchange := "NSE"
  side := "BUY"
  quantity := 10
  fillPrice := 100
  ts := 0

private def oneFill : List PaperAct := [.fill bought, .book bought, .settle 0]

/-- Two events have left a history of three, and the report reads the three of the fill. -/
theorem one_fill_covered : Covers 100000 (PaperRun.run 3 100000 (.other :: .other :: oneFill)) := by
  have hlost : (PaperRun.run 3 100000 (.other :: .other :: oneFill)).published.take
      ((PaperRun.run 3 100000 (.other :: .other :: oneFill)).published.length - 3) = [.other, .other] := by
    rfl
  refine paper_report_covers (fun p hp => ?_) fun pre a suf he now ha => ?_
  · rw [hlost] at hp
    simpa using hp
  · apply pricesTold_run
    intro b hb symbol close hr
    have hmem : PaperAct.reprice symbol close ∈ PaperAct.other :: .other :: oneFill := by
      rw [he, ← hr]
      exact List.mem_append_left _ hb
    simp [oneFill] at hmem

/-- A fill after which 10000 events are dispatched is not in the report. -/
theorem old_fill_lost : ¬ ∀ (cash : Rat) (acts : List PaperAct), Covers cash (PaperRun.run 10000 cash acts) := by
  intro h
  have hpub : (PaperRun.run 10000 100000 (oneFill ++ List.replicate 10000 .other)).published =
      (PaperRun.run 10000 100000 oneFill).published ++ List.replicate 10000 .other := published_replicate oneFill 10000
  have hlen : ((PaperRun.run 10000 100000 oneFill).published ++ List.replicate 10000 Published.other).length - 10000 =
      (PaperRun.run 10000 100000 oneFill).published.length := by
    rw [List.length_append, List.length_replicate]
    exact Nat.add_sub_cancel _ _
  have htrades := (h 100000 (oneFill ++ List.replicate 10000 .other)).trades
  have hm := @mirrored_run 10000 100000 (oneFill ++ List.replicate 10000 .other)
  rw [buildPaperReport, items_history hm.history, hpub, hlen, List.drop_left] at htrades
  have hnone : fillsPublished (List.replicate 10000 .other) = [] :=
    fillsPublished_of_other fun _ hp => List.eq_of_mem_replicate hp
  rw [fillsPublished_append, hnone] at htrades
  exact absurd htrades (by decide)

end NTrade.Runner
