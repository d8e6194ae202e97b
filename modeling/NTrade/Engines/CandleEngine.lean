import NTrade.Domain.MarketHours
import NTrade.Domain.Timeframes
import NTrade.Lib.Buckets
import Mathlib.Algebra.Order.Ring.Rat
import Mathlib.Order.Bounds.Basic

/-! The candle engine: ticks are aggregated into candles, and a candle closes when a tick of a later
bucket comes or when it is flushed. -/
namespace NTrade.Engines
open NTrade.Domain NTrade.Lib

structure TickEvent where
  symbol : String
  exchange : String
  price : Rat
  quantity : Int := 0
  ts : Timestamp
  deriving DecidableEq, Repr

structure QuoteEvent where
  symbol : String
  exchange : String
  ltp : Rat := 0
  open_ : Rat := 0
  high : Rat := 0
  low : Rat := 0
  volume : Int := 0
  ts : Timestamp
  deriving DecidableEq, Repr

structure Ohlcv where
  open_ : Rat
  high : Rat
  low : Rat
  close : Rat
  volume : Int
  deriving DecidableEq, Repr

structure Candle extends Ohlcv where
  bucket : Int
  exchange : String
  deriving DecidableEq, Repr

structure CandleClosedEvent extends Ohlcv where
  symbol : String
  exchange : String
  timeframe : String
  /-- The wall time in UTC at which the bucket ends, in seconds. -/
  ts : Int
  deriving DecidableEq, Repr

inductive Mode where
  | live
  | replay
  | backtest
  deriving DecidableEq, Repr

structure CandleEngine where
  timeframe : String
  seconds : Nat
  maxCandles : Nat := 10000
  mode : Mode := .live
  opened : Dict String Candle := Dict.empty
  closed : Dict String (List CandleClosedEvent) := Dict.empty
  /-- The last bucket that a bar's quote seeded, by symbol. -/
  barSeeded : Dict String Int := Dict.empty
  lateTicks : Nat := 0
  /-- The candles published on the bus. -/
  published : List CandleClosedEvent := []

def Candle.start (bucket : Int) (exchange : String) (price : Rat) : Candle where
  bucket := bucket
  exchange := exchange
  open_ := price
  high := price
  low := price
  close := price
  volume := 0

def Candle.take (price : Rat) (volume : Int) (c : Candle) : Candle :=
  { c with high := max c.high price, low := min c.low price, close := price, volume := c.volume + volume }

def Candle.gather (bucket : Int) (first : TickEvent) (rest : List TickEvent) : Candle :=
  rest.foldl (fun c t => c.take t.price t.quantity)
    ((Candle.start bucket first.exchange first.price).take first.price first.quantity)

section Gather

structure Ohlcv.Of (c : Ohlcv) (ticks : List TickEvent) : Prop where
  open_ : ticks.head?.map (·.price) = some c.open_
  high : IsGreatest {p | ∃ t ∈ ticks, t.price = p} c.high
  low : IsLeast {p | ∃ t ∈ ticks, t.price = p} c.low
  close : ticks.getLast?.map (·.price) = some c.close
  volume : c.volume = (ticks.map (·.quantity)).sum

private theorem Ohlcv.of_start (bucket : Int) (t : TickEvent) :
    ((Candle.start bucket t.exchange t.price).take t.price t.quantity).toOhlcv.Of [t] where
  open_ := rfl
  high := by simp [Candle.start, Candle.take, IsGreatest, upperBounds]
  low := by simp [Candle.start, Candle.take, IsLeast, lowerBounds]
  close := rfl
  volume := by simp [Candle.start, Candle.take]

theorem Ohlcv.Of.take {c : Candle} {ticks : List TickEvent} (h : c.toOhlcv.Of ticks) (t : TickEvent) :
    (c.take t.price t.quantity).toOhlcv.Of (ticks ++ [t]) := by
  have hset : {p | ∃ u ∈ ticks ++ [t], u.price = p} = insert t.price {p | ∃ u ∈ ticks, u.price = p} := by
    ext p
    simp only [List.mem_append, List.mem_singleton, or_and_right, exists_or, exists_eq_left, Set.mem_ofPred_eq,
      Set.mem_insert_iff, eq_comm (a := p)]
    exact or_comm
  constructor
  · rw [List.head?_append]
    obtain ⟨u, hu, hp⟩ := Option.map_eq_some_iff.mp h.open_
    rw [hu]
    exact congrArg some hp
  · rw [hset]
    simpa [Candle.take, max_comm] using h.high.insert t.price
  · rw [hset]
    simpa [Candle.take, min_comm] using h.low.insert t.price
  · simp [Candle.take]
  · simp [Candle.take, h.volume]

theorem Candle.gather_concat (bucket : Int) (first : TickEvent) (rest : List TickEvent) (t : TickEvent) :
    Candle.gather bucket first (rest ++ [t]) = (Candle.gather bucket first rest).take t.price t.quantity := by
  rw [Candle.gather, List.foldl_append]
  rfl

theorem Candle.gather_of (bucket : Int) (first : TickEvent) (rest : List TickEvent) :
    (Candle.gather bucket first rest).toOhlcv.Of (first :: rest) := by
  induction rest using List.reverseRecOn with
  | nil => exact Ohlcv.of_start _ _
  | append_singleton rest t ih =>
    rw [Candle.gather_concat, ← List.cons_append]
    exact ih.take t

@[simp] theorem Candle.gather_bucket (bucket : Int) (first : TickEvent) (rest : List TickEvent) :
    (Candle.gather bucket first rest).bucket = bucket := by
  induction rest using List.reverseRecOn with
  | nil => rfl
  | append_singleton rest t ih =>
    rw [Candle.gather_concat]
    exact ih

@[simp] theorem Candle.gather_exchange (bucket : Int) (first : TickEvent) (rest : List TickEvent) :
    (Candle.gather bucket first rest).exchange = first.exchange := by
  induction rest using List.reverseRecOn with
  | nil => rfl
  | append_singleton rest t ih =>
    rw [Candle.gather_concat]
    exact ih

/-- Ticks have one candle. -/
theorem Ohlcv.Of.unique {c c' : Ohlcv} {ticks : List TickEvent} (h : c.Of ticks) (h' : c'.Of ticks) : c = c' := by
  obtain ⟨o, hi, lo, cl, v⟩ := c
  obtain ⟨o', hi', lo', cl', v'⟩ := c'
  have h1 := Option.some.inj (h.open_.symm.trans h'.open_)
  have h2 := h.high.unique h'.high
  have h3 := h.low.unique h'.low
  have h4 := Option.some.inj (h.close.symm.trans h'.close)
  have h5 := h.volume.trans h'.volume.symm
  simp only at h1 h2 h3 h4 h5
  rw [h1, h2, h3, h4, h5]

end Gather

namespace CandleEngine

def init (timeframe : String) (maxCandles : Nat) (mode : Mode) : Except UnsupportedTimeframe CandleEngine := do
  return { timeframe, seconds := ← timeframeSeconds timeframe, maxCandles, mode }

theorem init_eq_ok {timeframe : String} {maxCandles : Nat} {mode : Mode} {e : CandleEngine}
    (h : init timeframe maxCandles mode = .ok e) :
    ∃ seconds, timeframeSeconds timeframe = .ok seconds ∧ e = { timeframe, seconds, maxCandles, mode } := by
  rw [init] at h
  cases hs : timeframeSeconds timeframe with
  | error err => rw [hs] at h; cases h
  | ok seconds =>
    rw [hs] at h
    cases h
    exact ⟨seconds, rfl, rfl⟩

def bucket (e : CandleEngine) (ts : Timestamp) : Int := ts.epoch - ts.epoch % e.seconds

def closing (e : CandleEngine) (symbol : String) (c : Candle) : CandleClosedEvent :=
  { c.toOhlcv with symbol, exchange := c.exchange, timeframe := e.timeframe, ts := c.bucket + e.seconds }

def close (symbol : String) (c : Candle) (e : CandleEngine) : CandleEngine :=
  let buf := e.closed.getD symbol [] ++ [e.closing symbol c]
  { e with
    closed := e.closed.set symbol (if e.maxCandles < buf.length then buf.drop (buf.length - e.maxCandles) else buf)
    published := e.published ++ [e.closing symbol c] }

def ingest (symbol exchange : String) (price : Rat) (ts : Timestamp) (volume : Int) (e : CandleEngine) : CandleEngine :=
  let bucket := e.bucket ts
  let fresh := (Candle.start bucket exchange price).take price volume
  match e.opened.get symbol with
  | none => { e with opened := e.opened.set symbol fresh }
  | some c =>
    -- a late tick must not close the candle and fork the series
    if bucket < c.bucket then { e with lateTicks := e.lateTicks + 1 }
    else if c.bucket = bucket then { e with opened := e.opened.set symbol (c.take price volume) }
    else
      let e := e.close symbol c
      { e with opened := e.opened.set symbol fresh }

def ingestBar (symbol exchange : String) (bar : Ohlcv) (ts : Timestamp) (e : CandleEngine) : CandleEngine :=
  let bucket := e.bucket ts
  let e := match e.opened.get symbol with
    | none => e
    | some c => if c.bucket = bucket then e else e.close symbol c
  -- a candle of the bucket keeps its exchange
  let exchange := match e.opened.get symbol with
    | none => exchange
    | some c => if c.bucket = bucket then c.exchange else exchange
  { e with
    opened := e.opened.set symbol { bar with bucket, exchange }
    barSeeded := e.barSeeded.set symbol bucket }

def onTick (t : TickEvent) (e : CandleEngine) : CandleEngine :=
  if e.mode = .backtest ∧ e.barSeeded.get t.symbol = some (e.bucket t.ts) then e
  else e.ingest t.symbol t.exchange t.price t.ts t.quantity

/-- Live and replay quotes carry the OHLCV of the day, not a bar. -/
def onQuote (q : QuoteEvent) (e : CandleEngine) : CandleEngine :=
  if e.mode = .backtest then
    e.ingestBar q.symbol q.exchange ⟨q.open_, q.high, q.low, q.ltp, q.volume⟩ q.ts
  else e

def flushSymbol (e : CandleEngine) (symbol : String) : CandleEngine :=
  match e.opened.get symbol with
  | none => e
  | some c => { e with opened := e.opened.pop symbol }.close symbol c

def flush (symbol : Option String) (e : CandleEngine) : CandleEngine :=
  (match symbol with | none => e.opened.keys | some s => [s]).foldl flushSymbol e

inductive Act where
  | tick (t : TickEvent)
  | quote (q : QuoteEvent)
  | flush (symbol : Option String)
  deriving DecidableEq, Repr

def step (e : CandleEngine) : Act → CandleEngine
  | .tick t => e.onTick t
  | .quote q => e.onQuote q
  | .flush symbol => e.flush symbol

def run (e : CandleEngine) (acts : List Act) : CandleEngine := acts.foldl step e

@[simp] theorem run_nil (e : CandleEngine) : e.run [] = e := rfl

@[simp] theorem run_concat (e : CandleEngine) (acts : List Act) (a : Act) :
    e.run (acts ++ [a]) = (e.run acts).step a := by
  simp [run]

theorem run_append (e : CandleEngine) (acts acts' : List Act) : e.run (acts ++ acts') = (e.run acts).run acts' := by
  simp [run]

/-- What no act changes. -/
def SameSetup (e e' : CandleEngine) : Prop :=
  e'.timeframe = e.timeframe ∧ e'.seconds = e.seconds ∧ e'.mode = e.mode

theorem SameSetup.rfl {e : CandleEngine} : SameSetup e e := ⟨Eq.refl _, Eq.refl _, Eq.refl _⟩

theorem SameSetup.trans {e e' e'' : CandleEngine} (h : SameSetup e e') (h' : SameSetup e' e'') : SameSetup e e'' :=
  ⟨h'.1.trans h.1, h'.2.1.trans h.2.1, h'.2.2.trans h.2.2⟩

theorem SameSetup.bucket {e e' : CandleEngine} (h : SameSetup e e') : e'.bucket = e.bucket := by
  funext ts
  rw [CandleEngine.bucket, CandleEngine.bucket, h.2.1]

theorem SameSetup.closing {e e' : CandleEngine} (h : SameSetup e e') : e'.closing = e.closing := by
  funext symbol c
  rw [CandleEngine.closing, CandleEngine.closing, h.1, h.2.1]

end CandleEngine
end NTrade.Engines
