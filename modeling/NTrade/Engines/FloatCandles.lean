import NTrade.Engines.TickConservation
import NTrade.Lib.Unordered

/-! The candle engine over floats, of which one is not a number. Where every price is a number it computes the candles
of the engine over exact prices; fed with prices above a bound, it closes candles whose prices are in order above it. -/
namespace NTrade.Engines
open NTrade.Domain NTrade.Lib Unordered

structure FloatTick (α : Type) where
  symbol : String
  exchange : String
  price : Option α
  quantity : Int := 0
  ts : Timestamp
  deriving DecidableEq

structure FloatOhlcv (α : Type) where
  open_ : Option α
  high : Option α
  low : Option α
  close : Option α
  volume : Int
  deriving DecidableEq

structure FloatCandle (α : Type) extends FloatOhlcv α where
  bucket : Int
  exchange : String
  deriving DecidableEq

structure FloatClosed (α : Type) extends FloatOhlcv α where
  symbol : String
  exchange : String
  timeframe : String
  ts : Int
  deriving DecidableEq

/-- The engine in live and replay mode, in which quotes do not reach the candles. -/
structure FloatEngine (α : Type) where
  timeframe : String
  seconds : Nat
  opened : Dict String (FloatCandle α) := Dict.empty
  lateTicks : Nat := 0
  published : List (FloatClosed α) := []

section Model
variable {α : Type}

def FloatCandle.start (bucket : Int) (exchange : String) (price : Option α) : FloatCandle α where
  bucket := bucket
  exchange := exchange
  open_ := price
  high := price
  low := price
  close := price
  volume := 0

def FloatCandle.take [LinearOrder α] (price : Option α) (volume : Int) (c : FloatCandle α) : FloatCandle α :=
  { c with high := larger c.high price, low := smaller c.low price, close := price, volume := c.volume + volume }

namespace FloatEngine

def bucket (e : FloatEngine α) (ts : Timestamp) : Int := ts.epoch - ts.epoch % e.seconds

def closing (e : FloatEngine α) (symbol : String) (c : FloatCandle α) : FloatClosed α :=
  { c.toFloatOhlcv with symbol, exchange := c.exchange, timeframe := e.timeframe, ts := c.bucket + e.seconds }

def close (symbol : String) (c : FloatCandle α) (e : FloatEngine α) : FloatEngine α :=
  { e with published := e.published ++ [e.closing symbol c] }

def onTick [LinearOrder α] (t : FloatTick α) (e : FloatEngine α) : FloatEngine α :=
  let bucket := e.bucket t.ts
  let fresh := (FloatCandle.start bucket t.exchange t.price).take t.price t.quantity
  match e.opened.get t.symbol with
  | none => { e with opened := e.opened.set t.symbol fresh }
  | some c =>
    if bucket < c.bucket then { e with lateTicks := e.lateTicks + 1 }
    else if c.bucket = bucket then { e with opened := e.opened.set t.symbol (c.take t.price t.quantity) }
    else
      let e := e.close t.symbol c
      { e with opened := e.opened.set t.symbol fresh }

def flushSymbol (e : FloatEngine α) (symbol : String) : FloatEngine α :=
  match e.opened.get symbol with
  | none => e
  | some c => { e with opened := e.opened.pop symbol }.close symbol c

def flush (symbol : Option String) (e : FloatEngine α) : FloatEngine α :=
  (match symbol with | none => e.opened.keys | some s => [s]).foldl flushSymbol e

end FloatEngine
end Model

section Sound
variable {α : Type} [LinearOrder α] {bound : α}

/-- Prices in order, above the bound, and no negative volume. -/
structure FloatOhlcv.Sound (bound : α) (c : FloatOhlcv α) : Prop where
  low_gt : Lt (some bound) c.low
  low_le_open : Le c.low c.open_
  low_le_close : Le c.low c.close
  open_le_high : Le c.open_ c.high
  close_le_high : Le c.close c.high
  volume : 0 ≤ c.volume

private theorem exists_prices {c : FloatOhlcv α} (h : c.Sound bound) :
    ∃ o hi lo cl, c.open_ = some o ∧ c.high = some hi ∧ c.low = some lo ∧ c.close = some cl ∧
      bound < lo ∧ lo ≤ o ∧ lo ≤ cl ∧ o ≤ hi ∧ cl ≤ hi := by
  obtain ⟨hlow, hlo, hlc, hoh, hch, -⟩ := h
  obtain ⟨_, lo, hb, el, h1⟩ := lt_iff.mp hlow
  obtain rfl := Option.some.inj hb
  rw [el] at hlo hlc
  obtain ⟨_, o, hb, eo, h2⟩ := le_iff.mp hlo
  obtain rfl := Option.some.inj hb
  obtain ⟨_, cl, hb, ec, h3⟩ := le_iff.mp hlc
  obtain rfl := Option.some.inj hb
  rw [eo] at hoh
  rw [ec] at hch
  obtain ⟨_, hi, hb, eh, h4⟩ := le_iff.mp hoh
  obtain rfl := Option.some.inj hb
  rw [eh] at hch
  exact ⟨o, hi, lo, cl, eo, eh, el, ec, h1, h2, h3, h4, hch⟩

theorem sound_start {price : Option α} {volume : Int} (hp : Lt (some bound) price) (hv : 0 ≤ volume) (bucket : Int)
    (exchange : String) : ((FloatCandle.start bucket exchange price).take price volume).Sound bound := by
  obtain ⟨_, p, hb, rfl, h⟩ := lt_iff.mp hp
  obtain rfl := Option.some.inj hb
  constructor <;> simp [FloatCandle.start, FloatCandle.take, Lt, Le, h, hv]

theorem sound_take {c : FloatCandle α} {price : Option α} {volume : Int} (hc : c.Sound bound)
    (hp : Lt (some bound) price) (hv : 0 ≤ volume) : (c.take price volume).Sound bound := by
  obtain ⟨o, hi, lo, cl, eo, eh, el, ec, h1, h2, h3, h4, h5⟩ := exists_prices hc
  obtain ⟨_, p, hb, rfl, h⟩ := lt_iff.mp hp
  obtain rfl := Option.some.inj hb
  constructor
  · simp [FloatCandle.take, el, Lt, h1, h]
  · simp [FloatCandle.take, el, eo, Le, h2]
  · simp [FloatCandle.take, el, Le]
  · simp [FloatCandle.take, eh, eo, Le, h4]
  · simp [FloatCandle.take, eh, Le]
  · exact add_nonneg hc.volume hv

namespace FloatEngine
variable {e : FloatEngine α}

structure Sound (bound : α) (e : FloatEngine α) : Prop where
  opened : ∀ symbol c, e.opened.get symbol = some c → c.Sound bound
  published : ∀ c ∈ e.published, c.Sound bound

private theorem sound_set (h : e.Sound bound) {c : FloatCandle α} (hc : c.Sound bound) (symbol : String) :
    Sound bound { e with opened := e.opened.set symbol c } := by
  refine ⟨fun other o ho => ?_, h.published⟩
  dsimp only at ho
  rw [Dict.get_set] at ho
  split at ho
  · exact Option.some.inj ho ▸ hc
  · exact h.opened other o ho

private theorem sound_close (h : e.Sound bound) {c : FloatCandle α} (hc : c.Sound bound) (symbol : String) :
    Sound bound (e.close symbol c) := by
  refine ⟨h.opened, fun closed hclosed => ?_⟩
  rcases List.mem_append.mp hclosed with hold | hnew
  · exact h.published closed hold
  · rw [List.mem_singleton.mp hnew]
    exact hc

/-- A tick above the bound keeps the candles sound. -/
theorem sound_onTick (h : e.Sound bound) {t : FloatTick α} (hp : Lt (some bound) t.price) (hv : 0 ≤ t.quantity) :
    Sound bound (e.onTick t) := by
  have hfresh := sound_start hp hv (e.bucket t.ts) t.exchange
  rw [onTick]
  cases ho : e.opened.get t.symbol with
  | none => exact sound_set h hfresh t.symbol
  | some c =>
    have hc := h.opened t.symbol c ho
    dsimp only
    split_ifs
    · exact ⟨h.opened, h.published⟩
    · exact sound_set h (sound_take hc hp hv) t.symbol
    · exact sound_set (sound_close h hc t.symbol) hfresh t.symbol

private theorem sound_flushSymbol (h : e.Sound bound) (symbol : String) : Sound bound (e.flushSymbol symbol) := by
  rw [flushSymbol]
  cases ho : e.opened.get symbol with
  | none => exact h
  | some c =>
    apply sound_close _ (h.opened symbol c ho)
    refine ⟨fun other o hother => ?_, h.published⟩
    rw [Dict.get_pop] at hother
    split at hother
    · cases hother
    · exact h.opened other o hother

theorem sound_flush (h : e.Sound bound) (symbol : Option String) : Sound bound (e.flush symbol) := by
  have hfold (symbols : List String) : ∀ {e : FloatEngine α}, e.Sound bound → Sound bound (symbols.foldl flushSymbol e) := by
    induction symbols with
    | nil => exact id
    | cons symbol symbols ih => exact fun h => ih (sound_flushSymbol h symbol)
  exact hfold _ h

end FloatEngine
end Sound

section Exact
variable {α : Type} {number : Rat → α}

def FloatOhlcv.of (number : Rat → α) (c : Ohlcv) : FloatOhlcv α where
  open_ := some (number c.open_)
  high := some (number c.high)
  low := some (number c.low)
  close := some (number c.close)
  volume := c.volume

def FloatCandle.of (number : Rat → α) (c : Candle) : FloatCandle α :=
  { FloatOhlcv.of number c.toOhlcv with bucket := c.bucket, exchange := c.exchange }

def FloatClosed.of (number : Rat → α) (c : CandleClosedEvent) : FloatClosed α :=
  { FloatOhlcv.of number c.toOhlcv with
    symbol := c.symbol, exchange := c.exchange, timeframe := c.timeframe, ts := c.ts }

def FloatTick.of (number : Rat → α) (t : TickEvent) : FloatTick α where
  symbol := t.symbol
  exchange := t.exchange
  price := some (number t.price)
  quantity := t.quantity
  ts := t.ts

namespace FloatEngine

structure Mirrors (number : Rat → α) (s : FloatEngine α) (e : CandleEngine) : Prop where
  mode : e.mode ≠ .backtest
  timeframe : s.timeframe = e.timeframe
  seconds : s.seconds = e.seconds
  opened : s.opened = e.opened.map (FloatCandle.of number)
  lateTicks : s.lateTicks = e.lateTicks
  published : s.published = e.published.map (FloatClosed.of number)

variable {s : FloatEngine α} {e : CandleEngine}

private theorem of_start (bucket : Int) (exchange : String) (price : Rat) :
    FloatCandle.of number (Candle.start bucket exchange price) =
      FloatCandle.start bucket exchange (some (number price)) := rfl

private theorem of_take [LinearOrder α] (hn : StrictMono number) (price : Rat) (volume : Int) (c : Candle) :
    FloatCandle.of number (c.take price volume) = (FloatCandle.of number c).take (some (number price)) volume := by
  simp [FloatCandle.of, FloatOhlcv.of, FloatCandle.take, Candle.take, hn.monotone.map_max, hn.monotone.map_min]

private theorem mirrors_close (h : Mirrors number s e) (symbol : String) (c : Candle) :
    Mirrors number (s.close symbol (FloatCandle.of number c)) (e.close symbol c) := by
  have hclosing : s.closing symbol (FloatCandle.of number c) = FloatClosed.of number (e.closing symbol c) := by
    simp [closing, CandleEngine.closing, FloatClosed.of, FloatCandle.of, h.timeframe, h.seconds]
  refine ⟨h.mode, h.timeframe, h.seconds, h.opened, h.lateTicks, ?_⟩
  rw [close, CandleEngine.close, hclosing, h.published]
  dsimp only
  rw [List.map_append]
  rfl

private theorem mirrors_set (h : Mirrors number s e) (symbol : String) (c : Candle) :
    Mirrors number { s with opened := s.opened.set symbol (FloatCandle.of number c) }
      { e with opened := e.opened.set symbol c } := by
  refine ⟨h.mode, h.timeframe, h.seconds, ?_, h.lateTicks, h.published⟩
  dsimp only
  rw [h.opened, Dict.map_set]

/-- Over prices that are numbers the two engines take a tick alike. -/
theorem mirrors_onTick [LinearOrder α] (hn : StrictMono number) (h : Mirrors number s e) (t : TickEvent) :
    Mirrors number (s.onTick (.of number t)) (e.onTick t) := by
  have hb : s.bucket t.ts = e.bucket t.ts := by rw [bucket, CandleEngine.bucket, h.seconds]
  have hfresh : FloatCandle.of number ((Candle.start (e.bucket t.ts) t.exchange t.price).take t.price t.quantity) =
      (FloatCandle.start (s.bucket t.ts) t.exchange (some (number t.price))).take (some (number t.price)) t.quantity := by
    rw [of_take hn, of_start, hb]
  have hg : s.opened.get t.symbol = (e.opened.get t.symbol).map (FloatCandle.of number) := by rw [h.opened, Dict.get_map]
  rw [CandleEngine.onTick, if_neg fun hb => h.mode hb.1, CandleEngine.ingest, onTick]
  dsimp only [FloatTick.of]
  rw [hg, ← hfresh]
  cases e.opened.get t.symbol with
  | none => exact mirrors_set h t.symbol _
  | some c =>
    have hc : (FloatCandle.of number c).bucket = c.bucket := rfl
    simp only [Option.map_some, hb, hc, ← of_take hn]
    split_ifs
    · refine ⟨h.mode, h.timeframe, h.seconds, h.opened, ?_, h.published⟩
      exact congrArg (· + 1) h.lateTicks
    · exact mirrors_set h t.symbol _
    · exact mirrors_set (mirrors_close h t.symbol c) t.symbol _

private theorem mirrors_flushSymbol (h : Mirrors number s e) (symbol : String) :
    Mirrors number (s.flushSymbol symbol) (e.flushSymbol symbol) := by
  have hg : s.opened.get symbol = (e.opened.get symbol).map (FloatCandle.of number) := by rw [h.opened, Dict.get_map]
  rw [flushSymbol, CandleEngine.flushSymbol, hg]
  cases e.opened.get symbol with
  | none => exact h
  | some c =>
    apply mirrors_close _ symbol c
    refine ⟨h.mode, h.timeframe, h.seconds, ?_, h.lateTicks, h.published⟩
    dsimp only
    rw [h.opened, Dict.map_pop]

theorem mirrors_flush (h : Mirrors number s e) (symbol : Option String) :
    Mirrors number (s.flush symbol) (e.flush symbol) := by
  have hfold (symbols : List String) : ∀ {s : FloatEngine α} {e : CandleEngine}, Mirrors number s e →
      Mirrors number (symbols.foldl flushSymbol s) (symbols.foldl CandleEngine.flushSymbol e) := by
    induction symbols with
    | nil => exact id
    | cons symbol symbols ih => exact fun h => ih (mirrors_flushSymbol h symbol)
  have hkeys : s.opened.keys = e.opened.keys := by rw [h.opened, Dict.keys_map]
  cases symbol with
  | none =>
    rw [flush, CandleEngine.flush, hkeys]
    exact hfold _ h
  | some symbol => exact hfold [symbol] h

/-- Ticks whose prices are numbers give the candles of the exact engine. -/
theorem mirrors_run [LinearOrder α] (hn : StrictMono number) (h : Mirrors number s e) (ticks : List TickEvent) :
    Mirrors number ((ticks.map (.of number)).foldl (fun s t => s.onTick t) s) (e.run (ticks.map .tick)) := by
  induction ticks using List.reverseRecOn with
  | nil => exact h
  | append_singleton ticks t ih =>
    rw [List.map_append, List.map_append, List.map_singleton, List.map_singleton, List.foldl_concat,
      CandleEngine.run_concat]
    exact mirrors_onTick hn ih t

end FloatEngine
end Exact
end NTrade.Engines
