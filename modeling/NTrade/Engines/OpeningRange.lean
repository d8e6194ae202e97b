import NTrade.Domain.Indicators
import NTrade.Domain.Order
import NTrade.Engines.HalfTrendStrategy
import NTrade.Lib.Literal

/-! The opening range breakout: a strategy that trades the break of the first minutes' range, once the volume
and the averages confirm it. -/
namespace NTrade.Engines
open NTrade.Domain NTrade.Lib

def istSeconds (ts : Int) : Int := ts + IST

/-- `_minute_of_day` of `_ist_dt`. -/
def minuteOfDay (ts : Int) : Int := istSeconds ts % 86400 / 60

def dayKeyOf (ts : Int) : Int := istSeconds ts / 86400

/-- `_hhmm_minutes`, where the text is a time. -/
def hhmmMinutes (value : String) : Option Int :=
  match value.toList.span (· ≠ ':') with
  | (_, []) => none
  | (h, _ :: m) => do return (← Literal.int (String.ofList h)) * 60 + (← Literal.int (String.ofList m))

structure OrbConfig where
  symbol : Option String := none
  exchange : String := "NFO"
  timeframe : String := "1m"
  riskPerTradePct : Rat := 1
  lotSize : Int := 1
  sessionStartMin : Int := 555
  orbEndMin : Int := 570
  entryEndMin : Int := 630
  emaFast : Nat := 9
  emaSlow : Nat := 21
  volumeMult : Rat := 3 / 2
  targetRr : Rat := 2
  slBuffer : Rat := 0
  maxTradesPerDay : Nat := 2
  lot_pos : 1 ≤ lotSize := by decide
  trades_pos : 1 ≤ maxTradesPerDay := by decide

/-- `__init__`: what is given, brought into its bounds. -/
def OrbConfig.init (symbol : Option String) (exchange timeframe : String) (riskPerTradePct : Rat) (lotSize : Int)
    (sessionStart orbEnd entryEnd : String) (emaFast emaSlow : Int) (volumeMult targetRr slBuffer : Rat)
    (maxTradesPerDay : Int) : Option OrbConfig := do
  return {
    symbol, exchange, timeframe, riskPerTradePct
    lotSize := max 1 lotSize
    sessionStartMin := ← hhmmMinutes sessionStart
    orbEndMin := ← hhmmMinutes orbEnd
    entryEndMin := ← hhmmMinutes entryEnd
    emaFast := (max 2 emaFast).toNat
    emaSlow := (max 3 emaSlow).toNat
    volumeMult := max 1 volumeMult
    targetRr := max 1 targetRr
    slBuffer := max 0 slBuffer
    maxTradesPerDay := (max 1 maxTradesPerDay).toNat
    lot_pos := le_max_left 1 lotSize
    trades_pos := by omega }

structure OrbRow extends Ohlcv where
  ts : Int
  deriving DecidableEq, Repr

structure ActiveTrade where
  side : SignalSide
  entry : Rat
  sl : Rat
  tp : Rat
  qty : Int
  high : Rat
  low : Rat
  deriving DecidableEq, Repr

inductive OrbDetail where
  | entry (sl tp orbHigh orbLow : Rat)
  | exit (reason : String)
  deriving DecidableEq, Repr

structure OrbSignal where
  symbol : Option String
  exchange : String
  side : SignalSide
  quantity : Int
  price : Rat
  referencePrice : Rat
  strategy : String := "orb_vwap"
  detail : OrbDetail
  deriving DecidableEq, Repr

def OrbSignal.isEntry (signal : OrbSignal) : Bool :=
  match signal.detail with
  | .entry .. => true
  | .exit _ => false

structure OpeningRangeBreakout where
  rows : List OrbRow := []
  dayKey : Option Int := none
  orbHigh : Rat := 0
  orbLow : Rat := 0
  orbReady : Bool := false
  orbVolumeAvg : Rat := 0
  tradesToday : Nat := 0
  active : Option ActiveTrade := none
  /-- Counted by the engine that calls the strategy. -/
  errorCount : Nat := 0
  deriving DecidableEq, Repr

def SignalSide.opposite : SignalSide → SignalSide
  | .buy => .sell
  | .sell => .buy

/-- Shares bought count as they are, shares sold against them. -/
def SignalSide.signed (side : SignalSide) (qty : Int) : Int :=
  match side with
  | .buy => qty
  | .sell => -qty

def maxOf : List Rat → Rat
  | [] => 0
  | x :: xs => xs.foldl max x

def minOf : List Rat → Rat
  | [] => 0
  | x :: xs => xs.foldl min x

namespace OpeningRangeBreakout
variable (cfg : OrbConfig)

def takes (e : CandleClosedEvent) : Bool :=
  (cfg.symbol = none ∨ cfg.symbol = some e.symbol) ∧ e.timeframe = cfg.timeframe

def rowOf (e : CandleClosedEvent) : OrbRow := { e.toOhlcv with ts := e.ts }

/-- Session rollover: another day starts with nothing but its first candle. -/
def rollover (row : OrbRow) (s : OpeningRangeBreakout) : OpeningRangeBreakout :=
  if s.dayKey ≠ some (dayKeyOf row.ts) then
    { rows := [row], dayKey := some (dayKeyOf row.ts), errorCount := s.errorCount }
  else { s with rows := s.rows ++ [row] }

def window (rows : List OrbRow) : List OrbRow :=
  rows.filter fun r => cfg.sessionStartMin ≤ minuteOfDay r.ts ∧ minuteOfDay r.ts < cfg.orbEndMin

def buildRange (row : OrbRow) (s : OpeningRangeBreakout) : OpeningRangeBreakout :=
  if s.orbReady = false ∧ cfg.orbEndMin ≤ minuteOfDay row.ts then
    let window := window cfg s.rows
    if 2 ≤ window.length then
      { s with
        orbHigh := maxOf (window.map fun r => r.high)
        orbLow := minOf (window.map fun r => r.low)
        orbVolumeAvg := (window.map fun r => r.volume).sum / window.length
        orbReady := true }
    else s
  else s

/-- Where a candle stops a trade, if it does: the price, and the reason. -/
def stopOf (row : OrbRow) (t : ActiveTrade) : Option (Rat × String) :=
  match t.side with
  | .buy =>
    if row.low ≤ t.sl then some (t.sl, "stop_loss")
    else if t.tp ≤ row.high then some (t.tp, "target")
    else none
  | .sell =>
    if t.sl ≤ row.high then some (t.sl, "stop_loss")
    else if row.low ≤ t.tp then some (t.tp, "target")
    else none

def exitSignal (t : ActiveTrade) (price : Rat) (reason : String) : OrbSignal where
  symbol := cfg.symbol
  exchange := cfg.exchange
  side := t.side.opposite
  quantity := t.qty
  price := price
  referencePrice := price
  detail := .exit reason

/-- Manage active position: `_manage_exit`, and the count of trades. -/
def manageExit (row : OrbRow) (s : OpeningRangeBreakout) : OpeningRangeBreakout × Option OrbSignal :=
  match s.active with
  | none => (s, none)
  | some t =>
    match stopOf row t with
    | some (price, reason) =>
      ({ s with active := none, tradesToday := s.tradesToday + 1 }, some (exitSignal cfg t price reason))
    | none => ({ s with active := some { t with high := max t.high row.high, low := min t.low row.low } }, none)

def frameOf (rows : List OrbRow) : List FrameBar :=
  rows.map fun r => { high := r.high, low := r.low, close := r.close, volume := r.volume }

/-- The last value of an average, 0 where the frame is too short for it. -/
def lastEma (period : Nat) (frame : List FrameBar) : Rat :=
  if period ≤ frame.length then ((ema period frame).getLast?.join).getD 0 else 0

def breakout (row : OrbRow) (vwapVal emaF emaS : Rat) (s : OpeningRangeBreakout) : Option (SignalSide × Rat × Rat) :=
  let rangeWidth := s.orbHigh - s.orbLow
  if rangeWidth ≤ 0 then none
  else if s.orbHigh < row.close ∧ vwapVal < row.close ∧ emaS < emaF ∧ 0 < emaS then
    some (.buy, max vwapVal s.orbLow - cfg.slBuffer, row.close + rangeWidth * cfg.targetRr)
  else if row.close < s.orbLow ∧ row.close < vwapVal ∧ emaF < emaS ∧ 0 < emaS then
    some (.sell, min vwapVal s.orbHigh + cfg.slBuffer, row.close - rangeWidth * cfg.targetRr)
  else none

/-- `qty`, from the balance and the distance of the stop. -/
def quantityOf (balance perUnit : Rat) : Int :=
  let risk := balance * (cfg.riskPerTradePct / 100)
  max cfg.lotSize (toInt (some (risk / perUnit)) / cfg.lotSize * cfg.lotSize)

def enter (balance : Rat) (side : SignalSide) (entry sl tp : Rat) (s : OpeningRangeBreakout) :
    OpeningRangeBreakout × Option OrbSignal :=
  let perUnit := |entry - sl|
  if perUnit ≤ 0 then (s, none)
  else
    let qty := quantityOf cfg balance perUnit
    ({ s with active := some { side, entry, sl, tp, qty, high := entry, low := entry } },
      some { symbol := cfg.symbol, exchange := cfg.exchange, side, quantity := qty, price := entry,
             referencePrice := entry, detail := .entry sl tp s.orbHigh s.orbLow })

def looks (row : OrbRow) (s : OpeningRangeBreakout) : Bool :=
  s.active = none ∧ s.orbReady = true ∧ s.tradesToday < cfg.maxTradesPerDay ∧
    (cfg.orbEndMin ≤ minuteOfDay row.ts ∧ minuteOfDay row.ts < cfg.entryEndMin) ∧ s.orbLow < s.orbHigh ∧
    cfg.emaSlow ≤ s.rows.length ∧ ¬ (0 < s.orbVolumeAvg ∧ row.volume < s.orbVolumeAvg * cfg.volumeMult)

/-- Look for entries. `float` of a price that is not there raises. -/
def seekEntry (balance : Rat) (row : OrbRow) (s : OpeningRangeBreakout) : OpeningRangeBreakout × Option OrbSignal :=
  if looks cfg row s then
    let frame := frameOf s.rows
    match (vwap frame).getLast?.join with
    | none => ({ s with errorCount := s.errorCount + 1 }, none)
    | some vwapVal =>
      match breakout cfg row vwapVal (lastEma cfg.emaFast frame) (lastEma cfg.emaSlow frame) s with
      | none => (s, none)
      | some (side, sl, tp) => enter cfg balance side row.close sl tp s
  else (s, none)

/-- `on_candle_closed` up to the exit of the active trade. -/
def manage (row : OrbRow) (s : OpeningRangeBreakout) : OpeningRangeBreakout × Option OrbSignal :=
  manageExit cfg row (buildRange cfg row (rollover row s))

def onCandleClosed (e : CandleClosedEvent) (balance : Rat) (s : OpeningRangeBreakout) :
    OpeningRangeBreakout × List OrbSignal :=
  if takes cfg e then
    let (s, exit) := manage cfg (rowOf e) s
    let (s, entry) := seekEntry cfg balance (rowOf e) s
    (s, exit.toList ++ entry.toList)
  else (s, [])

end OpeningRangeBreakout
end NTrade.Engines
