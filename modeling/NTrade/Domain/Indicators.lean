import NTrade.Engines.CandleEngine
import NTrade.Lib.Causal
import NTrade.Lib.Smoothing
import Mathlib.Algebra.Order.Ring.Rat

/-! The columns that indicators, strategies and overlays read from a frame of bars, in exact arithmetic. A value that
is not a number is `none`. -/
namespace NTrade.Domain
open NTrade.Engines NTrade.Lib NTrade.Lib.Smoothing

section Series

/-- `rolling(window, min_periods=window)` with an aggregate. -/
def rolling (window : Nat) (agg : List Rat → Rat) : List Rat → List (Option Rat) :=
  prefixwise fun xs => if window = 0 ∨ xs.length < window then none else some (agg (xs.drop (xs.length - window)))

def mean (xs : List Rat) : Rat := xs.sum / xs.length

def highest (xs : List Rat) : Rat := xs.tail.foldl max (xs.headD 0)

def lowest (xs : List Rat) : Rat := xs.tail.foldl min (xs.headD 0)

/-- `ewm(alpha=1/period, min_periods=period).mean()`: the weights fall by the same factor back in time. -/
def ewmMean (period : Nat) : List Rat → List (Option Rat) :=
  prefixwise fun xs =>
    if xs.length < max period 1 then none
    else
      let weights := (List.range xs.length).map fun i => (1 - 1 / (period : Rat)) ^ i
      some ((List.zipWith (· * ·) xs.reverse weights).sum / weights.sum)

def trueRange : List Ohlcv → List Rat :=
  mapPrev (fun before bar =>
    match before with
    | none => bar.high - bar.low
    | some before => max (max (bar.high - bar.low) |bar.high - before.close|) |bar.low - before.close|) none

def atr (period : Nat) (df : List Ohlcv) : List (Option Rat) := ewmMean period (trueRange df)

end Series

section Averages

structure FrameBar where
  high : Rat
  low : Rat
  close : Rat
  volume : Rat
  deriving DecidableEq, Repr

/-- `ema`: `ewm(span=period, min_periods=period).mean()` of the closes. -/
def ema (period : Nat) (df : List FrameBar) : List (Option Rat) :=
  prefixwise (fun xs => if xs.length < max period 1 then none
    else some (weightedMean (1 - 2 / ((period : Rat) + 1)) xs)) (df.map FrameBar.close)

def FrameBar.typical (bar : FrameBar) : Rat := (bar.high + bar.low + bar.close) / 3

def totalVolume (bars : List FrameBar) : Rat := (bars.map FrameBar.volume).sum

def vwapOf (bars : List FrameBar) : Option Rat :=
  if totalVolume bars = 0 then none else some ((bars.map fun bar => bar.typical * bar.volume).sum / totalVolume bars)

def vwap (df : List FrameBar) : List (Option Rat) := prefixwise vwapOf df

end Averages

end NTrade.Domain
