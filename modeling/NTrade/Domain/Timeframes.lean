import Mathlib.Data.List.Sort
import Mathlib.Data.String.Basic

/-! The timeframes of candles, and how long they are. -/
namespace NTrade.Domain

def DEFAULT_TIMEFRAME : String := "1m"

/-- A day in either casing: the wire has "1D". -/
def TIMEFRAME_SECONDS : List (String × Nat) :=
  [("1s", 1), ("5s", 5), ("1m", 60), ("5m", 300), ("15m", 900), ("1h", 3600), ("1d", 86400), ("1D", 86400)]

/-- "Unsupported timeframe ...; expected one of ...". -/
structure UnsupportedTimeframe where
  timeframe : String
  expected : List String
  deriving DecidableEq, Repr

def timeframeSeconds (timeframe : String) : Except UnsupportedTimeframe Nat :=
  match TIMEFRAME_SECONDS.lookup timeframe with
  | some seconds => .ok seconds
  | none =>
    match TIMEFRAME_SECONDS.lookup timeframe.toLower with
    | some seconds => .ok seconds
    | none => .error ⟨timeframe, (TIMEFRAME_SECONDS.map Prod.fst).insertionSort (· ≤ ·)⟩

section Intervals

def WIRE_INTERVALS : List String := ["1m", "5m", "15m", "1h", "1D"]

/-- The minutes of a bar: a daily one is a session of the NSE. -/
def BAR_MINUTES : List (String × Nat) := [("1m", 1), ("5m", 5), ("15m", 15), ("1h", 60), ("1D", 375)]

/-- The minutes a bar spans: a daily one a whole day. -/
def SPAN_MINUTES : List (String × Nat) := [("1m", 1), ("5m", 5), ("15m", 15), ("1h", 60), ("1D", 1440)]

/-- "Unsupported interval ...; expected one of ...". -/
structure UnsupportedInterval where
  interval : String
  expected : List String
  deriving DecidableEq, Repr

def normalizeInterval (interval : String) : Except UnsupportedInterval String :=
  if interval.toLower = "1d" then .ok "1D"
  else if interval ∈ BAR_MINUTES.map Prod.fst ∧ interval ≠ "1D" then .ok interval
  else if interval.toLower ∈ ["1m", "5m", "15m", "1h"] then .ok interval.toLower
  else .error ⟨interval, WIRE_INTERVALS⟩

def intervalBarMinutes (interval : String) : Except UnsupportedInterval Nat :=
  (normalizeInterval interval).map fun key => (BAR_MINUTES.lookup key).getD 0

def intervalSpanMinutes (interval : String) : Except UnsupportedInterval Nat :=
  (normalizeInterval interval).map fun key => (SPAN_MINUTES.lookup key).getD 0

def tableOf (minutes : String → Except UnsupportedInterval Nat) : List (String × Nat) :=
  WIRE_INTERVALS.filterMap fun interval => (minutes interval).toOption.map fun n => (interval, n)

theorem tableOf_bar : tableOf intervalBarMinutes = BAR_MINUTES := by decide +kernel

theorem tableOf_span : tableOf intervalSpanMinutes = SPAN_MINUTES := by decide +kernel

end Intervals

end NTrade.Domain
