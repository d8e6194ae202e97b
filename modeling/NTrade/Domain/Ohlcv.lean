import NTrade.Domain.MarketHours
import NTrade.Lib.Grouping
import Mathlib.Algebra.Order.Ring.Rat
import Mathlib.Order.Defs.LinearOrder

/-! Bars of a higher timeframe from bars of a lower one: the bins of a rule, closed at the left edge and labelled at
the right one, for each calendar day or for the whole frame. -/
namespace NTrade.Domain.Ohlcv
open NTrade.Lib NTrade.Lib.Grouping NTrade.Lib.LastWrite

structure BarValues where
  open_ : Option Rat := none
  high : Option Rat := none
  low : Option Rat := none
  close : Option Rat := none
  volume : Option Rat := none
  oi : Option Rat := none
  deriving DecidableEq, Repr

/-- A row of a frame; a timestamp that cannot be read is `none`, and an offset is stripped from the others. -/
structure BarRow extends BarValues where
  timestamp : Option Int
  deriving DecidableEq, Repr

structure BarFrame where
  /-- Whether there is a column of open interest. -/
  hasOi : Bool := false
  rows : List BarRow
  deriving DecidableEq, Repr

/-- The edges of bins: that of a time goes from the one up to the other. -/
structure Edges where
  left : Int → Int
  right : Int → Int
  left_le : ∀ t, left t ≤ t
  lt_right : ∀ t, t < right t
  same : ∀ t u, left t ≤ u → u < right t → right u = right t

/-- The edges at every multiple of a length from an origin. -/
def Edges.every (micros : Int) (pos : 0 < micros) (origin : Int) : Edges where
  left t := origin + (t - origin) / micros * micros
  right t := origin + (t - origin) / micros * micros + micros
  left_le t := by
    have := Int.ediv_mul_le (t - origin) pos.ne'
    omega
  lt_right t := by
    have := Int.lt_ediv_add_one_mul_self (t - origin) pos
    rw [Int.add_mul] at this
    omega
  same t u hle hlt := by
    have hdiv : (u - origin) / micros = (t - origin) / micros := by
      rw [Int.ediv_eq_iff_of_pos pos]
      constructor <;> omega
    rw [hdiv]

/-- A rule is a length of time, or steps of the calendar that have no origin. -/
inductive Rule where
  | every (micros : Int) (pos : 0 < micros)
  | calendar (edges : Edges)

def Rule.edges : Rule → Int → Edges
  | .every micros pos, origin => .every micros pos origin
  | .calendar edges, _ => edges

def dayOf (t : Int) : Int := t / DAY

/-- An origin of a day, `HH:MM`. -/
structure Origin where
  h : Int := 9
  m : Int := 15

def dayOrigin (day : Int) (origin : Origin) : Int := day * DAY + (origin.h * 3600 + origin.m * 60) * MICROS

section Aggregation

def first (xs : List (Option Rat)) : Option Rat := combine (fun a _ => a) xs

def last (xs : List (Option Rat)) : Option Rat := combine (fun _ b => b) xs

def highest (xs : List (Option Rat)) : Option Rat := combine max xs

def lowest (xs : List (Option Rat)) : Option Rat := combine min xs

def total (xs : List (Option Rat)) : Rat := (xs.map fun x => x.getD 0).sum

/-- `RESAMPLE_AGG`, and the open interest if there is any. -/
def aggregate (hasOi : Bool) (rows : List BarValues) : BarValues where
  open_ := first (rows.map (·.open_))
  high := highest (rows.map (·.high))
  low := lowest (rows.map (·.low))
  close := last (rows.map (·.close))
  volume := some (total (rows.map (·.volume)))
  oi := if hasOi then some (total (rows.map (·.oi))) else none

end Aggregation

def BarFrame.indexed (df : BarFrame) : List (Int × BarValues) :=
  df.rows.filterMap fun r => r.timestamp.map fun t => (t, r.toBarValues)

def bins (edges : Edges) (indexed : List (Int × BarValues)) : List (Int × List (Int × BarValues)) :=
  groups (fun r => edges.right r.1) (sortBy Prod.fst indexed)

/-- The bars of the bins, without those that have no open. -/
def resampleBins (edges : Edges) (hasOi : Bool) (indexed : List (Int × BarValues)) : List (Int × BarValues) :=
  ((bins edges indexed).map fun bin => (bin.1, aggregate hasOi (bin.2.map Prod.snd))).filter fun bar => bar.2.open_.isSome

def startDay (indexed : List (Int × BarValues)) : Int := dayOf ((indexed.map Prod.fst).min?.getD 0) * DAY

def days (indexed : List (Int × BarValues)) : List Int := sortBy id (uniques (indexed.map fun r => dayOf r.1))

def resample (df : BarFrame) (rule : Rule) (origin : Origin := {}) (dayGroup : Bool := true) : BarFrame :=
  let indexed := df.indexed
  let bars :=
    if dayGroup then (days indexed).flatMap fun day =>
      resampleBins (rule.edges (dayOrigin day origin)) df.hasOi (indexed.filter fun r => dayOf r.1 = day)
    else resampleBins (rule.edges (startDay indexed)) df.hasOi indexed
  { df with rows := bars.map fun bar => { bar.2 with timestamp := some bar.1 } }

end NTrade.Domain.Ohlcv
