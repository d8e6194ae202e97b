import Mathlib.Data.Int.Basic
import Mathlib.Algebra.Ring.Int.Defs

/-! Points in time, and the hours in which an exchange trades. -/
namespace NTrade.Domain

def MICROS : Int := 1000000

def IST : Int := 19800

/-- A `datetime`, in microseconds. A naive one is wall time in India. -/
inductive Timestamp where
  | aware (micros : Int)
  | naive (micros : Int)
  deriving DecidableEq, Repr

def Timestamp.micros : Timestamp → Int
  | .aware us => us
  | .naive us => us - IST * MICROS

/-- `int(ts.timestamp())`: whole seconds, cut towards zero. -/
def Timestamp.epoch (ts : Timestamp) : Int := ts.micros.tdiv MICROS

/-- `ts + timedelta(seconds=n)`. -/
def Timestamp.shift (n : Int) : Timestamp → Timestamp
  | .aware us => .aware (us + n * MICROS)
  | .naive us => .naive (us + n * MICROS)

theorem Timestamp.micros_shift (n : Int) (ts : Timestamp) : (ts.shift n).micros = ts.micros + n * MICROS := by
  cases ts with
  | aware us => rfl
  | naive us => rw [shift, micros, micros, add_sub_right_comm]

section Sessions

def timeOfDay (hour minute : Int) : Int := (hour * 60 + minute) * 60 * MICROS

def DAY : Int := 86400 * MICROS

def sessionOpen (exchange : String) : Int := if exchange.toUpper = "MCX" then timeOfDay 9 0 else timeOfDay 9 15

def sessionClose (exchange : String) : Int := if exchange.toUpper = "MCX" then timeOfDay 23 30 else timeOfDay 15 30

def inSession (exchange : String) (wall : Int) : Bool :=
  sessionOpen exchange ≤ wall % DAY ∧ wall % DAY < sessionClose exchange

/-- The day of the week of wall time; Monday is 0. -/
def weekday (wall : Int) : Int := (wall / DAY + 3) % 7

def isMarketOpen (exchange : String) (wall : Int) : Bool := weekday wall < 5 ∧ inSession exchange wall

def DAILY_TIMEFRAMES : List String := ["1d", "d", "day"]

end Sessions

end NTrade.Domain
