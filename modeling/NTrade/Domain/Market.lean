import NTrade.Lib.Deque
import Mathlib.Algebra.Order.Ring.Rat

/-! The market state of an instrument: its quote, and the stream that ticks arrive on. -/
namespace NTrade.Domain
open NTrade.Lib

structure Quote where
  ltp : Rat := 0
  bid : Rat := 0
  ask : Rat := 0
  prevClose : Rat := 0

structure Tick where
  symbol : String
  price : Rat
  quantity : Int := 0
  side : String := ""
  kind : String := "trade"
  ts : Rat := 0

def STREAM_MAXLEN : Nat := 10000

structure LiveStream where
  lastTick : Option Tick := none
  ticks : Deque Tick STREAM_MAXLEN := Deque.empty

def LiveStream.tickCount (s : LiveStream) : Nat := s.ticks.size

structure Market where
  quote : Quote := {}
  stream : LiveStream := {}

def Market.ingestTick (tick : Tick) (m : Market) : Market where
  stream := { lastTick := some tick, ticks := m.stream.ticks.push tick }
  quote :=
    if tick.kind = "quote" then { m.quote with ltp := tick.price, bid := tick.price, ask := tick.price }
    else if tick.kind = "trade" then { m.quote with ltp := tick.price }
    else m.quote

/-- A stream counts a tick as long as its buffer is not full. -/
theorem Market.tickCount_ingestTick (tick : Tick) (m : Market) :
    (m.ingestTick tick).stream.tickCount =
      if m.stream.tickCount < STREAM_MAXLEN then m.stream.tickCount + 1 else m.stream.tickCount :=
  Deque.size_push _ _

end NTrade.Domain
