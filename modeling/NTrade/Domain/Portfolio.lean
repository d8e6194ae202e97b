import NTrade.Lib.Keyed
import NTrade.Execution.Costs
import Mathlib.Algebra.Order.Ring.Rat

/-! Positions and cash, the state that the engines share. -/
namespace NTrade.Domain
open NTrade.Lib

structure Position where
  symbol : String
  quantity : Int
  avgPrice : Rat
  ltp : Rat := 0
  product : String := "MIS"
  exchange : String := "NSE"
  /-- `metadata["strategy"]`, where the position has one. -/
  strategy : Option String := none
  deriving DecidableEq, Repr

def Position.marketValue (p : Position) : Rat := Execution.round (p.quantity * p.ltp) 2

structure TradingContext where
  positions : List Position := []
  balance : Rat := 0
  deriving DecidableEq, Repr

namespace TradingContext

def position (ctx : TradingContext) (symbol : String) : Option Position :=
  Keyed.lookup Position.symbol symbol ctx.positions

def quantity (ctx : TradingContext) (symbol : String) : Int := ((ctx.position symbol).map Position.quantity).getD 0

end TradingContext
end NTrade.Domain
