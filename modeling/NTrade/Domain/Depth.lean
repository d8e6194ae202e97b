import NTrade.Lib.HalfEven
import NTrade.Domain.MarketHours
import Mathlib.Data.Rat.Floor

/-! Market depth: a snapshot of an order book, and how it comes out of an event. -/
namespace NTrade.Domain
open NTrade.Lib

structure DepthLevel where
  price : Rat
  quantity : Int
  orders : Int := 0
  deriving DecidableEq, Repr

structure MarketDepth where
  symbol : String
  bids : List DepthLevel := []
  asks : List DepthLevel := []
  timestamp : Option Timestamp := none

namespace MarketDepth

def bidQuantity (d : MarketDepth) : Int := (d.bids.map (·.quantity)).sum

def askQuantity (d : MarketDepth) : Int := (d.asks.map (·.quantity)).sum

def bidAskImbalance (d : MarketDepth) : Rat :=
  if d.bidQuantity + d.askQuantity = 0 then 0
  else HalfEven.decimals ((d.bidQuantity - d.askQuantity) / (d.bidQuantity + d.askQuantity)) 4

/-- A book whose sides have changed places leans as much to the other side. -/
theorem bidAskImbalance_swap {d d' : MarketDepth} (hb : d'.bidQuantity = d.askQuantity)
    (ha : d'.askQuantity = d.bidQuantity) : d'.bidAskImbalance = -d.bidAskImbalance := by
  rw [bidAskImbalance, bidAskImbalance, hb, ha, add_comm]
  split_ifs
  · exact neg_zero.symm
  · rw [← HalfEven.decimals_neg, ← neg_div, neg_sub, add_comm (d.askQuantity : Rat)]

end MarketDepth

structure DepthEvent where
  symbol : String
  exchange : String
  bids : List (Rat × Int × Int) := []
  asks : List (Rat × Int × Int) := []
  ts : Timestamp
  deriving DecidableEq, Repr

/-- What `MarketEngine.on_depth` projects into the instrument. -/
def DepthEvent.depth (event : DepthEvent) : MarketDepth where
  symbol := event.symbol
  bids := event.bids.map fun row => ⟨row.1, row.2.1, row.2.2⟩
  asks := event.asks.map fun row => ⟨row.1, row.2.1, row.2.2⟩
  timestamp := some event.ts

end NTrade.Domain
