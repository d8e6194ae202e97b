import NTrade.Lib.Dict
import NTrade.Domain.Market

/-! The market engine: ticks of registered instruments are projected into their state. -/
namespace NTrade.Engines
open NTrade.Domain NTrade.Lib

abbrev Instruments := Dict String Market

/-- Registering a symbol again replaces its instrument. -/
def register (symbol : String) (instruments : Instruments) : Instruments := instruments.set symbol {}

/-- `MarketEngine.on_tick`: the tick of a symbol that is not registered is dropped. -/
def onTick (tick : Tick) (instruments : Instruments) : Instruments :=
  instruments.modify tick.symbol (Market.ingestTick tick)

def totalTicks (instruments : Instruments) : Int := instruments.total fun m => (m.stream.tickCount : Int)

def hasRoom (symbol : String) (instruments : Instruments) : Bool :=
  (instruments.get symbol).any fun m => m.stream.tickCount < STREAM_MAXLEN

/-- The ticks held by the instrument that a registration replaces. -/
def replacedTicks (symbol : String) (instruments : Instruments) : Int :=
  ((instruments.get symbol).map fun m => (m.stream.tickCount : Int)).getD 0

/-- A tick adds to the total exactly if its stream has room. -/
theorem totalTicks_onTick (tick : Tick) (instruments : Instruments) :
    totalTicks (onTick tick instruments) =
      totalTicks instruments + if hasRoom tick.symbol instruments then 1 else 0 := by
  cases h : instruments.get tick.symbol with
  | none =>
    rw [totalTicks, onTick, Dict.modify_of_none h]
    simp [totalTicks, hasRoom, h]
  | some m =>
    rw [totalTicks, onTick, Dict.total_modify _ h, Market.tickCount_ingestTick]
    by_cases hr : m.stream.tickCount < STREAM_MAXLEN
    · simp [totalTicks, hasRoom, h, hr]
      omega
    · simp [totalTicks, hasRoom, h, hr]

theorem totalTicks_register (symbol : String) (instruments : Instruments) :
    totalTicks (register symbol instruments) = totalTicks instruments - replacedTicks symbol instruments := by
  have h0 : ((({} : Market).stream.tickCount : Nat) : Int) = 0 := rfl
  rw [totalTicks, register, Dict.total_set, h0, add_zero]
  rfl

end NTrade.Engines
