import NTrade.Domain.Order
import NTrade.Events.Event

/-! The risk engine: static limits and circuit breakers in front of every signal. What it
reads off the account, the portfolio and the market is an argument; publishing what it
decides is left to the kernel. -/
namespace NTrade.Engines
open NTrade.Domain NTrade.Events

/-- The limits of one engine; what is absent is not checked. -/
structure Limits where
  maxQuantity : Option Int := none
  maxNotional : Option Rat := none
  maxPositions : Option Nat := none
  allowlist : Option (List String) := none
  maxDailyLoss : Option Rat := none
  maxDrawdownPct : Option Rat := none
  priceDeviationPct : Option Rat := none

/-- Why trading is halted: the text given to `halt`, a circuit breaker of an engine, or the
handler errors counted by the bus. -/
inductive HaltReason where
  | text (reason : String)
  | dailyLoss (loss cap : Rat)
  | drawdown (pct cap : Rat)
  | handlerErrors (count : Nat)
  deriving DecidableEq, Repr

inductive Refusal where
  | halted (reason : Option HaltReason)
  | notAllowed (symbol : String)
  | quantity (quantity max : Int)
  | notionalUnverifiable (symbol : String)
  | notional (notional max : Rat)
  | maxPositions (max : Nat)
  | priceUnverifiable (price : Rat) (symbol : String)
  | deviation (price pct ref max : Rat)
  deriving DecidableEq, Repr

structure Position where
  marketValue : Rat
  /-- `metadata["strategy"]`, where the position has one. -/
  strategy : Option String := none

/-- What an engine reads while it handles one signal. -/
structure Reading where
  balance : Rat := 0
  positions : List Position := []
  /-- Last price and previous close of a registered symbol. -/
  quote : String → Option (Rat × Rat) := fun _ => none

def Reading.equity (r : Reading) : Rat := r.balance + (r.positions.map Position.marketValue).sum

/-- The last price, else the previous close, else zero. -/
def Reading.referencePrice (r : Reading) (symbol : String) : Rat :=
  match r.quote symbol with
  | none => 0
  | some (ltp, prevClose) => orElse ltp prevClose

structure RiskEngine where
  limits : Limits := {}
  /-- The strategy whose signals it screens; none for the global engine. -/
  strategy : Option String := none
  halted : Bool := false
  haltReason : Option HaltReason := none
  startBalance : Rat := 0
  rebased : Bool := false
  peakEquity : Option Rat := none
  approved : Nat := 0
  rejected : Nat := 0

namespace RiskEngine

/-- An empty allowlist allows everything. -/
def create (limits : Limits) (strategy : Option String) (balance : Rat) : RiskEngine where
  limits := { limits with allowlist := limits.allowlist.filter (· ≠ []) }
  strategy := strategy
  startBalance := balance

variable (e : RiskEngine)

def halt (reason : HaltReason) : RiskEngine := { e with halted := true, haltReason := some reason }

def resume (balance : Rat) : RiskEngine :=
  { e with halted := false, haltReason := none, peakEquity := none, startBalance := balance }

/-- Adopt a synced account balance as the daily-loss baseline, once. -/
def rebase (balance : Rat) : RiskEngine :=
  if e.rebased then e else { e with startBalance := balance, rebased := true }

def screens (signal : SignalGenerated) : Bool := e.strategy.all (· = signal.strategy)

def peak (equity : Rat) : Rat :=
  match e.peakEquity with
  | none => equity
  | some peak => max peak equity

theorem le_peak (equity : Rat) : equity ≤ e.peak equity := by
  rw [peak]
  split
  · exact le_refl _
  · exact le_max_right _ _

def tripped (equity : Rat) : Option HaltReason :=
  match e.limits.maxDailyLoss.filter (· < e.startBalance - equity) with
  | some cap => some (.dailyLoss (e.startBalance - equity) cap)
  | none =>
    let pct := (e.peak equity - equity) / e.peak equity * 100
    match e.limits.maxDrawdownPct.filter (fun cap => e.peak equity ≠ 0 ∧ cap < pct) with
    | some cap => some (.drawdown pct cap)
    | none => none

def exceeded (equity : Rat) : Bool :=
  e.limits.maxDailyLoss.any (· < e.startBalance - equity) ||
    e.limits.maxDrawdownPct.any fun cap => e.peak equity ≠ 0 ∧ cap < (e.peak equity - equity) / e.peak equity * 100

/-- The engine after its circuit breakers were evaluated, and the halt to announce. -/
def updateBreakers (equity : Rat) : RiskEngine × Option HaltReason :=
  if e.halted then (e, none)
  else
    let seen := { e with peakEquity := some (e.peak equity) }
    match e.tripped equity with
    | none => (seen, none)
    | some reason => (seen.halt reason, some reason)

def positionCount (r : Reading) : Nat :=
  match e.strategy with
  | none => r.positions.length
  | some name => (r.positions.filter (·.strategy = some name)).length

/-- The notional of a signal, priced by its own price or by the market. -/
def checkNotional (signal : SignalGenerated) (r : Reading) : Option Refusal :=
  let px := if signal.price ≤ 0 then r.referencePrice signal.symbol else signal.price
  match e.limits.maxNotional with
  | none => none
  | some cap =>
    if px ≤ 0 then some (.notionalUnverifiable signal.symbol)
    else if cap < px * signal.quantity then some (.notional (px * signal.quantity) cap)
    else none

/-- A signal without a price of its own declares none to compare. -/
def checkDeviation (signal : SignalGenerated) (r : Reading) : Option Refusal :=
  match e.limits.priceDeviationPct with
  | none => none
  | some cap =>
    let ref := r.referencePrice signal.symbol
    let pct := |signal.price - ref| / ref * 100
    if signal.price = 0 then none
    else if ref = 0 then some (.priceUnverifiable signal.price signal.symbol)
    else if cap < pct then some (.deviation signal.price pct ref cap)
    else none

/-- The verdict on a signal, after the circuit breakers: none approves it. -/
def check (signal : SignalGenerated) (r : Reading) : Option Refusal :=
  if e.halted then some (.halted e.haltReason)
  else if e.limits.allowlist.any (signal.symbol ∉ ·) then some (.notAllowed signal.symbol)
  else
    match e.limits.maxQuantity.filter (· < signal.quantity) with
    | some cap => some (.quantity signal.quantity cap)
    | none =>
      match e.checkNotional signal r with
      | some refusal => some refusal
      | none =>
        match e.limits.maxPositions.filter (· ≤ e.positionCount r) with
        | some cap => some (.maxPositions cap)
        | none => e.checkDeviation signal r

variable {e} {equity : Rat} {reason : HaltReason}

/-- An engine approves nothing while it is halted. -/
theorem check_of_halted (h : e.halted = true) (signal : SignalGenerated) (r : Reading) :
    e.check signal r = some (.halted e.haltReason) := by
  rw [check, if_pos h]

theorem updateBreakers_of_halted (h : e.halted = true) : e.updateBreakers equity = (e, none) := by
  rw [updateBreakers, if_pos h]

theorem tripped_isSome : (e.tripped equity).isSome = e.exceeded equity := by
  unfold tripped exceeded
  rw [← Option.isSome_filter, ← Option.isSome_filter]
  split
  · next cap h => rw [h]; rfl
  · next h =>
    rw [h]
    dsimp only
    split
    · next cap h => rw [h]; rfl
    · next h => rw [h]; rfl

/-- An engine that is evaluated is halted if it was, or if the equity is beyond a limit. -/
theorem updateBreakers_exceeded : (e.updateBreakers equity).1.halted = (e.halted || e.exceeded equity) := by
  rw [← tripped_isSome]
  cases hh : e.halted with
  | true => simp [updateBreakers_of_halted hh, hh]
  | false => cases ht : e.tripped equity <;> simp [updateBreakers, hh, ht, halt]

/-- The breakers halt an engine exactly when they announce it. -/
theorem updateBreakers_halted :
    (e.updateBreakers equity).1.halted = (e.halted || (e.updateBreakers equity).2.isSome) := by
  cases hh : e.halted with
  | true => simp [updateBreakers_of_halted hh, hh]
  | false =>
    cases ht : e.tripped equity with
    | none => simp [updateBreakers, hh, ht]
    | some reason => simp [updateBreakers, hh, ht, halt]

/-- Circuit breakers leave everything but the halt and the peak as it was. -/
theorem updateBreakers_strategy : (e.updateBreakers equity).1.strategy = e.strategy := by
  cases hh : e.halted with
  | true => rw [updateBreakers_of_halted hh]
  | false => cases ht : e.tripped equity <;> simp [updateBreakers, hh, ht, halt]

theorem updateBreakers_keeps : (e.updateBreakers equity).1.startBalance = e.startBalance ∧
    (e.updateBreakers equity).1.limits = e.limits ∧ (e.updateBreakers equity).1.rebased = e.rebased := by
  cases hh : e.halted with
  | true => simp [updateBreakers, hh]
  | false => cases ht : e.tripped equity <;> simp [updateBreakers, halt, hh, ht]

end RiskEngine
end NTrade.Engines
