import NTrade.Engines.MarketEngine
import NTrade.Engines.PortfolioEngine
import NTrade.Engines.PositionSync
import NTrade.Engines.RiskEngine
import NTrade.Lib.Trace

/-! The loop that evaluates the circuit breakers between signals, and what moves the books
it evaluates them on: ticks, fills, the import of the broker's positions, and the engines
that come and go with the strategies. -/
namespace NTrade.Runner
open NTrade.Domain NTrade.Events NTrade.Engines NTrade.Lib

def readingOf (ctx : TradingContext) : Reading where
  balance := ctx.balance
  positions := ctx.positions.map fun p => { marketValue := p.marketValue, strategy := p.strategy }

/-- What happens to the books and the engines, one thing at a time. An engine is the
kernel's own, or one of those that runners have wired to it. -/
inductive BookAct where
  | tick (tick : Tick)
  | fill (e : OrderFilled)
  /-- The paper loop writes the close of a bar. -/
  | reprice (symbol : String) (close : Rat)
  | importRow (bp : BrokerPosition) (now : Rat)
  | dropUnreported (symbols : List String) (now : Rat)
  | importCash (broker : BrokerReport) (now : Rat)
  /-- An engine evaluates its breakers: it is checked, or screens a signal. -/
  | evaluate (engine : Option Nat)
  | halt (engine : Option Nat) (reason : HaltReason)
  | resume (engine : Option Nat)
  /-- A risk halt is published that no engine stands behind. -/
  | announceHalt
  | add (strategy : String) (limits : Limits)
  | release (strategies : List String)

structure RiskLoop where
  ctx : TradingContext
  instruments : Instruments := Dict.empty
  own : RiskEngine
  perStrategy : List RiskEngine := []
  halted : Bool := false
  trace : List BookAct := []

namespace RiskLoop

def start (cash : Rat) (limits : Limits) (instruments : Instruments) : RiskLoop where
  ctx := { balance := cash }
  instruments := instruments
  own := RiskEngine.create limits none cash

variable (s : RiskLoop)

def equity : Rat := (readingOf s.ctx).equity

def engine : Option Nat → Option RiskEngine
  | none => some s.own
  | some i => s.perStrategy[i]?

def setEngine (e : RiskEngine) : Option Nat → RiskLoop
  | none => { s with own := e }
  | some i => { s with perStrategy := s.perStrategy.set i e }

def wired : List RiskEngine := s.own :: s.perStrategy

/-- `RiskEngine._update_breakers`: a halt stops the live runner as well. -/
def evaluate (equity : Rat) (i : Option Nat) : RiskLoop :=
  match s.engine i with
  | none => s
  | some e =>
    let (e, announced) := e.updateBreakers equity
    { s.setEngine e i with halted := s.halted || announced.isSome }

def haltEngine (reason : HaltReason) (i : Option Nat) : RiskLoop :=
  match s.engine i with
  | none => s
  | some e => if e.halted then s else { s.setEngine (e.halt reason) i with halted := true }

def resumeEngine (i : Option Nat) : RiskLoop :=
  match s.engine i with
  | none => s
  | some e => if e.halted then { s.setEngine (e.resume s.ctx.balance) i with halted := false } else s

def importCash (broker : BrokerReport) (now : Rat) : RiskLoop :=
  let done := Engines.importCash now broker { ctx := s.ctx }
  { s with
    ctx := done.ctx
    own := match done.rebase with
      | none => s.own
      | some balance => s.own.rebase balance }

/-- One act, where `mark` gives the equity that breakers are evaluated at. -/
def effect (mark : RiskLoop → Rat) : BookAct → RiskLoop
  | .tick tick => { s with instruments := onTick tick s.instruments }
  | .fill e => { s with ctx := onFilled e s.ctx }
  | .reprice symbol close =>
    { s with ctx := { s.ctx with
        positions := Keyed.revise Domain.Position.symbol symbol (fun p => { p with ltp := close }) s.ctx.positions } }
  | .importRow bp now => { s with ctx := (upsert now { ctx := s.ctx } bp).ctx }
  | .dropUnreported symbols now => { s with ctx := (Engines.dropUnreported now symbols { ctx := s.ctx }).ctx }
  | .importCash broker now => s.importCash broker now
  | .evaluate i => s.evaluate (mark s) i
  | .halt i reason => s.haltEngine reason i
  | .resume i => s.resumeEngine i
  | .announceHalt => { s with halted := true }
  | .add strategy limits =>
    { s with perStrategy := s.perStrategy ++ [RiskEngine.create limits (some strategy) s.ctx.balance] }
  | .release strategies => { s with perStrategy := s.perStrategy.filter fun e => e.strategy.all (· ∉ strategies) }

def act (mark : RiskLoop → Rat) (a : BookAct) : RiskLoop :=
  { s.effect mark a with trace := s.trace ++ [a] }

def acts (mark : RiskLoop → Rat) (as : List BookAct) : RiskLoop := as.foldl (fun s a => s.act mark a) s

end RiskLoop

/-- What a sync does, row by row: its events are published in between. -/
def syncActs (broker : BrokerReport) (now : Rat) : List BookAct :=
  match broker.positions with
  | none => []
  | some reported =>
    let bySymbol := Dict.collect BrokerPosition.symbol reported
    (bySymbol.entries.map fun row => .importRow row.2 now) ++
      [.dropUnreported bySymbol.keys now, .importCash broker now]

section
variable {s : RiskLoop} {mark : RiskLoop → Rat}

theorem ctx_setEngine (e : RiskEngine) (i : Option Nat) : (s.setEngine e i).ctx = s.ctx := by
  cases i <;> rfl

theorem ctx_evaluate (equity : Rat) (i : Option Nat) : (s.evaluate equity i).ctx = s.ctx := by
  unfold RiskLoop.evaluate
  split
  · rfl
  · exact ctx_setEngine _ i

theorem ctx_haltEngine (reason : HaltReason) (i : Option Nat) : (s.haltEngine reason i).ctx = s.ctx := by
  unfold RiskLoop.haltEngine
  split
  · rfl
  · split
    · rfl
    · exact ctx_setEngine _ i

theorem ctx_resumeEngine (i : Option Nat) : (s.resumeEngine i).ctx = s.ctx := by
  unfold RiskLoop.resumeEngine
  split
  · rfl
  · split
    · exact ctx_setEngine _ i
    · rfl

theorem own_evaluate (equity : Rat) (i : Option Nat) :
    (s.evaluate equity i).own = if i = none then (s.own.updateBreakers equity).1 else s.own := by
  cases i with
  | none => rfl
  | some i =>
    unfold RiskLoop.evaluate
    split
    · rfl
    · rfl

theorem own_haltEngine (reason : HaltReason) (i : Option Nat) :
    (s.haltEngine reason i).own = if i = none ∧ s.own.halted = false then s.own.halt reason else s.own := by
  unfold RiskLoop.haltEngine
  cases i with
  | none => cases hh : s.own.halted <;> simp [RiskLoop.engine, RiskLoop.setEngine, hh]
  | some i =>
    split
    · simp
    · split
      · simp
      · simp [RiskLoop.setEngine]

theorem own_resumeEngine (i : Option Nat) :
    (s.resumeEngine i).own = if i = none ∧ s.own.halted = true then s.own.resume s.ctx.balance else s.own := by
  unfold RiskLoop.resumeEngine
  cases i with
  | none => cases hh : s.own.halted <;> simp [RiskLoop.engine, RiskLoop.setEngine, hh]
  | some i =>
    split
    · simp
    · split
      · simp [RiskLoop.setEngine]
      · simp

theorem acts_append (as bs : List BookAct) : s.acts mark (as ++ bs) = (s.acts mark as).acts mark bs :=
  List.foldl_append

private theorem ctx_imports (rows : List (String × BrokerPosition)) (now : Rat) (done : Synced) (h : s.ctx = done.ctx) :
    (s.acts mark (rows.map fun row => .importRow row.2 now)).ctx = ((rows.map Prod.snd).foldl (upsert now) done).ctx := by
  induction rows generalizing s done with
  | nil => exact h
  | cons row rows ih =>
    apply ih
    show (upsert now { ctx := s.ctx } row.2).ctx = (upsert now done row.2).ctx
    rw [h]
    rfl

private theorem ctx_importCash (broker : BrokerReport) (now : Rat) {done done' : Synced} (h : done.ctx = done'.ctx) :
    (Engines.importCash now broker done).ctx = (Engines.importCash now broker done').ctx := by
  unfold Engines.importCash
  rw [h]
  split
  · exact h
  · dsimp only
    split
    · rfl
    · rfl

/-- The acts of a sync leave the books that the sync engine leaves. -/
theorem ctx_syncActs (broker : BrokerReport) (now : Rat) :
    (s.acts mark (syncActs broker now)).ctx = (sync broker now s.ctx).ctx := by
  unfold syncActs sync
  cases broker.positions with
  | none => rfl
  | some reported =>
    dsimp only
    rw [acts_append]
    show (Engines.importCash now broker { ctx := (Engines.dropUnreported now _ { ctx := _ }).ctx }).ctx = _
    rw [ctx_imports _ now { ctx := s.ctx } rfl]
    exact ctx_importCash broker now rfl

end
end NTrade.Runner
