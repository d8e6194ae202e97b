import NTrade.Lib.Dict
import NTrade.Lib.Trace
import NTrade.Engines.RiskEngine

/-! The kernel's bus with the risk engines, the strategy runners and the live runner on it.
A handler outside these, the strategies among them, may call the kernel while it runs, so
the call stack is explicit: a run is a list of moves of the code in control. -/
namespace NTrade.Runner

/-- The halt state of the live runner. Its handlers are given the answers of the brokers to the kill switch, one for each
broker-backed instrument. -/
structure LiveRunner where
  halted : Bool := false
  killSwitched : Bool := false
  killSwitchFailed : Bool := false

namespace LiveRunner
variable (answers : List Bool) (r : LiveRunner)

def onRiskHalted : LiveRunner where
  halted := true
  killSwitched := r.killSwitched || answers.any id
  killSwitchFailed := r.killSwitchFailed || answers.any not

/-- A resume deactivates it, and reports it off only when every broker has answered. -/
def onRiskResumed : LiveRunner :=
  let r := { r with halted := false }
  if r.killSwitched then
    { r with killSwitched := answers.any not, killSwitchFailed := r.killSwitchFailed || answers.any not }
  else r

end LiveRunner
end NTrade.Runner

namespace NTrade.Kernel
open NTrade.Events NTrade.Engines NTrade.Runner NTrade.Lib

inductive BusEvent where
  | signal (s : SignalGenerated)
  | approved (s : SignalGenerated)
  | rejected (s : SignalGenerated) (refusal : Refusal)
  | riskHalted (reason : HaltReason) (equity : Rat)
  | riskResumed
  /-- Market data, an order, a fill, a lifecycle event. -/
  | other (name : String)
  deriving DecidableEq

/-- The classes handlers subscribe to; `base` receives every event. -/
inductive Topic where
  | signalGenerated | signalApproved | signalRejected | riskHalted | riskResumed
  | other (name : String)
  | base
  deriving DecidableEq

def BusEvent.topic : BusEvent → Topic
  | .signal _ => .signalGenerated
  | .approved _ => .signalApproved
  | .rejected _ _ => .signalRejected
  | .riskHalted _ _ => .riskHalted
  | .riskResumed => .riskResumed
  | .other name => .other name

inductive Handler where
  | riskEngine (id : Nat)
  | liveRunner
  | other (id : Nat)
  deriving DecidableEq

/-- Whether a handler is code outside the kernel, which may call it. -/
def Handler.isOutside : Handler → Bool
  | .other _ => true
  | _ => false

def engineIds (handlers : List Handler) : List Nat :=
  handlers.filterMap fun
    | .riskEngine id => some id
    | _ => none

/-- An event in dispatch: the handlers of the class at hand that are still to call, whether
the base class follows, the error count that reached the limit, and whether outside code
is in control. -/
structure Dispatch where
  event : BusEvent
  pending : List Handler
  base : Bool := true
  halt : Option Nat := none
  running : Bool := false

/-- A call that has not returned. An engine that halts while it screens a signal goes on
with its verdict once the halt has been dispatched. -/
inductive Frame where
  | dispatch (d : Dispatch)
  | screening (id : Nat) (signal : SignalGenerated)

def Frame.listening : Frame → List Nat
  | .dispatch d =>
    match d.event with
    | .signal _ => engineIds d.pending
    | _ => []
  | .screening id _ => [id]

inductive Obs where
  /-- An event, and the engines left to screen signals that were not halted then. -/
  | published (e : BusEvent) (awake : List Nat)
  | haltCalled (id : Nat) (awake : List Nat)
  | resumeCalled (id : Nat)
  /-- An engine starts to receive signals, halted or not. -/
  | subscribed (id : Nat) (halted : Bool)
  deriving DecidableEq

structure StrategyRunner where
  handles : Dict String Nat := Dict.empty
  risk : Dict String Nat := Dict.empty
  globalRiskPaused : Bool := false

/-- Strategies and engines are known by the order of their creation; the engine of the
kernel itself is the first. -/
structure TradingKernel (T : Type*) where
  engines : List RiskEngine
  subscribers : Topic → List Handler
  /-- The strategies registered, each with its name. -/
  strategies : List (Nat × String) := []
  created : Nat := 0
  runners : List StrategyRunner := []
  riskPauseCount : Nat := 0
  handlerErrors : Nat := 0
  maxHandlerErrors : Option Nat := some 100
  live : LiveRunner := {}
  target : T
  stack : List Frame := []
  trace : List Obs := []

structure Port (T A : Type*) where
  act : A → T → T
  tripKillSwitch : Rat → (String → Bool) → T → T

/-- The first free name among `base`, `base#2`, `base#3`, and so on. -/
def uniqueName (taken : List String) (base : String) : String :=
  if base ∈ taken then
    (((List.range' 2 taken.length).map fun i => base ++ "#" ++ toString i).find? (· ∉ taken)).getD base
  else base

namespace TradingKernel
variable {T A : Type*} (id : Nat) (k : TradingKernel T)

def isHalted : Bool := k.engines[id]?.any RiskEngine.halted

def listening : List Nat :=
  engineIds (k.subscribers .signalGenerated) ++ engineIds (k.subscribers .base) ++ k.stack.flatMap Frame.listening

def awake : List Nat := k.listening.filter fun id => ¬ k.isHalted id

def log (o : Obs) : TradingKernel T := { k with trace := k.trace ++ [o] }

def setEngine (e : RiskEngine) : TradingKernel T := { k with engines := k.engines.set id e }

def push (f : Frame) : TradingKernel T := { k with stack := f :: k.stack }

def setStack (stack : List Frame) : TradingKernel T := { k with stack }

def publish (e : BusEvent) : TradingKernel T :=
  (k.log (.published e k.awake)).push (.dispatch { event := e, pending := k.subscribers e.topic })

def subscribe (topic : Topic) (h : Handler) : TradingKernel T :=
  { k with subscribers := Function.update k.subscribers topic (k.subscribers topic ++ [h]) }

def unsubscribe (topic : Topic) (h : Handler) : TradingKernel T :=
  { k with subscribers := Function.update k.subscribers topic ((k.subscribers topic).erase h) }

theorem subscribers_subscribe (topic t : Topic) (h : Handler) :
    (k.subscribe topic h).subscribers t = if t = topic then k.subscribers topic ++ [h] else k.subscribers t :=
  Function.update_apply _ _ _ _

theorem subscribers_unsubscribe (topic t : Topic) (h : Handler) :
    (k.unsubscribe topic h).subscribers t = if t = topic then (k.subscribers topic).erase h else k.subscribers t :=
  Function.update_apply _ _ _ _

def subscribeEngine : TradingKernel T :=
  (k.subscribe .signalGenerated (.riskEngine id)).log (.subscribed id (k.isHalted id))

def halt (reason : HaltReason) (r : Reading) : TradingKernel T :=
  match k.engines[id]? with
  | none => k
  | some e =>
    if e.halted then k.log (.haltCalled id k.awake)
    else
      let k := k.setEngine id (e.halt reason)
      (k.log (.haltCalled id k.awake)).publish (.riskHalted reason r.equity)

def resume (r : Reading) : TradingKernel T :=
  match k.engines[id]? with
  | none => k
  | some e =>
    let k := k.log (.resumeCalled id)
    if e.halted then (k.setEngine id (e.resume r.balance)).publish .riskResumed else k

/-- `RiskEngine.check`: the circuit breakers without a signal. -/
def check (r : Reading) : TradingKernel T :=
  match k.engines[id]? with
  | none => k
  | some e =>
    match e.updateBreakers r.equity with
    | (e, none) => k.setEngine id e
    | (e, some reason) => (k.setEngine id e).publish (.riskHalted reason r.equity)

def rebase (balance : Rat) : TradingKernel T :=
  match k.engines[id]? with
  | none => k
  | some e => k.setEngine id (e.rebase balance)

/-- The verdict of an engine on a signal, once its circuit breakers are evaluated. -/
def verdict (s : SignalGenerated) (r : Reading) : TradingKernel T :=
  match k.engines[id]? with
  | none => k
  | some e =>
    match e.check s r with
    | none => (k.setEngine id { e with approved := e.approved + 1 }).publish (.approved s)
    | some refusal => (k.setEngine id { e with rejected := e.rejected + 1 }).publish (.rejected s refusal)

def onSignal (s : SignalGenerated) (r : Reading) : TradingKernel T :=
  match k.engines[id]? with
  | none => k
  | some e =>
    if e.screens s then
      match e.updateBreakers r.equity with
      | (e, none) => (k.setEngine id e).verdict id s r
      | (e, some reason) =>
        ((k.setEngine id e).push (.screening id s)).publish (.riskHalted reason r.equity)
    else k

def registerStrategy (name : String) : TradingKernel T :=
  { k with strategies := k.strategies ++ [(k.created, name)], created := k.created + 1 }

/-- The first manager to take over screening unsubscribes the global engine. -/
def pauseGlobalRisk : TradingKernel T :=
  let k := if k.riskPauseCount = 0 then k.unsubscribe .signalGenerated (.riskEngine 0) else k
  { k with riskPauseCount := k.riskPauseCount + 1 }

/-- `StrategyRunner.add`: a strategy and an engine scoped to its name. -/
def add (runner : Nat) (base : String) (limits : Limits) (balance : Rat) : TradingKernel T :=
  match k.runners[runner]? with
  | none => k
  | some r =>
    let name := uniqueName (r.handles.keys ++ k.strategies.map Prod.snd) base
    let k := (k.pauseGlobalRisk).registerStrategy name
    let r : StrategyRunner :=
      { handles := r.handles.set name (k.created - 1), risk := r.risk.set name k.engines.length,
        globalRiskPaused := true }
    let k := { k with
      runners := k.runners.set runner r
      engines := k.engines ++ [RiskEngine.create limits (some name) balance] }
    k.subscribeEngine (k.engines.length - 1)

/-- The last manager to release screening subscribes the global engine again. -/
def restoreGlobalRisk : TradingKernel T :=
  let k := { k with riskPauseCount := k.riskPauseCount - 1 }
  if k.riskPauseCount = 0 then k.subscribeEngine 0 else k

def release (runner : Nat) : TradingKernel T :=
  match k.runners[runner]? with
  | none => k
  | some r =>
    let k := (r.risk.entries.map Prod.snd).foldl (fun k id => k.unsubscribe .signalGenerated (.riskEngine id)) k
    let k := { k with
      strategies := k.strategies.filter (·.1 ∉ r.handles.entries.map Prod.snd)
      runners := k.runners.set runner {} }
    if r.globalRiskPaused then k.restoreGlobalRisk else k

end TradingKernel

structure Outside where
  reading : Reading := {}
  killAnswers : List Bool := []
  mono : Rat := 0
  cancels : String → Bool := fun _ => true

inductive Call (A : Type*) where
  | signal (s : SignalGenerated)
  | publish (name : String)
  | announceHalt (reason : HaltReason)
  | halt (id : Nat) (reason : HaltReason) (r : Reading)
  | resume (id : Nat) (r : Reading)
  | check (id : Nat) (r : Reading)
  | rebase (id : Nat) (balance : Rat)
  | registerStrategy (name : String)
  | newRunner
  | add (runner : Nat) (base : String) (limits : Limits) (balance : Rat)
  | release (runner : Nat)
  | subscribe (topic : Topic) (id : Nat)
  | target (a : A)

/-- Outside code calls the kernel, a handler of the bus is called next (or a call goes on
that waited for a dispatch), or outside code returns to the bus, maybe by an exception. -/
inductive Move (A : Type*) where
  | call (c : Call A)
  | next (o : Outside)
  | ret (raised : Bool)

section Machine
variable {T A : Type*} (port : Port T A)

def handle (h : Handler) (e : BusEvent) (o : Outside) (k : TradingKernel T) : TradingKernel T :=
  match h, e with
  | .riskEngine id, .signal s => k.onSignal id s o.reading
  | .liveRunner, .riskHalted _ _ =>
    { k with
      live := k.live.onRiskHalted o.killAnswers
      target := port.tripKillSwitch o.mono o.cancels k.target }
  | .liveRunner, .riskResumed => { k with live := k.live.onRiskResumed o.killAnswers }
  | _, _ => k

/-- A handler's exception is swallowed and counted; the limit halts once. -/
def countError (d : Dispatch) (rest : List Frame) (k : TradingKernel T) : TradingKernel T :=
  let errors := k.handlerErrors + 1
  match k.maxHandlerErrors.filter (· ≤ errors) with
  | none => { k with handlerErrors := errors, stack := .dispatch { d with running := false } :: rest }
  | some _ =>
    { k with
      handlerErrors := errors
      maxHandlerErrors := none
      stack := .dispatch { d with running := false, halt := some errors } :: rest }

/-- `publish` after the last handler: the halt it owes is an event of its own. -/
def finish (d : Dispatch) (k : TradingKernel T) : TradingKernel T :=
  match d.halt with
  | none => k
  | some errors => k.publish (.riskHalted (.handlerErrors errors) 0)

def perform (k : TradingKernel T) : Call A → TradingKernel T
  | .signal s => k.publish (.signal s)
  | .publish name => k.publish (.other name)
  | .announceHalt reason => k.publish (.riskHalted reason 0)
  | .halt id reason r => k.halt id reason r
  | .resume id r => k.resume id r
  | .check id r => k.check id r
  | .rebase id balance => k.rebase id balance
  | .registerStrategy name => k.registerStrategy name
  | .newRunner => { k with runners := k.runners ++ [{}] }
  | .add runner base limits balance => k.add runner base limits balance
  | .release runner => k.release runner
  | .subscribe topic id => k.subscribe topic (.other id)
  | .target a => { k with target := port.act a k.target }

/-- The next thing the kernel does with the frame on top of its stack. -/
def advance (o : Outside) (f : Frame) (rest : List Frame) (k : TradingKernel T) : TradingKernel T :=
  match f with
  | .screening id s => (k.setStack rest).verdict id s o.reading
  | .dispatch d =>
    if d.running then k
    else
      match d.pending with
      | h :: pending =>
        handle port h d.event o
          (k.setStack (.dispatch { d with pending, running := h.isOutside } :: rest))
      | [] =>
        if d.base then k.setStack (.dispatch { d with pending := k.subscribers .base, base := false } :: rest)
        else finish d (k.setStack rest)

/-- Outside code is in control between dispatches and while a handler of its own runs. -/
def outsideRuns : List Frame → Bool
  | [] => true
  | .dispatch d :: _ => d.running
  | .screening _ _ :: _ => false

def step (k : TradingKernel T) : Move A → TradingKernel T
  | .call c => if outsideRuns k.stack then perform port k c else k
  | .next o =>
    match k.stack with
    | [] => k
    | f :: rest => advance port o f rest k
  | .ret raised =>
    match k.stack with
    | .dispatch d :: rest =>
      if d.running then
        if raised then countError d rest k else k.setStack (.dispatch { d with running := false } :: rest)
      else k
    | _ => k

def run (moves : List (Move A)) (k : TradingKernel T) : TradingKernel T := moves.foldl (step port) k

/-- A return changes nothing, or the frame on top goes back to the bus with the event and the
handlers it had, and an error may be counted. -/
theorem step_ret (k : TradingKernel T) (raised : Bool) :
    step port k (.ret raised) = k ∨
      ∃ d rest d' errors limit, k.stack = .dispatch d :: rest ∧ d'.event = d.event ∧ d'.pending = d.pending ∧
        step port k (.ret raised) =
          { k with handlerErrors := errors, maxHandlerErrors := limit, stack := .dispatch d' :: rest } := by
  simp only [step]
  split
  · next d rest hs =>
    split
    · right
      split
      · unfold countError
        extract_lets errors
        split
        · exact ⟨d, rest, { d with running := false }, errors, k.maxHandlerErrors, hs, rfl, rfl, rfl⟩
        · exact ⟨d, rest, { d with running := false, halt := some errors }, errors, none, hs, rfl, rfl, rfl⟩
      · exact ⟨d, rest, { d with running := false }, k.handlerErrors, k.maxHandlerErrors, hs, rfl, rfl, rfl⟩
    · exact .inl rfl
  · exact .inl rfl

end Machine

/-- A kernel as its constructor leaves it, with a runner attached or not. -/
def boot {T : Type*} (target : T) (balance : Rat) (runner : Bool) : TradingKernel T where
  engines := [RiskEngine.create {} none balance]
  subscribers
    | .signalGenerated => [.riskEngine 0]
    | .riskHalted | .riskResumed => if runner then [.liveRunner] else []
    | _ => []
  target := target

def simulated : Port Unit Unit where
  act _ t := t
  tripKillSwitch _ _ t := t

end NTrade.Kernel
