import NTrade.Execution.NotionalCap
import NTrade.Lib.Admission
import NTrade.Runner.RiskLoop

/-! The cap on open positions over a session. The engine counts positions when a signal is
raised; an approved order takes a position when it is filled, whenever that is. -/
namespace NTrade.Runner
open NTrade.Domain NTrade.Events NTrade.Engines NTrade.Lib

inductive SessionAct where
  /-- A signal is raised, with the quotes that the engine finds. -/
  | signal (signal : SignalGenerated) (quote : String → Option (Rat × Rat))
  /-- An order that is at work is filled, or a part of it. -/
  | fill (i : Nat) (e : OrderFilled)
  /-- An order is no longer at work: it is done, cancelled or was rejected. -/
  | finish (i : Nat)
  /-- The books or the engines change in another way than by a fill. -/
  | book (a : BookAct)

structure CappedSession where
  loop : RiskLoop
  /-- The approved orders that the execution target still works on. -/
  working : List OrderIntent := []
  /-- The symbols whose positions came from the broker. -/
  imported : List String := []

namespace CappedSession

def start (cash : Rat) (limits : Limits) (instruments : Instruments) : CappedSession where
  loop := RiskLoop.start cash limits instruments

variable (s : CappedSession)

def verdict (signal : SignalGenerated) (quote : String → Option (Rat × Rat)) : Option Refusal :=
  (s.loop.evaluate s.loop.equity none).own.check signal { readingOf s.loop.ctx with quote }

def step : SessionAct → CappedSession
  | .signal signal quote =>
    { s with
      loop := s.loop.act RiskLoop.equity (.evaluate none)
      working :=
        match s.verdict signal quote with
        | none => s.working ++ [OrderEngine.intent signal]
        | some _ => s.working }
  | .fill i e =>
    if s.working[i]?.any (·.symbol = e.symbol) then { s with loop := s.loop.act RiskLoop.equity (.fill e) } else s
  | .finish i => { s with working := s.working.eraseIdx i }
  | .book (.fill _) => s
  | .book (.importRow bp now) =>
    { s with loop := s.loop.act RiskLoop.equity (.importRow bp now), imported := s.imported ++ [bp.symbol] }
  | .book a => { s with loop := s.loop.act RiskLoop.equity a }

def run (acts : List SessionAct) : CappedSession := acts.foldl step s

def held : Finset String := (s.loop.ctx.positions.map Domain.Position.symbol).toFinset

/-- The symbols that an approved order may still open a position in. -/
def awaited : Finset String := (s.working.map OrderIntent.symbol).toFinset \ s.held

def admission : Admission String where
  held := s.held
  pending := (s.working.map OrderIntent.symbol).toFinset
  adopted := s.imported.toFinset

/-- No more than this many symbols await their first fill where an act has a signal approved. -/
def Awaits (slack : Nat) : SessionAct → Prop
  | .signal signal quote => s.verdict signal quote = none → s.awaited.card ≤ slack
  | _ => True

end CappedSession

section Own
variable {s : RiskLoop} {mark : RiskLoop → Rat}

/-- The kernel's own engine keeps its limits, and goes on screening every strategy. -/
structure Unmoved (e e' : RiskEngine) : Prop where
  limits : e'.limits = e.limits
  strategy : e'.strategy = e.strategy

theorem unmoved_act (a : BookAct) : Unmoved s.own (s.act mark a).own := by
  cases a with
  | tick | fill | reprice | importRow | dropUnreported | announceHalt | add | release => exact ⟨rfl, rfl⟩
  | importCash broker now =>
    show Unmoved s.own (s.importCash broker now).own
    rw [RiskLoop.importCash]
    dsimp only
    split
    · exact ⟨rfl, rfl⟩
    · rw [RiskEngine.rebase]
      split <;> exact ⟨rfl, rfl⟩
  | evaluate i =>
    show Unmoved s.own (s.evaluate (mark s) i).own
    rw [own_evaluate]
    split
    · exact ⟨RiskEngine.updateBreakers_keeps.2.1, RiskEngine.updateBreakers_strategy⟩
    · exact ⟨rfl, rfl⟩
  | halt i reason =>
    show Unmoved s.own (s.haltEngine reason i).own
    rw [own_haltEngine]
    split <;> exact ⟨rfl, rfl⟩
  | resume i =>
    show Unmoved s.own (s.resumeEngine i).own
    rw [own_resumeEngine]
    split <;> exact ⟨rfl, rfl⟩

end Own

section Check
variable {e : RiskEngine} {signal : SignalGenerated} {r : Reading} {m : Nat}

/-- An engine approves a signal only while it counts fewer positions than its cap. -/
theorem count_of_approved (hm : e.limits.maxPositions = some m) (h : e.check signal r = none) : e.positionCount r < m := by
  rw [RiskEngine.check, hm] at h
  split_ifs at h
  split at h
  · cases h
  · split at h
    · cases h
    · split at h
      · cases h
      · next hf => simpa using hf

private theorem checkNotional_ne_maxPositions {cap : Nat} : e.checkNotional signal r ≠ some (.maxPositions cap) := by
  rw [RiskEngine.checkNotional]
  intro h
  split at h
  · cases h
  · split_ifs at h <;> cases h

private theorem checkDeviation_ne_maxPositions {cap : Nat} : e.checkDeviation signal r ≠ some (.maxPositions cap) := by
  rw [RiskEngine.checkDeviation]
  split
  · nofun
  · dsimp only
    split_ifs <;> nofun

/-- An engine turns a signal down for its cap on positions only while it counts that many. -/
theorem count_of_maxPositions {cap : Nat} (hm : e.limits.maxPositions = some m)
    (h : e.check signal r = some (.maxPositions cap)) : cap = m ∧ m ≤ e.positionCount r := by
  rw [RiskEngine.check, hm] at h
  split_ifs at h
  · cases h
  · cases h
  split at h
  · cases h
  · split at h
    · next hn => exact absurd (hn.trans h) checkNotional_ne_maxPositions
    · split at h
      · next hf =>
        obtain ⟨hmem, hle⟩ := Option.filter_eq_some_iff.mp hf
        obtain rfl := Option.some.inj hmem
        exact ⟨by simpa using h.symm, by simpa using hle⟩
      · exact absurd h checkDeviation_ne_maxPositions

end Check

namespace CappedSession
variable {s : CappedSession} {cap slack : Nat}

/-- A fill gives a position to its own symbol at most. -/
theorem symbols_onFilled (e : OrderFilled) (ctx : TradingContext) :
    ((onFilled e ctx).positions.map Domain.Position.symbol).toFinset ⊆
      insert e.symbol (ctx.positions.map Domain.Position.symbol).toFinset := by
  intro symbol hs
  rw [List.mem_toFinset, onFilled] at hs
  rw [Finset.mem_insert, List.mem_toFinset]
  dsimp only at hs
  split at hs
  · rw [List.map_append, List.mem_append, List.map_singleton, List.mem_singleton] at hs
    exact hs.symm
  · split at hs
    · exact .inr ((Keyed.discard_sublist.map _).subset hs)
    · have hm : (Keyed.revise Domain.Position.symbol e.symbol (netted e) ctx.positions).map Domain.Position.symbol =
          ctx.positions.map Domain.Position.symbol := Keyed.map_key_revise fun _ h => h
      rw [hm] at hs
      exact .inr hs

/-- The import of a row gives a position to its own symbol at most. -/
theorem symbols_upsert (now : Rat) (done : Synced) (bp : BrokerPosition) :
    ((upsert now done bp).ctx.positions.map Domain.Position.symbol).toFinset ⊆
      insert bp.symbol (done.ctx.positions.map Domain.Position.symbol).toFinset := by
  intro symbol hs
  rw [List.mem_toFinset, upsert] at hs
  rw [Finset.mem_insert, List.mem_toFinset]
  dsimp only at hs
  split at hs
  · rw [List.map_append, List.mem_append, List.map_singleton, List.mem_singleton] at hs
    exact hs.symm
  · have hm : (Keyed.revise Domain.Position.symbol bp.symbol
        (fun _ => Engines.imported bp (done.ctx.position bp.symbol)) done.ctx.positions).map Domain.Position.symbol =
          done.ctx.positions.map Domain.Position.symbol := Keyed.map_key_revise fun _ _ => rfl
    rw [hm] at hs
    exact .inr hs

/-- No other act gives a position to a symbol. -/
theorem symbols_act {a : BookAct} (hf : ∀ e, a ≠ .fill e) (hr : ∀ bp now, a ≠ .importRow bp now) :
    ((s.loop.act RiskLoop.equity a).ctx.positions.map Domain.Position.symbol).toFinset ⊆ s.held := by
  cases a with
  | tick | announceHalt | add | release => exact subset_rfl
  | fill e => exact absurd rfl (hf e)
  | importRow bp now => exact absurd rfl (hr bp now)
  | reprice symbol close =>
    have hm : (s.loop.act RiskLoop.equity (.reprice symbol close)).ctx.positions.map Domain.Position.symbol =
        s.loop.ctx.positions.map Domain.Position.symbol := Keyed.map_key_revise fun _ h => h
    rw [hm]
    exact subset_rfl
  | dropUnreported symbols now =>
    intro symbol hs
    rw [List.mem_toFinset] at hs
    exact List.mem_toFinset.mpr ((List.filter_sublist.map _).subset hs)
  | importCash broker now =>
    have hm : (s.loop.act RiskLoop.equity (.importCash broker now)).ctx.positions = s.loop.ctx.positions :=
      positions_importCash broker
    rw [hm]
    exact subset_rfl
  | evaluate i =>
    have hc : (s.loop.act RiskLoop.equity (.evaluate i)).ctx = s.loop.ctx := ctx_evaluate _ i
    rw [hc]
    exact subset_rfl
  | halt i reason =>
    have hc : (s.loop.act RiskLoop.equity (.halt i reason)).ctx = s.loop.ctx := ctx_haltEngine reason i
    rw [hc]
    exact subset_rfl
  | resume i =>
    have hc : (s.loop.act RiskLoop.equity (.resume i)).ctx = s.loop.ctx := ctx_resumeEngine i
    rw [hc]
    exact subset_rfl

theorem unmoved_step (a : SessionAct) : Unmoved s.loop.own (s.step a).loop.own := by
  cases a with
  | signal signal quote => exact unmoved_act _
  | fill i e =>
    rw [step]
    split
    · exact unmoved_act _
    · exact ⟨rfl, rfl⟩
  | finish i => exact ⟨rfl, rfl⟩
  | book a =>
    cases a with
    | fill e => exact ⟨rfl, rfl⟩
    | tick | reprice | importRow | dropUnreported | importCash | evaluate | halt | resume | announceHalt | add | release =>
      exact unmoved_act _

structure CappedAt (s : CappedSession) (cap : Nat) : Prop where
  cap : s.loop.own.limits.maxPositions = some cap
  all : s.loop.own.strategy = none

theorem CappedAt.step (h : CappedAt s cap) (a : SessionAct) : CappedAt (s.step a) cap := by
  have hu := @unmoved_step s a
  exact ⟨by rw [hu.limits, h.cap], by rw [hu.strategy, h.all]⟩

/-- What the verdict on a signal counts are the open positions. -/
private theorem CappedAt.count (h : CappedAt s cap) (quote : String → Option (Rat × Rat)) :
    (s.loop.evaluate s.loop.equity none).own.limits.maxPositions = some cap ∧
      (s.loop.evaluate s.loop.equity none).own.positionCount { readingOf s.loop.ctx with quote } =
        s.loop.ctx.positions.length := by
  have hu : Unmoved s.loop.own (s.loop.evaluate s.loop.equity none).own := @unmoved_act s.loop RiskLoop.equity (.evaluate none)
  refine ⟨by rw [hu.limits, h.cap], ?_⟩
  rw [RiskEngine.positionCount, hu.strategy, h.all]
  exact List.length_map _

variable {signal : SignalGenerated} {quote : String → Option (Rat × Rat)}

/-- A signal is approved only while fewer positions are open than the cap. -/
theorem CappedAt.length_lt (h : CappedAt s cap) (ha : s.verdict signal quote = none) :
    s.loop.ctx.positions.length < cap := by
  obtain ⟨hm, hc⟩ := h.count quote
  rw [← hc]
  exact count_of_approved hm ha

/-- A signal is turned down for the cap only while as many positions are open. -/
theorem CappedAt.le_length (h : CappedAt s cap) {c : Nat} (hr : s.verdict signal quote = some (.maxPositions c)) :
    c = cap ∧ cap ≤ s.loop.ctx.positions.length := by
  obtain ⟨hm, hc⟩ := h.count quote
  rw [← hc]
  exact count_of_maxPositions hm hr

theorem held_signal : (s.step (.signal signal quote)).held = s.held :=
  congrArg (fun ctx : TradingContext => (ctx.positions.map Domain.Position.symbol).toFinset) (ctx_evaluate _ _)

private theorem pending_concat (intent : OrderIntent) (orders : List OrderIntent) :
    ((orders ++ [intent]).map OrderIntent.symbol).toFinset =
      insert intent.symbol (orders.map OrderIntent.symbol).toFinset := by
  rw [List.map_append, List.toFinset_append, List.map_singleton, List.toFinset_cons, List.toFinset_nil,
    Finset.union_comm]
  rfl

private theorem step_book {a : BookAct} (hf : ∀ e, a ≠ .fill e) (hr : ∀ bp now, a ≠ .importRow bp now) :
    s.step (.book a) = { s with loop := s.loop.act RiskLoop.equity a } := by
  cases a with
  | fill e => exact absurd rfl (hf e)
  | importRow bp now => exact absurd rfl (hr bp now)
  | _ => rfl

/-- An act on the books that brings no position takes no place. -/
private theorem move_book {a : BookAct} (hf : ∀ e, a ≠ .fill e) (hr : ∀ bp now, a ≠ .importRow bp now) :
    Admission.Move cap slack s.admission (s.step (.book a)).admission := by
  rw [step_book hf hr]
  exact .release (symbols_act hf hr)

/-- Each act of a session is a move of its admissions. -/
theorem CappedAt.move (h : CappedAt s cap) {a : SessionAct} (hw : s.Awaits slack a) :
    Admission.Move cap slack s.admission (s.step a).admission := by
  cases a with
  | signal signal quote =>
    cases hv : s.verdict signal quote with
    | none =>
      have hlt : s.held.card < cap := by
        refine (List.toFinset_card_le _).trans_lt ?_
        rw [List.length_map]
        exact h.length_lt hv
      have hadm : (s.step (.signal signal quote)).admission =
          { s.admission with pending := insert signal.symbol s.admission.pending } := by
        rw [admission, held_signal, CappedSession.step, hv]
        dsimp only
        rw [pending_concat]
        rfl
      rw [hadm]
      exact .enrol signal.symbol hlt (hw hv)
    | some refusal =>
      have hadm : (s.step (.signal signal quote)).admission = s.admission := by
        rw [admission, held_signal, CappedSession.step, hv]
        rfl
      rw [hadm]
      exact .release (Finset.Subset.refl s.held)
  | fill i e =>
    rw [CappedSession.step]
    split
    · next hi =>
      obtain ⟨intent, hget, hsym⟩ := (Option.any_eq_true _ _).mp hi
      refine @Admission.Move.land _ _ _ _ s.admission e.symbol _ ?_ (symbols_onFilled e s.loop.ctx)
      apply List.mem_toFinset.mpr
      rw [← of_decide_eq_true hsym]
      exact List.mem_map_of_mem (List.mem_of_getElem? hget)
    · exact .release (Finset.Subset.refl s.held)
  | finish i =>
    refine .settle ?_
    intro symbol hs
    apply List.mem_toFinset.mpr
    exact ((List.eraseIdx_sublist _ _).map _).subset (List.mem_toFinset.mp hs)
  | book a =>
    cases a with
    | fill e => exact .release (Finset.Subset.refl s.held)
    | importRow bp now =>
      have hadm : (s.step (.book (.importRow bp now))).admission =
          { s.admission with
            held := (s.step (.book (.importRow bp now))).held
            adopted := insert bp.symbol s.admission.adopted } := by
        show CappedSession.admission _ = Admission.mk _ _ _
        rw [admission, admission, CappedSession.step]
        dsimp only
        rw [List.toFinset_append, Finset.union_comm]
        rfl
      rw [hadm]
      exact .adopt (symbols_upsert now { ctx := s.loop.ctx } bp)
    | tick | reprice | dropUnreported | importCash | evaluate | halt | resume | announceHalt | add | release =>
      exact move_book (fun e h => by cases h) (fun bp now h => by cases h)

section Run
variable {cash : Rat} {limits : Limits} {instruments : Instruments} {m : Nat}

private theorem run_concat (acts : List SessionAct) (a : SessionAct) : s.run (acts ++ [a]) = (s.run acts).step a :=
  List.foldl_concat _ _ _ _

private theorem cappedAt_run (hm : limits.maxPositions = some m) (acts : List SessionAct) :
    CappedAt ((start cash limits instruments).run acts) m := by
  induction acts using List.reverseRecOn with
  | nil => exact ⟨hm, rfl⟩
  | append_singleton acts a ih =>
    rw [run_concat]
    exact ih.step a

private theorem card_owed_run (hm : limits.maxPositions = some m) {acts : List SessionAct}
    (hw : Trace.Each (fun pre a => ((start cash limits instruments).run pre).Awaits slack a) acts) :
    ((start cash limits instruments).run acts).admission.owed.card ≤ m + slack := by
  induction acts using List.reverseRecOn with
  | nil => exact Nat.zero_le _
  | append_singleton acts a ih =>
    obtain ⟨hw, ha⟩ := Trace.each_concat.mp hw
    rw [run_concat]
    exact ((cappedAt_run hm acts).move ha).card_owed_le (ih hw)

/-- The cap on positions gates signals by the positions that are open when they are raised. In every session a signal,
whatever it does to a position, is approved only while fewer are open than the cap, and turned down for the cap only
while as many are. So the symbols in position, but for those imported, exceed the cap by no more than the
symbols that awaited a first fill where a signal was approved; by none, if there were none. -/
theorem max_positions_gates (cash : Rat) (instruments : Instruments) (hm : limits.maxPositions = some m)
    (acts : List SessionAct) :
    let s := (start cash limits instruments).run acts
    (∀ slack, Trace.Each (fun pre a => ((start cash limits instruments).run pre).Awaits slack a) acts →
      (s.held \ s.imported.toFinset).card ≤ m + slack) ∧
    ∀ signal quote,
      (s.verdict signal quote = none → s.loop.ctx.positions.length < m) ∧
      ∀ c, s.verdict signal quote = some (.maxPositions c) → c = m ∧ m ≤ s.loop.ctx.positions.length := by
  refine ⟨?_, ?_⟩
  · intro slack hw
    exact (Admission.card_held_le _).trans (card_owed_run hm hw)
  · intro signal quote
    have hc := @cappedAt_run cash limits instruments m hm acts
    exact ⟨hc.length_lt, fun c => hc.le_length⟩

end Run

private def onePosition : Limits := { maxPositions := some 1 }

private def buyOf (symbol : String) : SignalGenerated := { symbol, exchange := "NSE", side := "BUY", quantity := 10 }

private def boughtOf (symbol : String) : OrderFilled :=
  { orderId := "1", symbol, exchange := "NSE", side := "BUY", quantity := 10, fillPrice := 100 }

private def twoAtWork : List SessionAct :=
  [.signal (buyOf "TCS") fun _ => none, .signal (buyOf "INFY") fun _ => none, .fill 0 (boughtOf "TCS"),
    .fill 1 (boughtOf "INFY")]

private def oneFilled : List SessionAct :=
  [.signal (buyOf "TCS") fun _ => none, .fill 0 (boughtOf "TCS"), .finish 0]

theorem one_position_at_a_time :
    let s := (start 100000 onePosition Dict.empty).run oneFilled
    (∀ slack, Trace.Each (fun pre a => ((start 100000 onePosition Dict.empty).run pre).Awaits slack a) oneFilled →
      (s.held \ s.imported.toFinset).card ≤ 1 + slack) ∧
    ∀ signal quote,
      (s.verdict signal quote = none → s.loop.ctx.positions.length < 1) ∧
      ∀ c, s.verdict signal quote = some (.maxPositions c) → c = 1 ∧ 1 ≤ s.loop.ctx.positions.length :=
  max_positions_gates 100000 Dict.empty rfl oneFilled

/-- Under a cap of one position two are opened, and the sale of the only one is turned down. -/
theorem cap_passed_and_exit_trapped :
    ((start 100000 onePosition Dict.empty).run twoAtWork).loop.ctx.positions.map
        (fun p => (p.symbol, p.quantity)) = [("TCS", 10), ("INFY", 10)] ∧
      ((start 100000 onePosition Dict.empty).run oneFilled).loop.ctx.positions.map
        (fun p => (p.symbol, p.quantity)) = [("TCS", 10)] ∧
      ((start 100000 onePosition Dict.empty).run oneFilled).verdict { buyOf "TCS" with side := "SELL" } (fun _ => none) =
        some (.maxPositions 1) := by
  decide +kernel

end CappedSession
end NTrade.Runner
