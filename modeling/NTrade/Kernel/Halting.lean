import NTrade.Kernel.TradingKernel

/-! Halts. The halted flag is one engine's, the halt is announced to the whole bus: trading
stops when every engine that still screens signals is halted by it. -/
namespace NTrade.Kernel
open NTrade.Events NTrade.Engines NTrade.Lib

/-- What starts and ends a stop: a halt announced on the bus or asked of the kernel's own
engine, and a resume. -/
def Obs.stops : Obs → Option Bool
  | .published (.riskHalted _ _) _ => some true
  | .haltCalled 0 _ => some true
  | .resumeCalled _ => some false
  | _ => none

def stopped (t : List Obs) : Bool := (Trace.last Obs.stops t).getD false

/-- A halt finds no engine that goes on screening without being halted, and none starts to
before the resume. -/
def haltReachesAll (pre : List Obs) : Obs → Bool
  | .published (.riskHalted _ _) awake => awake = []
  | .haltCalled 0 awake => awake = []
  | .subscribed _ halted => halted || !stopped pre
  | _ => true

def stopsOrders (pre : List Obs) : Obs → Bool
  | .published (.approved _) _ => !stopped pre
  | _ => true

section
variable {T A : Type*} {k k' : TradingKernel T} {id : Nat}

private structure Halts (k : TradingKernel T) : Prop where
  safe : Trace.Always haltReachesAll k.trace → stopped k.trace = true → ∀ id ∈ k.listening, k.isHalted id = true
  quiet : Trace.Always haltReachesAll k.trace → Trace.Always stopsOrders k.trace

/-- Fewer engines listening and more of them halted. -/
private theorem Halts.mono (hk : Halts k) (ht : k'.trace = k.trace) (hl : ∀ id ∈ k'.listening, id ∈ k.listening)
    (hh : ∀ id, k.isHalted id = true → k'.isHalted id = true) : Halts k' := by
  constructor
  · intro hall hstop id hid
    rw [ht] at hall hstop
    exact hh id (hk.safe hall hstop id (hl id hid))
  · intro hall
    rw [ht] at hall ⊢
    exact hk.quiet hall

private theorem stopped_concat (t : List Obs) (o : Obs) : stopped (t ++ [o]) = o.stops.getD (stopped t) := by
  rw [stopped, Trace.last_concat]
  cases o.stops <;> rfl

private theorem isHalted_of_awake (h : k.awake = []) (hid : id ∈ k.listening) : k.isHalted id = true := by
  have hf := List.filter_eq_nil_iff.mp h id hid
  simpa using hf

private theorem Halts.log {o : Obs} (hk : Halts k)
    (ho : o.stops = some true → haltReachesAll k.trace o = true → k.awake = [])
    (hq : Trace.Always haltReachesAll k.trace → stopsOrders k.trace o = true) : Halts (k.log o) := by
  constructor
  · intro hall hstop id hid
    obtain ⟨hpre, hlast⟩ := Trace.each_concat.mp hall
    have hstop : o.stops.getD (stopped k.trace) = true := (stopped_concat _ _).symm.trans hstop
    cases hs : o.stops with
    | none => exact hk.safe hpre (by rwa [hs] at hstop) id hid
    | some b =>
      rw [hs] at hstop
      cases hstop
      exact isHalted_of_awake (ho hs hlast) hid
  · intro hall
    obtain ⟨hpre, -⟩ := Trace.each_concat.mp hall
    exact Trace.each_concat.mpr ⟨hk.quiet hpre, hq hpre⟩

private theorem mem_listening_push {f : Frame} :
    id ∈ (k.push f).listening ↔ id ∈ f.listening ∨ id ∈ k.listening := by
  simp only [TradingKernel.listening, TradingKernel.push, List.flatMap_cons, List.mem_append]
  tauto

private theorem Halts.push {f : Frame} (hk : Halts k)
    (hf : Trace.Always haltReachesAll k.trace → stopped k.trace = true → ∀ id ∈ f.listening, k.isHalted id = true) :
    Halts (k.push f) := by
  refine ⟨fun hall hstop id hid => ?_, hk.quiet⟩
  rcases mem_listening_push.mp hid with hid | hid
  · exact hf hall hstop id hid
  · exact hk.safe hall hstop id hid

private theorem listening_of_topic {e : BusEvent} (hid : id ∈ (Frame.dispatch
    { event := e, pending := k.subscribers e.topic }).listening) : id ∈ k.listening := by
  cases e with
  | signal s => exact List.mem_append_left _ (List.mem_append_left _ hid)
  | _ => cases hid

private theorem Halts.publish {e : BusEvent} (hk : Halts k)
    (he : Trace.Always haltReachesAll k.trace → ∀ s, e = .approved s → stopped k.trace = false) :
    Halts (k.publish e) := by
  have hlog : Halts (k.log (.published e k.awake)) := by
    apply hk.log
    · intro hs hr
      cases e with
      | riskHalted reason equity => simpa [haltReachesAll] using hr
      | _ => cases hs
    · intro hall
      cases e with
      | approved s => simp [stopsOrders, he hall s rfl]
      | _ => rfl
  exact hlog.push fun hall hstop id hid => hlog.safe hall hstop id (listening_of_topic hid)

private theorem Halts.setEngine {e : RiskEngine} (hk : Halts k) (he : k.isHalted id = true → e.halted = true) :
    Halts (k.setEngine id e) := by
  refine hk.mono rfl (fun _ h => h) fun j hj => ?_
  unfold TradingKernel.isHalted TradingKernel.setEngine
  dsimp only
  rw [List.getElem?_set]
  split
  · next hij =>
    subst hij
    obtain ⟨e₀, he₀⟩ : ∃ e₀, k.engines[id]? = some e₀ := by
      cases he₀ : k.engines[id]? with
      | none => simp [TradingKernel.isHalted, he₀] at hj
      | some e₀ => exact ⟨e₀, rfl⟩
    have hlt : id < k.engines.length := (List.getElem?_eq_some_iff.mp he₀).1
    simpa [hlt] using he hj
  · exact hj

private theorem isHalted_of_get {e : RiskEngine} (he : k.engines[id]? = some e) : k.isHalted id = e.halted := by
  simp [TradingKernel.isHalted, he]

private theorem Halts.halt (hk : Halts k) (reason : HaltReason) (r : Reading) : Halts (k.halt id reason r) := by
  have hcall {k : TradingKernel T} (hk : Halts k) : Halts (k.log (.haltCalled id k.awake)) := by
    refine hk.log (fun hs hr => ?_) fun _ => rfl
    cases id with
    | zero => simpa [haltReachesAll] using hr
    | succ id => cases hs
  unfold TradingKernel.halt
  split
  · exact hk
  · split
    · exact hcall hk
    · refine (hcall (hk.setEngine fun _ => rfl)).publish fun _ s hs => ?_
      cases hs

private theorem Halts.resume (hk : Halts k) (r : Reading) : Halts (k.resume id r) := by
  unfold TradingKernel.resume
  split
  · exact hk
  · next e he =>
    have hcall : Halts (k.log (.resumeCalled id)) := hk.log (fun hs => by cases hs) fun _ => rfl
    have hfree : stopped (k.log (.resumeCalled id)).trace = false := stopped_concat _ _
    extract_lets k₁
    split
    · refine Halts.publish ⟨fun _ hstop => ?_, hcall.quiet⟩ fun _ s hs => ?_
      · exact absurd hstop (by rw [show ((k₁.setEngine id _).trace) = k₁.trace from rfl, hfree]; exact Bool.false_ne_true)
      · cases hs
    · exact hcall

private theorem Halts.check (hk : Halts k) (r : Reading) : Halts (k.check id r) := by
  unfold TradingKernel.check
  split
  · exact hk
  · next e he =>
    have hset : Halts (k.setEngine id (e.updateBreakers r.equity).1) := by
      apply hk.setEngine
      intro hh
      rw [RiskEngine.updateBreakers_halted, ← isHalted_of_get he, hh, Bool.true_or]
    split
    · next e' hu => rwa [hu] at hset
    · next e' reason hu =>
      rw [hu] at hset
      refine hset.publish fun _ s hs => ?_
      cases hs

private theorem Halts.rebase (hk : Halts k) (balance : Rat) : Halts (k.rebase id balance) := by
  unfold TradingKernel.rebase
  split
  · exact hk
  · next e he =>
    apply hk.setEngine
    intro hh
    rw [isHalted_of_get he] at hh
    unfold RiskEngine.rebase
    split
    · exact hh
    · exact hh

/-- An engine that is halted during a stop turns the signal down. -/
private theorem Halts.verdict (hk : Halts k) (s : SignalGenerated) (r : Reading)
    (hid : Trace.Always haltReachesAll k.trace → stopped k.trace = true → k.isHalted id = true) :
    Halts (k.verdict id s r) := by
  unfold TradingKernel.verdict
  split
  · exact hk
  · next e he =>
    have hhalted : k.isHalted id = e.halted := isHalted_of_get he
    split
    · next hcheck =>
      refine (hk.setEngine fun hh => ?_).publish fun hall _ _ => ?_
      · exact hhalted ▸ hh
      · by_contra hstop
        have hh := hid hall (Bool.eq_true_of_not_eq_false hstop)
        rw [hhalted] at hh
        rw [RiskEngine.check_of_halted hh] at hcheck
        cases hcheck
    · refine (hk.setEngine fun hh => ?_).publish fun _ s hs => ?_
      · exact hhalted ▸ hh
      · cases hs

private theorem isHalted_setEngine {e : RiskEngine} (he : (k.engines[id]?).isSome) :
    (k.setEngine id e).isHalted id = e.halted := by
  obtain ⟨hlt, -⟩ := List.getElem?_eq_some_iff.mp (Option.isSome_iff_exists.mp he).choose_spec
  simp [TradingKernel.isHalted, TradingKernel.setEngine, hlt]

private theorem Halts.onSignal (hk : Halts k) (s : SignalGenerated) (r : Reading)
    (hid : Trace.Always haltReachesAll k.trace → stopped k.trace = true → k.isHalted id = true) :
    Halts (k.onSignal id s r) := by
  unfold TradingKernel.onSignal
  split
  · exact hk
  · next e he =>
    have hbreakers : (e.updateBreakers r.equity).1.halted = (e.halted || (e.updateBreakers r.equity).2.isSome) :=
      RiskEngine.updateBreakers_halted
    have hset : Halts (k.setEngine id (e.updateBreakers r.equity).1) := by
      apply hk.setEngine
      intro hh
      rw [hbreakers, ← isHalted_of_get he, hh, Bool.true_or]
    have hsome : (k.engines[id]?).isSome := by rw [he]; rfl
    split
    · split
      · next e' hu =>
        rw [hu] at hset hbreakers
        refine hset.verdict s r fun hall hstop => ?_
        rw [isHalted_setEngine hsome, hbreakers, ← isHalted_of_get he, hid hall hstop, Bool.true_or]
      · next e' reason hu =>
        rw [hu] at hset hbreakers
        refine (hset.push fun _ _ j hj => ?_).publish fun _ s hs => ?_
        · obtain rfl : j = id := by simpa [Frame.listening] using hj
          rw [isHalted_setEngine hsome, hbreakers, Option.isSome_some, Bool.or_true]
        · cases hs
    · exact hk

private theorem mem_engineIds {hs : List Handler} : id ∈ engineIds hs ↔ Handler.riskEngine id ∈ hs := by
  unfold engineIds
  rw [List.mem_filterMap]
  constructor
  · rintro ⟨h, hh, he⟩
    cases h <;> cases he
    exact hh
  · intro hh
    exact ⟨_, hh, rfl⟩

/-- The engines that listen, by where they stand. -/
private theorem mem_listening : id ∈ k.listening ↔ Handler.riskEngine id ∈ k.subscribers .signalGenerated ∨
    Handler.riskEngine id ∈ k.subscribers .base ∨ ∃ f ∈ k.stack, id ∈ f.listening := by
  simp only [TradingKernel.listening, List.mem_append, mem_engineIds, List.mem_flatMap, or_assoc]

private theorem mem_subscribe (topic : Topic) {t : Topic} {h h' : Handler} (hne : h ≠ h')
    (hm : h ∈ (k.subscribe topic h').subscribers t) : h ∈ k.subscribers t := by
  rw [TradingKernel.subscribers_subscribe] at hm
  split at hm
  · next ht =>
    subst ht
    simpa [hne] using hm
  · exact hm

private theorem Halts.subscribe (hk : Halts k) (topic : Topic) {h : Handler} (hh : ∀ id, .riskEngine id ≠ h) :
    Halts (k.subscribe topic h) := by
  refine hk.mono rfl (fun id hid => ?_) fun _ h => h
  rcases mem_listening.mp hid with hm | hm | hm
  · exact mem_listening.mpr (.inl (mem_subscribe topic (hh id) hm))
  · exact mem_listening.mpr (.inr (.inl (mem_subscribe topic (hh id) hm)))
  · exact mem_listening.mpr (.inr (.inr hm))

private theorem mem_unsubscribe {topic t : Topic} {h h' : Handler}
    (hm : h ∈ (k.unsubscribe topic h').subscribers t) : h ∈ k.subscribers t := by
  rw [TradingKernel.subscribers_unsubscribe] at hm
  split at hm
  · next ht =>
    subst ht
    exact List.mem_of_mem_erase hm
  · exact hm

private theorem Halts.unsubscribe (hk : Halts k) (topic : Topic) (h : Handler) : Halts (k.unsubscribe topic h) := by
  refine hk.mono rfl (fun id hid => ?_) fun _ h => h
  rcases mem_listening.mp hid with hm | hm | hm
  · exact mem_listening.mpr (.inl (mem_unsubscribe hm))
  · exact mem_listening.mpr (.inr (.inl (mem_unsubscribe hm)))
  · exact mem_listening.mpr (.inr (.inr hm))

private theorem Halts.subscribeEngine (hk : Halts k) : Halts (k.subscribeEngine id) := by
  constructor
  · intro hall hstop j hj
    obtain ⟨hpre, hlast⟩ := Trace.each_concat.mp hall
    have hstop : stopped k.trace = true := (stopped_concat _ _).symm.trans hstop
    have hid : k.isHalted id = true := by
      have hlast : (k.isHalted id || !stopped k.trace) = true := hlast
      simpa [hstop] using hlast
    by_cases hji : j = id
    · subst hji
      exact hid
    · have hne : Handler.riskEngine j ≠ Handler.riskEngine id := fun h => hji (Handler.riskEngine.inj h)
      apply hk.safe hpre hstop
      rcases mem_listening.mp hj with hm | hm | hm
      · exact mem_listening.mpr (.inl (mem_subscribe .signalGenerated hne hm))
      · exact mem_listening.mpr (.inr (.inl (mem_subscribe .signalGenerated hne hm)))
      · exact mem_listening.mpr (.inr (.inr hm))
  · intro hall
    obtain ⟨hpre, -⟩ := Trace.each_concat.mp hall
    exact Trace.each_concat.mpr ⟨hk.quiet hpre, rfl⟩

private theorem Halts.pauseGlobalRisk (hk : Halts k) : Halts k.pauseGlobalRisk := by
  unfold TradingKernel.pauseGlobalRisk
  split
  · exact (hk.unsubscribe .signalGenerated (.riskEngine 0)).mono rfl (fun _ h => h) fun _ h => h
  · exact hk.mono rfl (fun _ h => h) fun _ h => h

private theorem Halts.add (hk : Halts k) (runner : Nat) (base : String) (limits : Limits) (balance : Rat) :
    Halts (k.add runner base limits balance) := by
  unfold TradingKernel.add
  split
  · exact hk
  · apply Halts.subscribeEngine
    refine hk.pauseGlobalRisk.mono rfl (fun _ h => h) fun j hj => ?_
    unfold TradingKernel.isHalted at hj ⊢
    cases he : k.pauseGlobalRisk.engines[j]? with
    | none => simp [he] at hj
    | some e =>
      have hlt : j < k.pauseGlobalRisk.engines.length := (List.getElem?_eq_some_iff.mp he).1
      rw [he] at hj
      simpa [TradingKernel.registerStrategy, List.getElem?_append_left hlt, he] using hj

private theorem Halts.release (hk : Halts k) (runner : Nat) : Halts (k.release runner) := by
  have hfold {ids : List Nat} {k : TradingKernel T} (hk : Halts k) :
      Halts (ids.foldl (fun k id => k.unsubscribe .signalGenerated (.riskEngine id)) k) := by
    induction ids generalizing k with
    | nil => exact hk
    | cons id ids ih => exact ih (hk.unsubscribe _ _)
  unfold TradingKernel.release
  split
  · exact hk
  · next r hr =>
    extract_lets k₁ k₂
    have h₂ : Halts k₂ := (hfold hk).mono rfl (fun _ h => h) fun _ h => h
    split
    · unfold TradingKernel.restoreGlobalRisk
      extract_lets k₃
      have h₃ : Halts k₃ := h₂.mono rfl (fun _ h => h) fun _ h => h
      split
      · exact h₃.subscribeEngine
      · exact h₃
    · exact h₂

variable {port : Port T A}

private theorem Halts.perform (hk : Halts k) (c : Call A) : Halts (perform port k c) := by
  cases c with
  | signal s => exact hk.publish fun _ s hs => by cases hs
  | publish name => exact hk.publish fun _ s hs => by cases hs
  | announceHalt reason => exact hk.publish fun _ s hs => by cases hs
  | halt id reason r => exact hk.halt reason r
  | resume id r => exact hk.resume r
  | check id r => exact hk.check r
  | rebase id balance => exact hk.rebase balance
  | registerStrategy name => exact hk.mono rfl (fun _ h => h) fun _ h => h
  | newRunner => exact hk.mono rfl (fun _ h => h) fun _ h => h
  | add runner base limits balance => exact hk.add runner base limits balance
  | release runner => exact hk.release runner
  | subscribe topic id => exact hk.subscribe topic fun _ h => by cases h
  | target a => exact hk.mono rfl (fun _ h => h) fun _ h => h

/-- The frames of a stack that listen to less. -/
private theorem Halts.setStack {stack : List Frame} (hk : Halts k)
    (h : ∀ f ∈ stack, ∀ id ∈ f.listening, id ∈ k.listening) : Halts (k.setStack stack) := by
  refine hk.mono rfl (fun id hid => ?_) fun _ h => h
  rcases mem_listening.mp hid with hm | hm | ⟨f, hf, hm⟩
  · exact mem_listening.mpr (.inl hm)
  · exact mem_listening.mpr (.inr (.inl hm))
  · exact h f hf id hm

private theorem Halts.handle {h : Handler} {e : BusEvent} {o : Outside} (hk : Halts k)
    (hh : ∀ id s, h = .riskEngine id → e = .signal s → Trace.Always haltReachesAll k.trace →
      stopped k.trace = true → k.isHalted id = true) : Halts (handle port h e o k) := by
  unfold Kernel.handle
  split
  · next id s => exact hk.onSignal s o.reading (hh id s rfl rfl)
  · exact hk.mono rfl (fun _ h => h) fun _ h => h
  · exact hk.mono rfl (fun _ h => h) fun _ h => h
  · exact hk

private theorem Halts.finish (hk : Halts k) (d : Dispatch) : Halts (finish d k) := by
  unfold Kernel.finish
  split
  · exact hk
  · exact hk.publish fun _ s hs => by cases hs

private theorem Halts.advance {o : Outside} {f : Frame} {rest : List Frame} (hk : Halts k) (hs : k.stack = f :: rest) :
    Halts (advance port o f rest k) := by
  have hrest : ∀ g ∈ rest, ∀ id ∈ g.listening, id ∈ k.listening := fun g hg id hid =>
    mem_listening.mpr (.inr (.inr ⟨g, by rw [hs]; exact List.mem_cons_of_mem _ hg, hid⟩))
  have htop : ∀ id ∈ f.listening, id ∈ k.listening := fun id hid =>
    mem_listening.mpr (.inr (.inr ⟨f, by rw [hs]; exact List.mem_cons_self, hid⟩))
  cases f with
  | screening id s =>
    refine (hk.setStack hrest).verdict s o.reading fun hall hstop => ?_
    exact hk.safe hall hstop id (htop id (List.mem_singleton.mpr rfl))
  | dispatch d =>
    simp only [Kernel.advance]
    split
    · exact hk
    · split
      · next h pending hp =>
        have hnext : Halts (k.setStack (.dispatch { d with pending, running := h.isOutside } :: rest)) := by
          apply hk.setStack
          intro g hg id hid
          rcases List.mem_cons.mp hg with rfl | hg
          · apply htop
            cases hd : d.event with
            | signal s =>
              simp only [Frame.listening, hd, mem_engineIds] at hid ⊢
              rw [hp]
              exact List.mem_cons_of_mem _ hid
            | _ => simp [Frame.listening, hd] at hid
          · exact hrest g hg id hid
        refine hnext.handle fun id s hh hd hall hstop => ?_
        apply hk.safe hall hstop
        apply htop
        simp [Frame.listening, hd, mem_engineIds, hp, hh]
      · split
        · apply hk.setStack
          intro g hg id hid
          rcases List.mem_cons.mp hg with rfl | hg
          · cases hd : d.event with
            | signal s =>
              simp only [Frame.listening, hd, mem_engineIds] at hid
              exact mem_listening.mpr (.inr (.inl hid))
            | _ => simp [Frame.listening, hd] at hid
          · exact hrest g hg id hid
        · exact (hk.setStack hrest).finish d

private theorem Halts.step (hk : Halts k) (m : Move A) : Halts (step port k m) := by
  cases m with
  | call c =>
    simp only [Kernel.step]
    split
    · exact hk.perform c
    · exact hk
  | next o =>
    simp only [Kernel.step]
    split
    · exact hk
    · next f rest hs => exact hk.advance hs
  | ret raised =>
    obtain he | ⟨d, rest, d', errors, limit, hs, hevent, hpending, he⟩ := step_ret port k raised
    · rw [he]
      exact hk
    · have htop : Halts (k.setStack (.dispatch d' :: rest)) := by
        apply hk.setStack
        intro g hg id hid
        refine mem_listening.mpr (.inr (.inr ?_))
        rw [hs]
        rcases List.mem_cons.mp hg with rfl | hg
        · refine ⟨.dispatch d, List.mem_cons_self, ?_⟩
          simpa only [Frame.listening, hevent, hpending] using hid
        · exact ⟨g, List.mem_cons_of_mem _ hg, hid⟩
      rw [he]
      exact htop.mono rfl (fun _ h => h) fun _ h => h

private theorem Halts.run (hk : Halts k) (moves : List (Move A)) : Halts (run port moves k) := by
  induction moves generalizing k with
  | nil => exact hk
  | cons m moves ih => exact ih (hk.step m)

end

variable {T A : Type*}

/-- Where every halt reaches all engines that screen signals, and none that is not halted
joins them before the resume, no signal is approved during a stop. -/
theorem halt_stops_orders (port : Port T A) (k : TradingKernel T) (hs : k.trace = []) (moves : List (Move A))
    (h : Trace.Always haltReachesAll (run port moves k).trace) :
    Trace.Always stopsOrders (run port moves k).trace := by
  have hk : Halts k := by
    constructor
    · intro _ hstop
      rw [hs] at hstop
      cases hstop
    · intro _
      rw [hs]
      exact Trace.Each.nil _
  exact (hk.run moves).quiet h

def orbSignal : SignalGenerated where
  symbol := "TCS"
  exchange := "NSE"
  side := "BUY"
  quantity := 10
  strategy := "orb"

/-- A halt of the kernel's engine does not reach the engine of a strategy that was added
through a runner; a halt by the bus reaches no engine at all. -/
theorem halt_leaves_engines_screening :
    ¬ Trace.Always stopsOrders (run simulated [.call .newRunner, .call (.add 0 "orb" {} 0),
      .call (.halt 0 (.text "manual") {}), .next {}, .next {}, .call (.signal orbSignal), .next {}]
      (boot () 0 false)).trace ∧
    ¬ Trace.Always stopsOrders (run simulated [.call (.subscribe (.other "tick") 0), .call (.publish "tick"),
      .next {}, .ret true, .next {}, .next {}, .next {}, .next {}, .call (.signal orbSignal), .next {}]
      { boot () 0 false with maxHandlerErrors := some 1 }).trace := by
  decide +kernel

/-- A kernel that screens with its own engine only stops when that engine is halted, also
for a signal that a handler publishes while the halt is in dispatch. -/
theorem halt_stops_own_engine :
    Trace.Always stopsOrders (run simulated [.call (.subscribe .riskHalted 0), .call (.signal orbSignal), .next {},
      .next {}, .next {}, .next {}, .next {}, .call (.halt 0 (.text "manual") {}), .next {}, .next {},
      .call (.signal orbSignal), .next {}] (boot () 0 true)).trace :=
  halt_stops_orders simulated (boot () 0 true) rfl _ (by decide +kernel)

end NTrade.Kernel
