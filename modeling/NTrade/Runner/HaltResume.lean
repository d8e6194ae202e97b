import NTrade.Kernel.TradingKernel
import NTrade.Execution.Breaker

/-! Halt and resume of a live session. A halt latches the circuit breaker of the execution
target, a resume clears the runner's flag and the engine's, and nothing releases the latch. -/
namespace NTrade.Runner
open NTrade.Events NTrade.Engines NTrade.Execution NTrade.Kernel NTrade.Lib

def livePort (cfg : Config) : Port World Step where
  act s w := Execution.step cfg w s
  tripKillSwitch := tripKillSwitch

def BusEvent.isHalt : BusEvent → Bool
  | .riskHalted _ _ => true
  | _ => false

def wasHalted (t : List Kernel.Obs) : Bool :=
  t.any fun
    | .published e _ => BusEvent.isHalt e
    | _ => false

abbrev Restored (k : TradingKernel World) : Prop :=
  k.live.halted = false ∧ k.target.exec.breaker.state = .closed

variable {cfg : Config} {k k' : TradingKernel World} {was : Prop}

/-- A dispatch that has yet to hand a risk halt to the runner. -/
private def Owes (f : Frame) : Prop :=
  ∃ d, f = .dispatch d ∧ BusEvent.isHalt d.event = true ∧ Handler.liveRunner ∈ d.pending

private structure Trips (was : Prop) (k : TradingKernel World) : Prop where
  attached : Handler.liveRunner ∈ k.subscribers .riskHalted
  latched : wasHalted k.trace = true → k.target.exec.breaker.Latched ∨ ∃ f ∈ k.stack, Owes f
  held : was → k.target.exec.breaker.Latched

private theorem Trips.mono (hk : Trips was k) (hs : Handler.liveRunner ∈ k'.subscribers .riskHalted)
    (ht : wasHalted k'.trace = wasHalted k.trace)
    (hb : k.target.exec.breaker.Latched → k'.target.exec.breaker.Latched)
    (hf : ∀ f ∈ k.stack, Owes f → k'.target.exec.breaker.Latched ∨ ∃ g ∈ k'.stack, Owes g) : Trips was k' := by
  refine ⟨hs, fun hh => ?_, fun h => hb (hk.held h)⟩
  rw [ht] at hh
  rcases hk.latched hh with hl | ⟨f, hm, ho⟩
  · exact .inl (hb hl)
  · exact hf f hm ho

/-- The stack only grows, and the target is left alone. -/
private theorem Trips.grow (hk : Trips was k) (hs : Handler.liveRunner ∈ k'.subscribers .riskHalted)
    (ht : wasHalted k'.trace = wasHalted k.trace) (hb : k'.target = k.target)
    (hf : ∀ f ∈ k.stack, f ∈ k'.stack) : Trips was k' :=
  hk.mono hs ht (fun h => by rwa [hb]) fun f hm ho => .inr ⟨f, hf f hm, ho⟩

private theorem wasHalted_concat (t : List Kernel.Obs) (o : Kernel.Obs) :
    wasHalted (t ++ [o]) = (wasHalted t || wasHalted [o]) := by
  simp [wasHalted]

private theorem Trips.log {o : Kernel.Obs} (hk : Trips was k) (ho : wasHalted [o] = false) : Trips was (k.log o) :=
  hk.grow hk.attached (by rw [TradingKernel.log, wasHalted_concat, ho, Bool.or_false]) rfl fun _ h => h

private theorem Trips.publish (hk : Trips was k) (e : BusEvent) : Trips was (k.publish e) := by
  have hmem : ∀ f ∈ k.stack, f ∈ (k.publish e).stack := fun f hf => List.mem_cons_of_mem _ hf
  refine ⟨hk.attached, fun hh => ?_, hk.held⟩
  cases he : BusEvent.isHalt e with
  | false =>
    have hsame : wasHalted k.trace = true := by
      have hh := (wasHalted_concat k.trace (.published e k.awake)).symm.trans hh
      simpa [wasHalted, he] using hh
    exact (hk.latched hsame).imp_right fun ⟨f, hf, ho⟩ => ⟨f, hmem f hf, ho⟩
  | true =>
    refine .inr ⟨_, List.mem_cons_self, _, rfl, he, ?_⟩
    cases e with
    | riskHalted reason equity => exact hk.attached
    | _ => cases he

private theorem Trips.setEngine (hk : Trips was k) (id : Nat) (e : RiskEngine) : Trips was (k.setEngine id e) :=
  hk.grow hk.attached rfl rfl fun _ h => h

private theorem Trips.push (hk : Trips was k) (f : Frame) : Trips was (k.push f) :=
  hk.grow hk.attached rfl rfl fun _ h => List.mem_cons_of_mem _ h

private theorem Trips.subscribe (hk : Trips was k) (topic : Topic) (h : Handler) : Trips was (k.subscribe topic h) := by
  refine hk.grow ?_ rfl rfl fun _ h => h
  rw [TradingKernel.subscribers_subscribe]
  split
  · next ht => exact List.mem_append_left _ (ht ▸ hk.attached)
  · exact hk.attached

private theorem Trips.unsubscribe (hk : Trips was k) (topic : Topic) (id : Nat) :
    Trips was (k.unsubscribe topic (.riskEngine id)) := by
  refine hk.grow ?_ rfl rfl fun _ h => h
  rw [TradingKernel.subscribers_unsubscribe]
  split
  · next ht =>
    have hne : Handler.liveRunner ≠ .riskEngine id := fun h => by cases h
    exact (List.mem_erase_of_ne hne).mpr (ht ▸ hk.attached)
  · exact hk.attached

private theorem Trips.subscribeEngine (hk : Trips was k) (id : Nat) : Trips was (k.subscribeEngine id) :=
  (hk.subscribe .signalGenerated (.riskEngine id)).log rfl

private theorem Trips.halt (hk : Trips was k) (id : Nat) (reason : HaltReason) (r : Reading) :
    Trips was (k.halt id reason r) := by
  unfold TradingKernel.halt
  split
  · exact hk
  · split
    · exact hk.log rfl
    · exact ((hk.setEngine id _).log rfl).publish _

private theorem Trips.resume (hk : Trips was k) (id : Nat) (r : Reading) : Trips was (k.resume id r) := by
  have hcall : Trips was (k.log (.resumeCalled id)) := hk.log rfl
  unfold TradingKernel.resume
  split
  · exact hk
  · dsimp only
    split
    · exact (hcall.setEngine id _).publish _
    · exact hcall

private theorem Trips.check (hk : Trips was k) (id : Nat) (r : Reading) : Trips was (k.check id r) := by
  unfold TradingKernel.check
  split
  · exact hk
  · split
    · exact hk.setEngine id _
    · exact (hk.setEngine id _).publish _

private theorem Trips.rebase (hk : Trips was k) (id : Nat) (balance : Rat) : Trips was (k.rebase id balance) := by
  unfold TradingKernel.rebase
  split
  · exact hk
  · exact hk.setEngine id _

private theorem Trips.verdict (hk : Trips was k) (id : Nat) (s : SignalGenerated) (r : Reading) :
    Trips was (k.verdict id s r) := by
  unfold TradingKernel.verdict
  split
  · exact hk
  · split
    · exact (hk.setEngine id _).publish _
    · exact (hk.setEngine id _).publish _

private theorem Trips.onSignal (hk : Trips was k) (id : Nat) (s : SignalGenerated) (r : Reading) :
    Trips was (k.onSignal id s r) := by
  unfold TradingKernel.onSignal
  split
  · exact hk
  · split
    · split
      · exact (hk.setEngine id _).verdict id s r
      · exact ((hk.setEngine id _).push _).publish _
    · exact hk

private theorem Trips.add (hk : Trips was k) (runner : Nat) (base : String) (limits : Limits) (balance : Rat) :
    Trips was (k.add runner base limits balance) := by
  have hpause : Trips was k.pauseGlobalRisk := by
    unfold TradingKernel.pauseGlobalRisk
    split
    · exact (hk.unsubscribe .signalGenerated 0).grow (hk.unsubscribe .signalGenerated 0).attached rfl rfl fun _ h => h
    · exact hk.grow hk.attached rfl rfl fun _ h => h
  unfold TradingKernel.add
  split
  · exact hk
  · apply Trips.subscribeEngine
    exact hpause.grow hpause.attached rfl rfl fun _ h => h

private theorem Trips.release (hk : Trips was k) (runner : Nat) : Trips was (k.release runner) := by
  have hfold {ids : List Nat} {k : TradingKernel World} (hk : Trips was k) :
      Trips was (ids.foldl (fun k id => k.unsubscribe .signalGenerated (.riskEngine id)) k) := by
    induction ids generalizing k with
    | nil => exact hk
    | cons id ids ih => exact ih (hk.unsubscribe _ id)
  unfold TradingKernel.release
  split
  · exact hk
  · extract_lets k₁ k₂
    have h₁ : Trips was k₁ := hfold hk
    have h₂ : Trips was k₂ := h₁.grow h₁.attached rfl rfl fun _ h => h
    split
    · unfold TradingKernel.restoreGlobalRisk
      extract_lets k₃
      have h₃ : Trips was k₃ := h₂.grow h₂.attached rfl rfl fun _ h => h
      split
      · exact h₃.subscribeEngine 0
      · exact h₃
    · exact h₂

private theorem Trips.perform (hk : Trips was k) (c : Call Step) : Trips was (perform (livePort cfg) k c) := by
  cases c with
  | signal s => exact hk.publish _
  | publish name => exact hk.publish _
  | announceHalt reason => exact hk.publish _
  | halt id reason r => exact hk.halt id reason r
  | resume id r => exact hk.resume id r
  | check id r => exact hk.check id r
  | rebase id balance => exact hk.rebase id balance
  | registerStrategy name => exact hk.grow hk.attached rfl rfl fun _ h => h
  | newRunner => exact hk.grow hk.attached rfl rfl fun _ h => h
  | add runner base limits balance => exact hk.add runner base limits balance
  | release runner => exact hk.release runner
  | subscribe topic id => exact hk.subscribe topic (.other id)
  | target s =>
    exact hk.mono hk.attached rfl (step_breaker CircuitBreaker.latched_kept s k.target) fun f hf ho => .inr ⟨f, hf, ho⟩

/-- Calling the runner settles what the frame owes; the other handlers leave the target. -/
private theorem Trips.handle {h : Handler} {d d' : Dispatch} {rest : List Frame} {o : Outside} (hk : Trips was k)
    (hs : k.stack = .dispatch d :: rest) (hd : d.pending = h :: d'.pending) (he : d'.event = d.event) :
    Trips was (handle (livePort cfg) h d.event o (k.setStack (.dispatch d' :: rest))) := by
  have htrip : (tripKillSwitch o.mono o.cancels k.target).exec.breaker.Latched := CircuitBreaker.tripKill_latched _ _
  have hnext : h ≠ .liveRunner ∨ BusEvent.isHalt d.event = false → Trips was (k.setStack (.dispatch d' :: rest)) := by
    intro hh
    refine hk.mono hk.attached rfl (fun h => h) fun f hf ho => .inr ?_
    rw [hs] at hf
    rcases List.mem_cons.mp hf with rfl | hf
    · obtain ⟨_, hfd, hhalt, hmem⟩ := ho
      obtain rfl := (Frame.dispatch.inj hfd).symm
      refine ⟨_, List.mem_cons_self, d', rfl, he ▸ hhalt, ?_⟩
      rw [hd] at hmem
      rcases List.mem_cons.mp hmem with hl | hl
      · rcases hh with hh | hh
        · exact absurd hl.symm hh
        · rw [hh] at hhalt
          cases hhalt
      · exact hl
    · exact ⟨f, List.mem_cons_of_mem _ hf, ho⟩
  unfold Kernel.handle
  split
  · next id s _ => exact (hnext (.inl (by simp))).onSignal id s o.reading
  · exact ⟨hk.attached, fun _ => .inl htrip, fun _ => htrip⟩
  · next hev =>
    have hother := hnext (.inr (by rw [hev]; rfl))
    exact hother.grow hother.attached rfl rfl fun _ h => h
  · next _ hev _ =>
    apply hnext
    by_contra hc
    rw [not_or, not_not, Bool.not_eq_false] at hc
    obtain ⟨rfl, hhalt⟩ := hc
    cases hd' : d.event with
    | riskHalted reason equity => exact hev reason equity rfl hd'
    | _ =>
      rw [hd'] at hhalt
      cases hhalt

/-- A frame that owes nothing may go, or turn into another. -/
private theorem Trips.replace {f : Frame} {rest stack : List Frame} (hk : Trips was k) (hs : k.stack = f :: rest)
    (hf : Owes f → ∃ g ∈ stack, Owes g) (hr : ∀ g ∈ rest, g ∈ stack) : Trips was (k.setStack stack) := by
  refine hk.mono hk.attached rfl (fun h => h) fun g hg ho => .inr ?_
  rw [hs] at hg
  rcases List.mem_cons.mp hg with rfl | hg
  · exact hf ho
  · exact ⟨g, hr g hg, ho⟩

private theorem not_owes_screening (id : Nat) (s : SignalGenerated) : ¬ Owes (.screening id s) := by
  rintro ⟨d, hd, -⟩
  cases hd

private theorem not_owes_nil {d : Dispatch} (hp : d.pending = []) : ¬ Owes (.dispatch d) := by
  rintro ⟨d', hd, -, hm⟩
  cases hd
  rw [hp] at hm
  cases hm

private theorem Trips.advance {o : Outside} {f : Frame} {rest : List Frame} (hk : Trips was k) (hs : k.stack = f :: rest) :
    Trips was (advance (livePort cfg) o f rest k) := by
  cases f with
  | screening id s =>
    exact (hk.replace hs (fun h => absurd h (not_owes_screening id s)) fun _ h => h).verdict id s o.reading
  | dispatch d =>
    simp only [Kernel.advance]
    split
    · exact hk
    · split
      · next h pending hp => exact hk.handle hs hp rfl
      · next hp =>
        split
        · exact hk.replace hs (fun h => absurd h (not_owes_nil hp)) fun _ h => List.mem_cons_of_mem _ h
        · have hrest : Trips was (k.setStack rest) := hk.replace hs (fun h => absurd h (not_owes_nil hp)) fun _ h => h
          unfold finish
          split
          · exact hrest
          · exact hrest.publish _

private theorem Trips.step (hk : Trips was k) (m : Move Step) : Trips was (Kernel.step (livePort cfg) k m) := by
  cases m with
  | call c =>
    simp only [Kernel.step]
    split
    · exact hk.perform c
    · exact hk
  | next o =>
    simp only [Kernel.step]
    split
    · exact hk
    · next f rest hs => exact hk.advance hs
  | ret raised =>
    obtain he | ⟨d, rest, d', errors, limit, hs, hevent, hpending, he⟩ := step_ret (livePort cfg) k raised
    · rw [he]
      exact hk
    · have htop : Trips was (k.setStack (.dispatch d' :: rest)) := by
        refine hk.replace hs ?_ fun _ h => List.mem_cons_of_mem _ h
        rintro ⟨_, hfd, hhalt, hmem⟩
        obtain rfl := (Frame.dispatch.inj hfd).symm
        exact ⟨_, List.mem_cons_self, d', rfl, hevent ▸ hhalt, hpending ▸ hmem⟩
      rw [he]
      exact htop.grow hk.attached rfl rfl fun _ h => h

private theorem Trips.run (hk : Trips was k) (moves : List (Move Step)) :
    Trips was (Kernel.run (livePort cfg) moves k) := by
  induction moves generalizing k with
  | nil => exact hk
  | cons m moves ih => exact ih (hk.step m)

/-- A halt is never undone: in no state that follows it, whatever is resumed and polled, is
the runner restored. -/
theorem halt_is_never_undone (cfg : Config) (k : TradingKernel World)
    (hs : Handler.liveRunner ∈ k.subscribers .riskHalted) (ht : k.trace = []) (moves : List (Move Step))
    (hhalt : wasHalted (Kernel.run (livePort cfg) moves k).trace = true)
    (hidle : (Kernel.run (livePort cfg) moves k).stack = []) (later : List (Move Step)) :
    ¬ Restored (Kernel.run (livePort cfg) later (Kernel.run (livePort cfg) moves k)) := by
  have hstart : Trips False k := ⟨hs, fun hh => absurd hh (by rw [ht]; exact Bool.false_ne_true), False.elim⟩
  have htrips : Trips False (Kernel.run (livePort cfg) moves k) := hstart.run moves
  have hlatched : (Kernel.run (livePort cfg) moves k).target.exec.breaker.Latched := by
    rcases htrips.latched hhalt with hl | ⟨f, hf, -⟩
    · exact hl
    · rw [hidle] at hf
      cases hf
  have hlater : Trips True (Kernel.run (livePort cfg) moves k) :=
    ⟨htrips.attached, fun _ => .inl hlatched, fun _ => hlatched⟩
  rintro ⟨-, hclosed⟩
  exact ((hlater.run later).held trivial).2 hclosed

def haltSession : List (Move Step) :=
  [.call (.target (.submit marketBuy none (.placed (some "V1") ⟨.pending, some 0, some 0⟩) 0 [] [])),
    .call (.halt 0 (.text "manual") {}), .next { killAnswers := [true], cancels := fun _ => false }, .next {}, .next {}]

def resumeSession : List (Move Step) :=
  [.call (.resume 0 {}), .next { killAnswers := [true] }, .next {}, .next {},
    .call (.target (.poll fun _ => { mono := 30, refresh := .ok ⟨.pending, some 0, some 0⟩ }))]

def errorLimitSession : List (Move Step) :=
  [.call (.subscribe (.other "tick") 0), .call (.publish "tick"), .next {}, .ret true, .next {}, .next {},
    .next { killAnswers := [true] }, .next {}, .next {}, .call (.resume 0 {})]

def halted : TradingKernel World := Kernel.run (livePort oneStock) haltSession (boot {} 0 true)

def resumed : TradingKernel World := Kernel.run (livePort oneStock) resumeSession halted

def errorLimited : TradingKernel World :=
  Kernel.run (livePort oneStock) errorLimitSession { boot {} 0 true with maxHandlerErrors := some 1 }

/-- The resumed runner polls with success and the breaker stays half open; after a halt by the
bus the runner itself stays halted. -/
theorem resume_restores_nothing :
    (.status "V1" ⟨.pending, some 0, some 0⟩ ∈ resumed.target.trace ∧ resumed.live.halted = false ∧
      resumed.target.exec.breaker.state = .halfOpen ∧ ¬ Restored resumed) ∧
    (wasHalted errorLimited.trace = true ∧ errorLimited.stack.length = 0 ∧ errorLimited.live.halted = true ∧
      ¬ Restored errorLimited) := by
  decide +kernel

/-- The same session by the general result. -/
theorem resumed_is_not_restored : ¬ Restored (Kernel.run (livePort oneStock) resumeSession halted) :=
  halt_is_never_undone oneStock (boot {} 0 true) (by decide) rfl haltSession (by decide +kernel)
    (List.length_eq_zero_iff.mp (by decide +kernel)) resumeSession

end NTrade.Runner
