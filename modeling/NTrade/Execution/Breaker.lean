import NTrade.Execution.BrokerExecutor

/-! The circuit breaker over a run of the execution target: no step touches it except
through its own operations, so what these keep holds in every later state. -/
namespace NTrade.Execution
open NTrade.Domain NTrade.Events

/-- A property that every operation of a run keeps; a run never releases the latch. -/
structure CircuitBreaker.Kept (P : CircuitBreaker → Prop) : Prop where
  success : ∀ b, P b → P b.onSuccess
  failure : ∀ b now, P b → P (b.onFailure now)
  probe : ∀ b now, P b → P (b.maybeReset now).2
  kill : ∀ b now, P b → P (b.tripKill now)

theorem CircuitBreaker.latched_kept : CircuitBreaker.Kept CircuitBreaker.Latched where
  success b h := by rwa [h.onSuccess]
  failure b now h := h.onFailure now
  probe b now h := h.maybeReset now
  kill b now _ := b.tripKill_latched now

mutual
def Act.readings : Act → List Rat
  | .other _ handlers => actReadings handlers
  | .approved _ _ _ onIntent onAccepted onFilled onRejected =>
    actReadings onIntent ++ actReadings onAccepted ++ actReadings onFilled ++ actReadings onRejected
  | .tripKill mono _ => [mono]
  | .cancel _ _ => []
  | .executed _ _ _ => []
  | .cancelTook _ => []

def actReadings : List Act → List Rat
  | [] => []
  | a :: as => a.readings ++ actReadings as
end

def PollInput.handlerReadings (i : PollInput) : List Rat :=
  actReadings i.onTimeout ++ actReadings i.onUpdated ++ actReadings i.onFilled ++ actReadings i.onRejected

variable {cfg : Config} {P : CircuitBreaker → Prop} {orderId : String}

private def Has (P : CircuitBreaker → Prop) (w : World) : Prop := P w.exec.breaker

private theorem has_publish {e : Event} {handlers : World → World} (hh : ∀ w, Has P w → Has P (handlers w))
    {w : World} (h : Has P w) : Has P (w.publish e handlers) := hh w.enter h

private theorem has_foldl {β : Type} {f : World → β → World} (hf : ∀ w b, Has P w → Has P (f w b)) (bs : List β)
    {w : World} (h : Has P w) : Has P (bs.foldl f w) := by
  induction bs generalizing w with
  | nil => exact h
  | cons b bs ih => exact ih (hf w b h)

private theorem has_cancel (ok : Bool) (w : World) (h : Has P w) : Has P (cancel orderId ok w) := by
  unfold cancel
  split
  · exact h
  · split
    · exact h
    · exact h

private theorem has_tripKillSwitch {mono : Rat} (hP : ∀ b, P b → P (b.tripKill mono)) (ok : String → Bool) (w : World)
    (h : Has P w) : Has P (tripKillSwitch mono ok w) :=
  hP _ (has_foldl (fun w orderId => has_cancel (ok orderId) w) _ h)

section Placement
variable {onIntent onAccepted onFilled onRejected : World → World}

private theorem has_emitFill {intent : OrderIntent} {order : Order} {emitting : Bool} {now : Rat}
    (hf : ∀ w, Has P w → Has P (onFilled w)) (w : World) (h : Has P w) :
    Has P (emitFill cfg orderId intent order emitting now onFilled w) := by
  unfold emitFill
  dsimp only
  split
  · exact h
  · next fill _ =>
    have hpub : Has P (w.publish (.filled fill) onFilled) := has_publish hf h
    cases emitting <;> split <;> exact hpub

private theorem has_acknowledge {intent : OrderIntent} {order : Order} {now : Rat}
    (ha : ∀ w, Has P w → Has P (onAccepted w)) (hf : ∀ w, Has P w → Has P (onFilled w)) (w : World)
    (h : Has P w) : Has P (acknowledge cfg orderId intent order now onAccepted onFilled w) := by
  have hpub : Has P (w.publish (.accepted (acceptance orderId intent)) onAccepted) := has_publish ha h
  unfold acknowledge
  dsimp only
  split
  · exact has_emitFill hf _ hpub
  · exact hpub

private theorem has_submit {intent : OrderIntent} {key : Nat} {p : Placement} {now : Rat}
    (ha : ∀ w, Has P w → Has P (onAccepted w)) (hf : ∀ w, Has P w → Has P (onFilled w)) (w : World)
    (h : Has P w) : Has P (submit cfg intent key p now onAccepted onFilled w).1 := by
  unfold submit
  split
  · exact h
  · dsimp only
    split
    · exact h
    · exact h
    · unfold place
      split
      · exact h
      · exact h
      · exact has_acknowledge ha hf _ h

private theorem has_onSignalApproved {signal : SignalGenerated} {p : Placement} {now : Rat}
    (hi : ∀ w, Has P w → Has P (onIntent w)) (ha : ∀ w, Has P w → Has P (onAccepted w))
    (hf : ∀ w, Has P w → Has P (onFilled w)) (hr : ∀ w, Has P w → Has P (onRejected w)) (w : World)
    (h : Has P w) : Has P (onSignalApproved cfg signal p now onIntent onAccepted onFilled onRejected w) := by
  unfold onSignalApproved
  extract_lets intent done
  have hdone : Has P done.1 := has_submit ha hf _ (has_publish hi h)
  split
  · exact has_publish hr hdone
  · exact hdone

end Placement

mutual
private theorem has_runAct (a : Act) (hP : ∀ t ∈ a.readings, ∀ b, P b → P (b.tripKill t)) (w : World) (h : Has P w) :
    Has P (runAct cfg a w) := by
  match a with
  | .other name handlers => exact has_publish (has_runActs handlers fun t ht => hP t (by simpa [Act.readings] using ht)) h
  | .approved signal p now onIntent onAccepted onFilled onRejected =>
    exact has_publish (has_onSignalApproved (has_runActs onIntent fun t ht => hP t (by simp [Act.readings, ht]))
      (has_runActs onAccepted fun t ht => hP t (by simp [Act.readings, ht]))
      (has_runActs onFilled fun t ht => hP t (by simp [Act.readings, ht]))
      (has_runActs onRejected fun t ht => hP t (by simp [Act.readings, ht]))) h
  | .cancel orderId ok => exact has_cancel ok w h
  | .tripKill mono ok => exact has_tripKillSwitch (hP mono (by simp [Act.readings])) ok w h
  | .executed orderId quantity price => exact h
  | .cancelTook orderId => exact h

private theorem has_runActs (as : List Act) (hP : ∀ t ∈ actReadings as, ∀ b, P b → P (b.tripKill t)) (w : World)
    (h : Has P w) : Has P (runActs cfg as w) := by
  match as with
  | [] => exact h
  | a :: as =>
    exact has_runActs as (fun t ht => hP t (by simp [actReadings, ht])) _
      (has_runAct a (fun t ht => hP t (by simp [actReadings, ht])) w h)
end

/-- What a kill keeps the handlers of an event keep. -/
theorem runAct_breaker (a : Act) (hP : ∀ t ∈ a.readings, ∀ b, P b → P (b.tripKill t)) (w : World) (h : P w.exec.breaker) :
    P (runAct cfg a w).exec.breaker := has_runAct a hP w h

theorem submit_breaker {intent : OrderIntent} {key : Nat} {p : Placement} {now : Rat} {onAccepted onFilled : List Act}
    (hP : ∀ t ∈ actReadings onAccepted ++ actReadings onFilled, ∀ b, P b → P (b.tripKill t)) (w : World)
    (h : P w.exec.breaker) :
    P (submit cfg intent key p now (runActs cfg onAccepted) (runActs cfg onFilled) w).1.exec.breaker :=
  has_submit (has_runActs onAccepted fun t ht => hP t (List.mem_append_left _ ht))
    (has_runActs onFilled fun t ht => hP t (List.mem_append_right _ ht)) w h

section Poll
variable (i : PollInput) (hP : ∀ t ∈ i.handlerReadings, ∀ b, P b → P (b.tripKill t)) (w : World)
include hP

private theorem has_checkTimeout (h : Has P w) : Has P (checkTimeout cfg orderId i w) := by
  unfold checkTimeout
  split
  · exact h
  · split
    · exact h
    · exact has_publish (has_runActs i.onTimeout fun t ht => hP t (by simp [PollInput.handlerReadings, ht])) h

private theorem has_checkStatus (h : Has P w) : Has P (checkStatus cfg orderId i w) := by
  unfold checkStatus
  split
  · exact h
  · split
    · exact h
    · next r _ _ =>
      have hnote : Has P (w.update orderId Record.note (.noted orderId r.order.status)) := h
      exact has_publish (has_runActs i.onUpdated fun t ht => hP t (by simp [PollInput.handlerReadings, ht])) hnote

private theorem has_checkFill (h : Has P w) : Has P (checkFill cfg orderId i w) := by
  unfold checkFill
  split
  · exact h
  · exact has_emitFill (has_runActs i.onFilled fun t ht => hP t (by simp [PollInput.handlerReadings, ht])) w h

private theorem has_settle (h : Has P w) : Has P (settle cfg orderId i w) := by
  have hreject (e : OrderRejected) :
      Has P ((w.emit (.rejected e)).publish (.rejected e) (runActs cfg i.onRejected)) :=
    has_publish (w := w.emit (.rejected e)) (has_runActs i.onRejected fun t ht => hP t (by simp [PollInput.handlerReadings, ht])) h
  unfold settle
  split
  · exact h
  · dsimp only
    split
    · exact h
    · split
      · exact h
      · exact hreject _
    · split
      · exact h
      · exact hreject _
    · exact h
    · exact h

private theorem has_advance (h : Has P w) : Has P (advance cfg orderId i w) :=
  has_settle i hP _ (has_checkFill i hP _ (has_checkStatus i hP _ (has_checkTimeout i hP w h)))

/-- What a kill keeps the part of a poll after the refresh keeps. -/
theorem advance_breaker (h : P w.exec.breaker) : P (advance cfg orderId i w).exec.breaker := has_advance i hP w h

omit hP in
private theorem has_countStale (h : Has P w) : Has P (countStale cfg orderId w) := by
  unfold countStale
  dsimp only
  split
  · exact h
  · split
    · exact h
    · exact h

omit hP in
private theorem has_touch (status : Option OrderStatus) (h : Has P w) : Has P (touch orderId status w) := by
  unfold touch
  split
  · exact h
  · exact h

omit hP in
/-- Failures are counted past the breaker. -/
theorem countStale_breaker : (countStale cfg orderId w).exec.breaker = w.exec.breaker :=
  has_countStale (P := (· = w.exec.breaker)) w rfl

omit hP in
theorem touch_breaker (status : Option OrderStatus) : (touch orderId status w).exec.breaker = w.exec.breaker :=
  has_touch (P := (· = w.exec.breaker)) w status rfl

end Poll

section Visit
variable (hP : CircuitBreaker.Kept P) (i : PollInput) (w : World)
include hP

private theorem has_refresh (h : Has P w) : Has P (refresh cfg orderId i w) := by
  unfold refresh
  dsimp only
  split
  · next report _ =>
    have hok : Has P (((w.log (.asked orderId)).setBreaker w.exec.breaker.onSuccess).update orderId
        (·.refresh report) (.status orderId report)) := hP.success _ h
    exact has_advance i (fun t _ b => hP.kill b t) _ hok
  · exact has_touch _ _ h
  · next touched mono _ =>
    have htouch : Has P (touch orderId touched (w.log (.asked orderId))) := has_touch _ _ h
    exact has_countStale _ (hP.failure _ mono htouch)

private theorem has_pollOne (h : Has P w) : Has P (pollOne cfg orderId i w) := by
  unfold pollOne
  split
  · exact h
  · split
    · have hstale : Has P (countStale cfg orderId w) := has_countStale w h
      dsimp only
      split
      · exact hstale
      · split
        · next b hb =>
          have hprobe := hP.probe _ i.mono hstale
          rw [hb] at hprobe
          exact has_refresh hP i _ hprobe
        · exact hstale
    · exact has_refresh hP i w h

end Visit

private theorem has_reconcileOpen (book : List OrderBookEntry) (now : Rat) (w : World) (h : Has P w) :
    Has P (reconcileOpen cfg book now w) := by
  unfold reconcileOpen
  refine has_foldl (fun w entry h => ?_) book h
  split
  · exact h
  · split
    · exact h
    · exact h

/-- Adoption does not touch the breaker. -/
theorem reconcileOpen_breaker (book : List OrderBookEntry) (now : Rat) (w : World) :
    (reconcileOpen cfg book now w).exec.breaker = w.exec.breaker :=
  has_reconcileOpen (P := (· = w.exec.breaker)) book now w rfl

/-- One step keeps what the operations of the breaker keep. -/
theorem step_breaker (hP : CircuitBreaker.Kept P) (s : Step) (w : World) (h : P w.exec.breaker) :
    P (step cfg w s).exec.breaker := by
  cases s with
  | act a => exact has_runAct a (fun t _ b => hP.kill b t) w h
  | submit intent correlationId p now onAccepted onFilled =>
    exact submit_breaker (fun t _ b => hP.kill b t) { w with issued := w.issued + 1 } h
  | poll inputs =>
    exact has_foldl (w := { w with emitted := [] }) (fun w orderId => has_pollOne hP (inputs orderId) w) _ h
  | reconcile book now => exact has_reconcileOpen book now w h
  | breakerSuccess => exact hP.success _ h
  | breakerFailure mono => exact hP.failure _ mono h

/-- So does a run. -/
theorem run_breaker (hP : CircuitBreaker.Kept P) (steps : List Step) (w : World) (h : P w.exec.breaker) :
    P (run cfg steps w).exec.breaker := by
  induction steps generalizing w with
  | nil => exact h
  | cons s steps ih => exact ih _ (step_breaker hP s w h)

end NTrade.Execution
