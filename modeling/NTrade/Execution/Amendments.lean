import NTrade.Execution.BrokerExecutor

/-! Orders that are modified while they are open. A modification is written into the order
that is tracked; nothing else that the execution target does reads what it writes. -/
namespace NTrade.Execution
open NTrade.Domain NTrade.Events NTrade.Lib

structure Amendment where
  price : Option Rat := none
  quantity : Option Int := none
  orderType : Option Domain.OrderType := none

def Amendment.apply (a : Amendment) (order : Order) : Order :=
  { order with
    price := a.price.getD order.price
    quantity := a.quantity.getD order.quantity
    orderType := a.orderType.getD order.orderType }

def Record.amend (a : Amendment) (r : Record) : Record := { r with order := a.apply r.order }

def modify (orderId : String) (a : Amendment) (ok : Bool) (w : World) : World :=
  match w.record orderId with
  | none => w
  | some _ => if ok then w.setOpen (w.exec.openOrders.modify orderId (Record.amend a)) else w

inductive AmendedStep where
  | step (s : Step)
  | modify (orderId : String) (a : Amendment) (ok : Bool)

structure Amended where
  world : World := {}
  /-- The quantity last accepted for an order that was open. -/
  quantities : Dict String Int := Dict.empty

namespace Amended

def step (cfg : Config) (s : Amended) : AmendedStep → Amended
  | .step st => { s with world := Execution.step cfg s.world st }
  | .modify orderId a ok =>
    { world := modify orderId a ok s.world
      quantities :=
        match s.world.record orderId, a.quantity with
        | some _, some quantity => if ok then s.quantities.set orderId quantity else s.quantities
        | _, _ => s.quantities }

def run (cfg : Config) (steps : List AmendedStep) : Amended := steps.foldl (step cfg) {}

end Amended

def unamended (steps : List AmendedStep) : List Step :=
  steps.filterMap fun
    | .step s => some s
    | .modify _ _ _ => none

def Record.blank (r : Record) : Record := { r with order := { r.order with price := 0, quantity := 0, orderType := .limit } }

structure Alike (w w' : World) : Prop where
  seq : w'.exec.seq = w.exec.seq
  idem : w'.exec.idem = w.exec.idem
  breaker : w'.exec.breaker = w.exec.breaker
  stack : w'.stack = w.stack
  issued : w'.issued = w.issued
  trace : w'.trace = w.trace
  emitted : w'.emitted = w.emitted
  orders : w'.exec.openOrders.map Record.blank = w.exec.openOrders.map Record.blank

/-- What is not read off what a modification writes. -/
theorem Record.eq_of_blank {β : Type} {r r' : Record} (h : r'.blank = r.blank) (f : Record → β) (hf : ∀ r, f r.blank = f r) :
    f r' = f r := by
  rw [← hf r', h, hf]

variable {cfg : Config} {w w' : World}

namespace Alike

theorem refl (w : World) : Alike w w := ⟨rfl, rfl, rfl, rfl, rfl, rfl, rfl, rfl⟩

/-- What a modification leaves is like what it finds. -/
theorem modified (h : Alike w w') (orderId : String) (a : Amendment) (ok : Bool) : Alike w (modify orderId a ok w') := by
  rw [modify]
  split
  · exact h
  · split
    · refine { h with orders := ?_ }
      show (w'.exec.openOrders.modify orderId (Record.amend a)).map Record.blank = _
      have hseen : ∀ r, (Record.amend a r).blank = r.blank := fun _ => rfl
      rw [Dict.map_modify_of_eq _ _ _ hseen, h.orders]
    · exact h

theorem keys (h : Alike w w') : w'.exec.openOrders.keys = w.exec.openOrders.keys := by
  have hk := congrArg Dict.keys h.orders
  rwa [Dict.keys_map, Dict.keys_map] at hk

theorem record (h : Alike w w') (orderId : String) :
    (w'.record orderId).map Record.blank = (w.record orderId).map Record.blank := by
  have hg := congrArg (fun d : Dict String Record => d.get orderId) h.orders
  rwa [Dict.get_map, Dict.get_map] at hg

theorem log (h : Alike w w') (o : Obs) : Alike (w.log o) (w'.log o) := { h with trace := congrArg (· ++ [o]) h.trace }

theorem setBreaker (h : Alike w w') (f : CircuitBreaker → CircuitBreaker) :
    Alike (w.setBreaker (f w.exec.breaker)) (w'.setBreaker (f w'.exec.breaker)) := { h with breaker := congrArg f h.breaker }

theorem stamp (h : Alike w w') : w'.stamp = w.stamp := by
  rw [World.stamp, World.stamp, h.stack, h.issued]

theorem update (h : Alike w w') (orderId : String) (f : Record → Record) (hf : ∀ r, (f r).blank = f r.blank) (o : Obs) :
    Alike (w.update orderId f o) (w'.update orderId f o) := by
  refine { h.log o with orders := ?_ }
  show (w'.exec.openOrders.modify orderId f).map Record.blank = (w.exec.openOrders.modify orderId f).map Record.blank
  rw [Dict.map_modify _ _ _ hf, Dict.map_modify _ _ _ hf, h.orders]

theorem put (h : Alike w w') (orderId : String) {r r' : Record} (hr : r'.blank = r.blank) (o : Obs) :
    Alike (w.put orderId r o) (w'.put orderId r' o) := by
  refine { h.log o with orders := ?_ }
  show (w'.exec.openOrders.set orderId r').map Record.blank = (w.exec.openOrders.set orderId r).map Record.blank
  rw [Dict.map_set, Dict.map_set, h.orders, hr]

theorem remove (h : Alike w w') (orderId : String) (o : Obs) : Alike (w.remove orderId o) (w'.remove orderId o) := by
  refine { h.log o with orders := ?_ }
  show (w'.exec.openOrders.pop orderId).map Record.blank = (w.exec.openOrders.pop orderId).map Record.blank
  rw [Dict.map_pop, Dict.map_pop, h.orders]

theorem emit (h : Alike w w') (e : Event) : Alike (w.emit e) (w'.emit e) := { h with emitted := congrArg (· ++ [e]) h.emitted }

theorem publish (h : Alike w w') (e : Event) {f : World → World} (hf : ∀ {w w'}, Alike w w' → Alike (f w) (f w')) :
    Alike (w.publish e f) (w'.publish e f) := by
  have hin : Alike w.enter w'.enter :=
    { h with
      issued := congrArg (· + 1) h.issued
      stack := congrArg₂ List.cons h.stamp h.stack }
  have hout := hf hin
  refine { hout with stack := congrArg List.tail hout.stack, trace := ?_ }
  show (f w'.enter).trace ++ [Obs.event ⟨w'.stamp, e⟩] = (f w.enter).trace ++ [Obs.event ⟨w.stamp, e⟩]
  rw [hout.trace, h.stamp]

/-- An open order of one world is open in the other, with a like record. -/
theorem tracked (h : Alike w w') (orderId : String) :
    (w.record orderId = none ∧ w'.record orderId = none) ∨
      ∃ r r', w.record orderId = some r ∧ w'.record orderId = some r' ∧ r'.blank = r.blank := by
  have hr := h.record orderId
  cases hw : w.record orderId with
  | none =>
    rw [hw] at hr
    exact .inl ⟨rfl, Option.map_eq_none_iff.mp hr⟩
  | some r =>
    rw [hw] at hr
    obtain ⟨r', hr', hb⟩ := Option.map_eq_some_iff.mp hr
    exact .inr ⟨r, r', rfl, hr', hb⟩

theorem foldl {β : Type} {f : World → β → World} (hf : ∀ b {w w'}, Alike w w' → Alike (f w b) (f w' b)) (bs : List β)
    (h : Alike w w') : Alike (bs.foldl f w) (bs.foldl f w') := by
  induction bs generalizing w w' with
  | nil => exact h
  | cons b bs ih => exact ih (hf b h)

theorem cancel (h : Alike w w') (orderId : String) (ok : Bool) :
    Alike (Execution.cancel orderId ok w) (Execution.cancel orderId ok w') := by
  rw [Execution.cancel, Execution.cancel]
  rcases h.tracked orderId with ⟨hw, hw'⟩ | ⟨r, r', hw, hw', -⟩
  · rw [hw, hw']
    exact h
  · rw [hw, hw']
    dsimp only
    split
    · exact h.update orderId Record.cancel (fun _ => rfl) _
    · exact h

theorem tripKillSwitch (h : Alike w w') (mono : Rat) (ok : String → Bool) :
    Alike (Execution.tripKillSwitch mono ok w) (Execution.tripKillSwitch mono ok w') := by
  rw [Execution.tripKillSwitch, Execution.tripKillSwitch, h.keys]
  exact (foldl (fun orderId _ _ h => h.cancel orderId (ok orderId)) _ h).setBreaker fun breaker => breaker.tripKill mono

def Handles (f : World → World) : Prop := ∀ ⦃w w'⦄, Alike w w' → Alike (f w) (f w')

section Submit
variable {onIntent onAccepted onFilled onRejected : World → World}

theorem emitFill (h : Alike w w') (hf : Handles onFilled) (orderId : String) (intent : OrderIntent) {order order' : Order}
    (hq : order'.filledQty = order.filledQty) (hp : order'.avgPrice = order.avgPrice) (emitting : Bool) (now : Rat) :
    Alike (Execution.emitFill cfg orderId intent order emitting now onFilled w)
      (Execution.emitFill cfg orderId intent order' emitting now onFilled w') := by
  have hfill (already : Int) : fillOf cfg orderId intent order' already now = fillOf cfg orderId intent order already now := by
    rw [fillOf, fillOf, hq, hp]
  have hemit (fill : OrderFilled) :
      Alike (if emitting then (w.publish (.filled fill) onFilled).emit (.filled fill) else w.publish (.filled fill) onFilled)
        (if emitting then (w'.publish (.filled fill) onFilled).emit (.filled fill) else w'.publish (.filled fill) onFilled) := by
    have hpub := h.publish (.filled fill) (hf ·)
    split
    · exact hpub.emit _
    · exact hpub
  rw [Execution.emitFill, Execution.emitFill]
  dsimp only
  rcases h.tracked orderId with ⟨hw, hw'⟩ | ⟨r, r', hw, hw', hb⟩
  · rw [hw, hw', hfill]
    split
    · exact h
    · exact hemit _
  · rw [hw, hw', hfill, Option.map_some, Option.map_some, Record.eq_of_blank hb Record.filled fun _ => rfl]
    split
    · exact h
    · next fill _ => exact (hemit fill).update orderId (·.book fill.quantity) (fun _ => rfl) _

theorem acknowledge (h : Alike w w') (ha : Handles onAccepted) (hf : Handles onFilled) (orderId : String)
    (intent : OrderIntent) (order : Order) (now : Rat) :
    Alike (Execution.acknowledge cfg orderId intent order now onAccepted onFilled w)
      (Execution.acknowledge cfg orderId intent order now onAccepted onFilled w') := by
  have hp := h.publish (.accepted (acceptance orderId intent)) (ha ·)
  rw [Execution.acknowledge, Execution.acknowledge]
  split
  · exact hp.emitFill hf orderId intent rfl rfl false now
  · exact hp.put orderId rfl _

theorem accept (h : Alike w w') (ha : Handles onAccepted) (hf : Handles onFilled) (intent : OrderIntent) (key : Nat)
    (answer : Option String) (order : Order) (now : Rat) :
    Alike (Execution.accept cfg intent key answer order now onAccepted onFilled w)
      (Execution.accept cfg intent key answer order now onAccepted onFilled w') := by
  have hnext : nextSeq w'.exec.openOrders w.exec.seq = nextSeq w.exec.openOrders w.exec.seq := by
    rw [nextSeq, nextSeq, h.keys, ← Dict.length_keys, ← Dict.length_keys, h.keys]
  have hassign (orderId : String) (seq : Nat) : Alike (w.assign orderId seq key) (w'.assign orderId seq key) :=
    { h with seq := rfl, idem := congrArg (·.recordResult key orderId) h.idem }
  rw [Execution.accept, Execution.accept, h.seq, hnext, h.stack]
  exact ((hassign _ _).log _).acknowledge ha hf _ _ _ _

theorem setIdem (h : Alike w w') (idem : MemoryIdempotencyGuard Nat String) : Alike (w.setIdem idem) (w'.setIdem idem) :=
  { h with idem := rfl }

theorem place (h : Alike w w') (ha : Handles onAccepted) (hf : Handles onFilled) (instrument : Instrument)
    (intent : OrderIntent) (key : Nat) (p : Placement) (now : Rat) :
    Alike (Execution.place cfg instrument intent key p now onAccepted onFilled w).1
        (Execution.place cfg instrument intent key p now onAccepted onFilled w').1 ∧
      (Execution.place cfg instrument intent key p now onAccepted onFilled w').2 =
        (Execution.place cfg instrument intent key p now onAccepted onFilled w).2 := by
  unfold Execution.place
  rw [h.idem]
  split
  · exact ⟨h.setIdem _, rfl⟩
  · exact ⟨(h.setIdem _).log _, rfl⟩
  · exact ⟨(h.log _).accept ha hf _ _ _ _ _, rfl⟩

theorem submit (h : Alike w w') (ha : Handles onAccepted) (hf : Handles onFilled) (intent : OrderIntent) (key : Nat)
    (p : Placement) (now : Rat) :
    Alike (Execution.submit cfg intent key p now onAccepted onFilled w).1
        (Execution.submit cfg intent key p now onAccepted onFilled w').1 ∧
      (Execution.submit cfg intent key p now onAccepted onFilled w').2 =
        (Execution.submit cfg intent key p now onAccepted onFilled w).2 := by
  rw [Execution.submit, Execution.submit, h.stack, h.idem]
  split
  · exact ⟨h, rfl⟩
  · next instrument _ =>
    extract_lets w₁ w₁'
    have h₁ : Alike w₁ w₁' := h.log _
    rw [h₁.idem]
    split
    · exact ⟨h₁, rfl⟩
    · exact ⟨h₁, rfl⟩
    · next idem _ =>
      obtain ⟨hp, he⟩ := (h₁.setIdem idem).place ha hf instrument intent key p now
      exact ⟨hp, congrArg Except.ok he⟩

theorem onSignalApproved (h : Alike w w') (hi : Handles onIntent) (ha : Handles onAccepted) (hf : Handles onFilled)
    (hr : Handles onRejected) (signal : SignalGenerated) (p : Placement) (now : Rat) :
    Alike (Execution.onSignalApproved cfg signal p now onIntent onAccepted onFilled onRejected w)
      (Execution.onSignalApproved cfg signal p now onIntent onAccepted onFilled onRejected w') := by
  unfold Execution.onSignalApproved
  rw [h.stamp]
  extract_lets intent done done'
  obtain ⟨hd, he⟩ : Alike done.1 done'.1 ∧ done'.2 = done.2 :=
    (h.publish (.intent intent) (hi ·)).submit ha hf intent w.stamp.correlationId p now
  rw [he]
  split
  · exact hd.publish _ (hr ·)
  · exact hd

end Submit

mutual
theorem runAct (a : Act) : Handles (Execution.runAct cfg a) := by
  intro w w' h
  match a with
  | .other name handlers => exact h.publish _ (runActs handlers ·)
  | .approved signal p now onIntent onAccepted onFilled onRejected =>
    exact h.publish _ fun h => h.onSignalApproved (runActs onIntent) (runActs onAccepted) (runActs onFilled)
      (runActs onRejected) signal p now
  | .cancel orderId ok => exact h.cancel orderId ok
  | .tripKill mono ok => exact h.tripKillSwitch mono ok
  | .executed orderId quantity price => exact h.log _
  | .cancelTook orderId => exact h.log _

theorem runActs (as : List Act) : Handles (Execution.runActs cfg as) := by
  intro w w' h
  match as with
  | [] => exact h
  | a :: as => exact runActs as (runAct a h)
end

section Poll
variable (h : Alike w w') (orderId : String) (i : PollInput)
include h

theorem checkTimeout : Alike (Execution.checkTimeout cfg orderId i w) (Execution.checkTimeout cfg orderId i w') := by
  rw [Execution.checkTimeout, Execution.checkTimeout]
  rcases h.tracked orderId with ⟨hw, hw'⟩ | ⟨r, r', hw, hw', hb⟩
  · rw [hw, hw']
    exact h
  · rw [hw, hw']
    dsimp only
    rw [Record.eq_of_blank hb (Record.timeoutOf cfg orderId · i.now) fun _ => rfl]
    split
    · exact h
    · exact h.publish _ (runActs i.onTimeout ·)

theorem checkStatus : Alike (Execution.checkStatus cfg orderId i w) (Execution.checkStatus cfg orderId i w') := by
  rw [Execution.checkStatus, Execution.checkStatus]
  rcases h.tracked orderId with ⟨hw, hw'⟩ | ⟨r, r', hw, hw', hb⟩
  · rw [hw, hw']
    exact h
  · rw [hw, hw']
    dsimp only
    rw [Record.eq_of_blank hb (fun r => r.order.status) fun _ => rfl, Record.eq_of_blank hb Record.status fun _ => rfl,
      Record.eq_of_blank hb (Record.updateOf orderId · i.now) fun _ => rfl]
    split
    · exact h.log _
    · exact (h.update orderId Record.note (fun _ => rfl) _).publish _ (runActs i.onUpdated ·)

theorem checkFill : Alike (Execution.checkFill cfg orderId i w) (Execution.checkFill cfg orderId i w') := by
  rw [Execution.checkFill, Execution.checkFill]
  rcases h.tracked orderId with ⟨hw, hw'⟩ | ⟨r, r', hw, hw', hb⟩
  · rw [hw, hw']
    exact h
  · rw [hw, hw']
    dsimp only
    rw [Record.eq_of_blank hb Record.intent fun _ => rfl]
    exact h.emitFill (runActs i.onFilled) orderId r.intent (Record.eq_of_blank hb (fun r => r.order.filledQty) fun _ => rfl)
      (Record.eq_of_blank hb (fun r => r.order.avgPrice) fun _ => rfl) true i.now

private theorem rejectRest (e : Option OrderRejected) (status : OrderStatus) :
    Alike
      (World.remove orderId (.popped orderId status)
        (match e with
          | none => w
          | some e => (w.emit (.rejected e)).publish (.rejected e) (Execution.runActs cfg i.onRejected)))
      (World.remove orderId (.popped orderId status)
        (match e with
          | none => w'
          | some e => (w'.emit (.rejected e)).publish (.rejected e) (Execution.runActs cfg i.onRejected))) := by
  cases e with
  | none => exact h.remove _ _
  | some e => exact ((h.emit _).publish _ (runActs i.onRejected ·)).remove _ _

theorem settle : Alike (Execution.settle cfg orderId i w) (Execution.settle cfg orderId i w') := by
  rw [Execution.settle, Execution.settle]
  rcases h.tracked orderId with ⟨hw, hw'⟩ | ⟨r, r', hw, hw', hb⟩
  · rw [hw, hw']
    exact h
  · have hrest (status : OrderStatus) : r'.rejectionOf orderId status i.now = r.rejectionOf orderId status i.now :=
      Record.eq_of_blank hb (Record.rejectionOf orderId · status i.now) fun _ => rfl
    rw [hw, hw']
    dsimp only
    rw [Record.eq_of_blank hb (fun r => r.order.status) fun _ => rfl]
    cases r.order.status with
    | completed => exact h.remove _ _
    | rejected =>
      dsimp only
      rw [hrest]
      exact h.rejectRest orderId i _ _
    | cancelled =>
      dsimp only
      rw [hrest]
      exact h.rejectRest orderId i _ _
    | pending => exact h.log _
    | partiallyFilled => exact h.log _

theorem advance : Alike (Execution.advance cfg orderId i w) (Execution.advance cfg orderId i w') :=
  (((h.checkTimeout orderId i).checkStatus orderId i).checkFill orderId i).settle orderId i

theorem countStale : Alike (Execution.countStale cfg orderId w) (Execution.countStale cfg orderId w') := by
  have hm := h.update orderId Record.miss (fun _ => rfl) (.missed orderId)
  rw [Execution.countStale, Execution.countStale]
  rcases hm.tracked orderId with ⟨hw, hw'⟩ | ⟨r, r', hw, hw', hb⟩
  · rw [hw, hw']
    exact hm
  · rw [hw, hw']
    dsimp only
    rw [Record.eq_of_blank hb Record.stale fun _ => rfl]
    split
    · exact hm.remove _ _
    · exact hm

theorem touch (status : Option OrderStatus) : Alike (Execution.touch orderId status w) (Execution.touch orderId status w') := by
  cases status with
  | none => exact h
  | some status => exact h.update orderId (·.touch status) (fun _ => rfl) _

theorem refresh : Alike (Execution.refresh cfg orderId i w) (Execution.refresh cfg orderId i w') := by
  have ha := h.log (.asked orderId)
  rw [Execution.refresh, Execution.refresh]
  dsimp only
  split
  · next report _ =>
    exact ((ha.setBreaker CircuitBreaker.onSuccess).update orderId (·.refresh report) (fun _ => rfl) _).advance orderId i
  · exact ha.touch orderId _
  · next touched mono _ => exact ((ha.touch orderId touched).setBreaker fun b => b.onFailure mono).countStale orderId

theorem pollOne : Alike (Execution.pollOne cfg orderId i w) (Execution.pollOne cfg orderId i w') := by
  rw [Execution.pollOne, Execution.pollOne]
  rcases h.tracked orderId with ⟨hw, hw'⟩ | ⟨r, r', hw, hw', -⟩
  · rw [hw, hw']
    exact h
  · rw [hw, hw']
    dsimp only
    rw [h.breaker]
    split
    · have hs : Alike (Execution.countStale cfg orderId w) (Execution.countStale cfg orderId w') := h.countStale orderId
      rw [hs.breaker]
      rcases hs.tracked orderId with ⟨hw, hw'⟩ | ⟨r, r', hw, hw', -⟩
      · rw [hw, hw']
        exact hs
      · rw [hw, hw', Option.isNone_some, Option.isNone_some, if_neg Bool.false_ne_true, if_neg Bool.false_ne_true]
        split
        · next breaker _ => exact (hs.setBreaker fun _ => breaker).refresh orderId i
        · exact hs
    · exact h.refresh orderId i

end Poll

theorem poll (h : Alike w w') (inputs : String → PollInput) : Alike (Execution.poll cfg inputs w) (Execution.poll cfg inputs w') := by
  rw [Execution.poll, Execution.poll, h.keys]
  exact foldl (fun orderId _ _ h => h.pollOne orderId (inputs orderId)) _ { h with emitted := rfl }

theorem reconcileOpen (h : Alike w w') (book : List OrderBookEntry) (now : Rat) :
    Alike (Execution.reconcileOpen cfg book now w) (Execution.reconcileOpen cfg book now w') := by
  rw [Execution.reconcileOpen, Execution.reconcileOpen, h.keys]
  refine foldl (fun entry v v' h => ?_) _ h
  split
  · exact h
  · split
    · exact h
    · exact h.put _ rfl _

/-- Like worlds go on alike. -/
theorem step (h : Alike w w') (s : Step) : Alike (Execution.step cfg w s) (Execution.step cfg w' s) := by
  cases s with
  | act a => exact runAct a h
  | submit intent correlationId p now onAccepted onFilled =>
    have hi : Alike { w with issued := w.issued + 1 } { w' with issued := w'.issued + 1 } :=
      { h with issued := congrArg (· + 1) h.issued }
    rw [Execution.step, Execution.step, h.issued]
    rw [h.issued] at hi
    exact (hi.submit (runActs onAccepted) (runActs onFilled) intent _ p now).1
  | poll inputs => exact h.poll inputs
  | reconcile book now => exact h.reconcileOpen book now
  | breakerSuccess => exact h.setBreaker CircuitBreaker.onSuccess
  | breakerFailure mono => exact h.setBreaker fun b => b.onFailure mono

end Alike

theorem unamended_step (steps : List AmendedStep) (st : Step) : unamended (steps ++ [AmendedStep.step st]) = unamended steps ++ [st] := by
  simp [unamended]

theorem unamended_modify (steps : List AmendedStep) (orderId : String) (a : Amendment) (ok : Bool) :
    unamended (steps ++ [AmendedStep.modify orderId a ok]) = unamended steps := by
  simp [unamended]

/-- Modifications leave no trace: a session with them goes as it does without. -/
theorem alike_run (cfg : Config) (steps : List AmendedStep) :
    Alike (run cfg (unamended steps) {}) (Amended.run cfg steps).world := by
  induction steps using List.reverseRecOn with
  | nil => exact .refl _
  | append_singleton steps s ih =>
    rw [Amended.run, List.foldl_concat]
    cases s with
    | step st =>
      rw [unamended_step, run, List.foldl_concat]
      exact ih.step st
    | modify orderId a ok =>
      rw [unamended_modify]
      exact ih.modified orderId a ok

end NTrade.Execution
