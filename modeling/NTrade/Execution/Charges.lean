import NTrade.Execution.Accounts

/-! What the live target charges: in every run each fill is charged for itself, on its own
notional, whatever was filled of the order before it. -/
namespace NTrade.Execution
open NTrade.Domain NTrade.Events NTrade.Lib

structure Charges (cfg : Config) (f : OrderFilled) : Prop where
  quantity : 0 < f.quantity
  price : 0 < f.fillPrice
  commission : f.commission = commissionOf cfg (f.fillPrice * f.quantity)
  statutory : ∀ intent : OrderIntent, f.symbol = intent.symbol → f.side = intent.side →
    f.statutory = statutoryOf cfg intent (f.fillPrice * f.quantity) f.commission

def Obs.Charged (cfg : Config) : Obs → Prop
  | .event ⟨_, .filled f⟩ => Charges cfg f
  | _ => True

def fillsOf (orderId : String) (t : List Obs) : List OrderFilled := t.filterMap (Obs.fillFor orderId)

def Bills (cfg : Config) (w w' : World) : Prop := ∃ new, w'.trace = w.trace ++ new ∧ ∀ o ∈ new, o.Charged cfg

variable {cfg : Config} {w w' w'' : World}

theorem statutoryOf_congr {i j : OrderIntent} (hs : i.symbol = j.symbol) (hd : i.side = j.side)
    (notional commission : Rat) : statutoryOf cfg i notional commission = statutoryOf cfg j notional commission := by
  rw [statutoryOf, statutoryOf, hs, hd]

theorem fillOf_charges {orderId : String} {intent : OrderIntent} {order : Order} {already : Int} {now : Rat}
    {f : OrderFilled} (h : fillOf cfg orderId intent order already now = some f) : Charges cfg f := by
  rw [fillOf] at h
  dsimp only at h
  split_ifs at h with hq hp
  obtain rfl := Option.some.inj h
  exact ⟨not_le.mp hq, not_le.mp hp, rfl, fun i hs hd => statutoryOf_congr hs hd _ _⟩

theorem Bills.refl (w : World) : Bills cfg w w := ⟨[], by simp, by simp⟩

theorem Bills.silent (ht : w'.trace = w.trace) : Bills cfg w w' := ⟨[], by simp [ht], by simp⟩

theorem Bills.one {o : Obs} (ht : w'.trace = w.trace ++ [o]) (ho : o.Charged cfg) : Bills cfg w w' :=
  ⟨[o], ht, fun _ ha => (List.mem_singleton.mp ha) ▸ ho⟩

theorem Bills.trans (h : Bills cfg w w') (h' : Bills cfg w' w'') : Bills cfg w w'' := by
  obtain ⟨new, ht, hn⟩ := h
  obtain ⟨new', ht', hn'⟩ := h'
  refine ⟨new ++ new', by rw [ht', ht, List.append_assoc], fun o ho => ?_⟩
  rcases List.mem_append.mp ho with ho | ho
  · exact hn o ho
  · exact hn' o ho

theorem Bills.publish {e : Event} {handlers : World → World} (hh : ∀ w, Bills cfg w (handlers w))
    (he : ∀ stamp, (Obs.event ⟨stamp, e⟩).Charged cfg) : Bills cfg w (w.publish e handlers) := by
  have hin : Bills cfg w w.enter := .silent rfl
  have hout : Bills cfg (handlers w.enter) (w.publish e handlers) := .one rfl (he w.stamp)
  exact hin.trans ((hh _).trans hout)

theorem foldl_bills {β : Type} {f : World → β → World} (hf : ∀ w b, Bills cfg w (f w b)) (bs : List β) (w : World) :
    Bills cfg w (bs.foldl f w) := by
  induction bs generalizing w with
  | nil => exact .refl w
  | cons b bs ih => exact (hf w b).trans (ih (f w b))

private theorem cancel_bills (orderId : String) (ok : Bool) (w : World) : Bills cfg w (cancel orderId ok w) := by
  rw [cancel]
  split
  · exact .refl w
  · split
    · exact .one rfl trivial
    · exact .refl w

private theorem tripKillSwitch_bills (mono : Rat) (ok : String → Bool) (w : World) :
    Bills cfg w (tripKillSwitch mono ok w) :=
  (foldl_bills (fun w orderId => cancel_bills orderId (ok orderId) w) _ w).trans (.silent rfl)

section Emit
variable {onAccepted onFilled : World → World}

theorem emitFill_bills (hf : ∀ w, Bills cfg w (onFilled w)) (orderId : String) (intent : OrderIntent) (order : Order)
    (emitting : Bool) (now : Rat) (w : World) : Bills cfg w (emitFill cfg orderId intent order emitting now onFilled w) := by
  rw [emitFill]
  dsimp only
  cases hfill : fillOf cfg orderId intent order (((w.record orderId).map Record.filled).getD 0) now with
  | none => exact .refl w
  | some fill =>
    dsimp only
    have hp : Bills cfg w (w.publish (.filled fill) onFilled) := .publish hf fun _ => fillOf_charges hfill
    have he : Bills cfg w (if emitting then (w.publish (.filled fill) onFilled).emit (.filled fill)
        else w.publish (.filled fill) onFilled) := by
      split
      · exact hp.trans (.silent rfl)
      · exact hp
    cases w.record orderId with
    | none => exact he
    | some r => exact he.trans (.one rfl trivial)

private theorem acknowledge_bills (ha : ∀ w, Bills cfg w (onAccepted w)) (hf : ∀ w, Bills cfg w (onFilled w))
    (orderId : String) (intent : OrderIntent) (order : Order) (now : Rat) (w : World) :
    Bills cfg w (acknowledge cfg orderId intent order now onAccepted onFilled w) := by
  have hp : Bills cfg w (w.publish (.accepted (acceptance orderId intent)) onAccepted) := .publish ha fun _ => trivial
  rw [acknowledge]
  split
  · exact hp.trans (emitFill_bills hf _ _ _ _ _ _)
  · exact hp.trans (.one rfl trivial)

private theorem accept_bills (ha : ∀ w, Bills cfg w (onAccepted w)) (hf : ∀ w, Bills cfg w (onFilled w))
    (intent : OrderIntent) (key : Nat) (answer : Option String) (order : Order) (now : Rat) (w : World) :
    Bills cfg w (accept cfg intent key answer order now onAccepted onFilled w) := by
  rw [accept]
  apply Bills.trans _ (acknowledge_bills ha hf _ _ _ _ _)
  exact .one rfl trivial

private theorem place_bills (ha : ∀ w, Bills cfg w (onAccepted w)) (hf : ∀ w, Bills cfg w (onFilled w))
    (instrument : Instrument) (intent : OrderIntent) (key : Nat) (p : Placement) (now : Rat) (w : World) :
    Bills cfg w (place cfg instrument intent key p now onAccepted onFilled w).1 := by
  unfold place
  split
  · exact .silent rfl
  · exact .one rfl trivial
  · apply Bills.trans _ (accept_bills ha hf _ _ _ _ _ _)
    exact .one rfl trivial

private theorem submit_bills (ha : ∀ w, Bills cfg w (onAccepted w)) (hf : ∀ w, Bills cfg w (onFilled w))
    (intent : OrderIntent) (key : Nat) (p : Placement) (now : Rat) (w : World) :
    Bills cfg w (submit cfg intent key p now onAccepted onFilled w).1 := by
  rw [submit]
  split
  · exact .refl w
  · extract_lets w₁
    have h₁ : Bills cfg w w₁ := .one rfl trivial
    split
    · exact h₁
    · exact h₁
    · next idem _ =>
      have h₂ : Bills cfg w (w₁.setIdem idem) := h₁.trans (.silent rfl)
      exact h₂.trans (place_bills ha hf _ _ _ _ _ _)

private theorem onSignalApproved_bills {onIntent onRejected : World → World} (hi : ∀ w, Bills cfg w (onIntent w))
    (ha : ∀ w, Bills cfg w (onAccepted w)) (hf : ∀ w, Bills cfg w (onFilled w)) (hr : ∀ w, Bills cfg w (onRejected w))
    (signal : SignalGenerated) (p : Placement) (now : Rat) (w : World) :
    Bills cfg w (onSignalApproved cfg signal p now onIntent onAccepted onFilled onRejected w) := by
  unfold onSignalApproved
  extract_lets intent done
  have h₁ : Bills cfg w (w.publish (.intent intent) onIntent) := .publish hi fun _ => trivial
  have h₂ : Bills cfg w done.1 := h₁.trans (submit_bills ha hf _ _ _ _ _)
  split
  · exact h₂.trans (.publish hr fun _ => trivial)
  · exact h₂

end Emit

mutual
private theorem runAct_bills (a : Act) (w : World) : Bills cfg w (runAct cfg a w) := by
  match a with
  | .other name handlers => exact .publish (runActs_bills handlers) fun _ => trivial
  | .approved signal p now onIntent onAccepted onFilled onRejected =>
    exact .publish (onSignalApproved_bills (runActs_bills onIntent) (runActs_bills onAccepted)
      (runActs_bills onFilled) (runActs_bills onRejected) signal p now) fun _ => trivial
  | .cancel orderId ok => exact cancel_bills orderId ok w
  | .tripKill mono ok => exact tripKillSwitch_bills mono ok w
  | .executed orderId quantity price => exact .one rfl trivial
  | .cancelTook orderId => exact .one rfl trivial

private theorem runActs_bills (as : List Act) (w : World) : Bills cfg w (runActs cfg as w) := by
  match as with
  | [] => exact .refl w
  | a :: as => exact (runAct_bills a w).trans (runActs_bills as _)
end

section Poll
variable (orderId : String) (i : PollInput) (w : World)

private theorem checkTimeout_bills : Bills cfg w (checkTimeout cfg orderId i w) := by
  rw [checkTimeout]
  split
  · exact .refl w
  · split
    · exact .refl w
    · exact .publish (runActs_bills i.onTimeout) fun _ => trivial

private theorem checkStatus_bills : Bills cfg w (checkStatus cfg orderId i w) := by
  rw [checkStatus]
  split
  · exact .refl w
  · split
    · exact .one rfl trivial
    · next r _ _ =>
      have hn : Bills cfg w (w.update orderId Record.note (.noted orderId r.order.status)) := .one rfl trivial
      exact hn.trans (.publish (runActs_bills i.onUpdated) fun _ => trivial)

private theorem checkFill_bills : Bills cfg w (checkFill cfg orderId i w) := by
  rw [checkFill]
  split
  · exact .refl w
  · exact emitFill_bills (runActs_bills i.onFilled) _ _ _ _ _ _

/-- Rejecting what a dropped order left unfilled, if anything. -/
private theorem rejectRest_bills (e : Option OrderRejected) (status : OrderStatus) :
    Bills cfg w (World.remove orderId (.popped orderId status)
      (match e with
        | none => w
        | some e => (w.emit (.rejected e)).publish (.rejected e) (runActs cfg i.onRejected))) := by
  cases e with
  | none => exact .one rfl trivial
  | some e =>
    have hr : Bills cfg (w.emit (.rejected e))
        ((w.emit (.rejected e)).publish (.rejected e) (runActs cfg i.onRejected)) :=
      .publish (runActs_bills i.onRejected) fun _ => trivial
    have he : Bills cfg w (w.emit (.rejected e)) := .silent rfl
    exact (he.trans hr).trans (.one rfl trivial)

private theorem settle_bills : Bills cfg w (settle cfg orderId i w) := by
  rw [settle]
  split
  · exact .refl w
  · next r _ =>
    dsimp only
    split
    · exact .one rfl trivial
    · exact rejectRest_bills orderId i w _ _
    · exact rejectRest_bills orderId i w _ _
    · exact .one rfl trivial
    · exact .one rfl trivial

private theorem advance_bills : Bills cfg w (advance cfg orderId i w) :=
  (checkTimeout_bills orderId i w).trans ((checkStatus_bills orderId i _).trans
    ((checkFill_bills orderId i _).trans (settle_bills orderId i _)))

private theorem countStale_bills : Bills cfg w (countStale cfg orderId w) := by
  have hm : Bills cfg w (w.update orderId Record.miss (.missed orderId)) := .one rfl trivial
  rw [countStale]
  split
  · exact hm
  · split
    · exact hm.trans (.one rfl trivial)
    · exact hm

private theorem touch_bills (status : Option OrderStatus) : Bills cfg w (touch orderId status w) := by
  cases status with
  | none => exact .refl w
  | some status => exact .one rfl trivial

private theorem refresh_bills : Bills cfg w (refresh cfg orderId i w) := by
  have ha : Bills cfg w (w.log (.asked orderId)) := .one rfl trivial
  rw [refresh]
  dsimp only
  split
  · apply ha.trans (Bills.trans _ (advance_bills orderId i _))
    exact .one rfl trivial
  · exact ha.trans (touch_bills orderId _ _)
  · next touched mono _ =>
    have ht := ha.trans (touch_bills orderId (w.log (.asked orderId)) touched)
    apply ht.trans (Bills.trans _ (countStale_bills orderId _))
    exact .silent rfl

private theorem pollOne_bills : Bills cfg w (pollOne cfg orderId i w) := by
  rw [pollOne]
  split
  · exact .refl w
  · split
    · dsimp only
      split
      · exact countStale_bills orderId w
      · split
        · apply (countStale_bills orderId w).trans (Bills.trans _ (refresh_bills orderId i _))
          exact .silent rfl
        · exact countStale_bills orderId w
    · exact refresh_bills orderId i w

end Poll

private theorem step_bills (s : Step) (w : World) : Bills cfg w (step cfg w s) := by
  cases s with
  | act a => exact runAct_bills a w
  | submit intent correlationId p now onAccepted onFilled =>
    have h : Bills cfg w { w with issued := w.issued + 1 } := .silent rfl
    exact h.trans (submit_bills (runActs_bills onAccepted) (runActs_bills onFilled) _ _ _ _ _)
  | poll inputs =>
    have h : Bills cfg w { w with emitted := [] } := .silent rfl
    exact h.trans (foldl_bills (fun w orderId => pollOne_bills orderId (inputs orderId) w) _ _)
  | reconcile book now =>
    refine foldl_bills (fun w entry => ?_) book w
    split
    · exact .refl w
    · split
      · exact .refl w
      · exact .one rfl trivial
  | breakerSuccess => exact .silent rfl
  | breakerFailure mono => exact .silent rfl

theorem run_bills (steps : List Step) (w : World) : Bills cfg w (run cfg steps w) :=
  foldl_bills (fun w s => step_bills s w) steps w

/-- In every run every fill on record is charged for itself. -/
theorem charges_of_mem_fillsOf (steps : List Step) {orderId : String} {f : OrderFilled}
    (h : f ∈ fillsOf orderId (run cfg steps {}).trace) : Charges cfg f := by
  obtain ⟨new, ht, hn⟩ := (run_bills steps {} : Bills cfg {} _)
  obtain ⟨o, ho, hf⟩ := List.mem_filterMap.mp h
  rw [ht] at ho
  have hc := hn o ho
  cases o with
  | event e =>
    obtain ⟨stamp, body⟩ := e
    cases body with
    | filled g =>
      rw [Obs.fillFor] at hf
      dsimp only at hf
      split_ifs at hf
      obtain rfl := Option.some.inj hf
      exact hc
    | _ => cases hf
  | _ => cases hf

end NTrade.Execution
