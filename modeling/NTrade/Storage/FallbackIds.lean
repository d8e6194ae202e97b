import NTrade.Storage.Recovery

/-! Fallback ids over restarts. A session counts its ids up, so it never draws one twice. After a
restart the counter is moved past the orders that are still open, while the store keeps all. -/
namespace NTrade.Storage
open NTrade.Domain NTrade.Events NTrade.Execution NTrade.Lib

def acceptedId : Event → Option String
  | .accepted e => some e.orderId
  | _ => none

def acceptedIds (events : List Event) : List String := events.filterMap acceptedId

def eventsOf (id : String) (events : List Event) : List Event := events.filter fun e => e.orderId = some id

def unanswered : Obs → Bool
  | .placed _ answer _ _ _ => (venueId answer).isNone
  | _ => true

def Readable : Event → Prop
  | .accepted e => ∃ side, OrderSide.ofValue e.side.toUpper = .ok side
  | .updated e => ∃ s : OrderStatus, e.status = s.value
  | _ => True

variable {cfg : Config} {w w' w'' : World} {orderId : String}

section Issues

private structure Draws (lo hi : Nat) (new : List Obs) : Prop where
  le : lo ≤ hi
  readable : ∀ e ∈ log new, Readable e
  drawn : (∀ o ∈ new, unanswered o = true) →
    ∃ ns : List Nat, acceptedIds (log new) = ns.map brkId ∧ ns.Nodup ∧ ∀ n ∈ ns, lo < n ∧ n ≤ hi

private theorem log_append (t u : List Obs) : log (t ++ u) = log t ++ log u := List.filterMap_append

private theorem acceptedIds_append (es es' : List Event) : acceptedIds (es ++ es') = acceptedIds es ++ acceptedIds es' :=
  List.filterMap_append

private theorem Draws.quiet {lo hi : Nat} (hle : lo ≤ hi) {new : List Obs}
    (hr : ∀ e ∈ log new, Readable e ∧ acceptedId e = none) : Draws lo hi new := by
  refine ⟨hle, fun e he => (hr e he).1, fun _ => ⟨[], ?_, List.nodup_nil, fun _ hn => absurd hn List.not_mem_nil⟩⟩
  rw [acceptedIds, List.map_nil, List.filterMap_eq_nil_iff]
  exact fun e he => (hr e he).2

private theorem Draws.append {lo mid hi : Nat} {new new' : List Obs} (h : Draws lo mid new) (h' : Draws mid hi new') :
    Draws lo hi (new ++ new') := by
  refine ⟨h.le.trans h'.le, ?_, fun hu => ?_⟩
  · rw [log_append]
    exact List.forall_mem_append.mpr ⟨h.readable, h'.readable⟩
  · rw [List.forall_mem_append] at hu
    obtain ⟨ns, hids, hn, hb⟩ := h.drawn hu.1
    obtain ⟨ns', hids', hn', hb'⟩ := h'.drawn hu.2
    refine ⟨ns ++ ns', ?_, hn.append hn' fun n hm hm' => ?_, ?_⟩
    · rw [log_append, acceptedIds_append, hids, hids', List.map_append]
    · exact absurd (hb n hm).2 (Nat.not_le.mpr (hb' n hm').1)
    · have hle := h.le
      have hle' := h'.le
      intro n hm
      rcases List.mem_append.mp hm with hm | hm
      · have := hb n hm
        omega
      · have := hb' n hm
        omega

/-- The id of an order is drawn before the ids of the orders that its announcement leads to. -/
private theorem Draws.announced {lo n hi : Nat} {placed : Obs} {e : Stamped} {new : List Obs} (h : Draws n hi new)
    (hlo : lo ≤ n) (hp : recorded placed = none) (hr : Readable e.body)
    (hd : unanswered placed = true → lo < n ∧ acceptedId e.body = some (brkId n)) :
    Draws lo hi (placed :: (new ++ [Obs.event e])) := by
  have hlog : log (placed :: (new ++ [Obs.event e])) = log new ++ [e.body] := by
    rw [log, List.filterMap_cons_none hp, List.filterMap_append]
    rfl
  refine ⟨hlo.trans h.le, ?_, fun hu => ?_⟩
  · rw [hlog]
    exact List.forall_mem_append.mpr ⟨h.readable, List.forall_mem_singleton.mpr hr⟩
  · obtain ⟨hplaced, hu⟩ := List.forall_mem_cons.mp hu
    obtain ⟨hlt, hid⟩ := hd hplaced
    obtain ⟨ns, hids, hn, hb⟩ := h.drawn (List.forall_mem_append.mp hu).1
    refine ⟨ns ++ [n], ?_, hn.append (List.nodup_singleton n) fun m hm hm' => ?_, ?_⟩
    · rw [hlog, acceptedIds_append, hids, List.map_append]
      simp [acceptedIds, hid]
    · rw [List.mem_singleton.mp hm'] at hm
      exact absurd (hb n hm).1 (Nat.lt_irrefl n)
    · have hle := h.le
      intro m hm
      rcases List.mem_append.mp hm with hm | hm
      · have := hb m hm
        omega
      · obtain rfl := List.mem_singleton.mp hm
        exact ⟨hlt, hle⟩

private def Issues (w w' : World) : Prop :=
  ∃ new, w'.trace = w.trace ++ new ∧ Draws w.exec.seq w'.exec.seq new

private theorem Issues.silent (ht : w'.trace = w.trace) (hs : w'.exec.seq = w.exec.seq) : Issues w w' :=
  ⟨[], by rw [ht, List.append_nil], .quiet hs.ge fun _ he => absurd he List.not_mem_nil⟩

private theorem Issues.refl (w : World) : Issues w w := .silent rfl rfl

private theorem Issues.trans (h : Issues w w') (h' : Issues w' w'') : Issues w w'' := by
  obtain ⟨new, ht, hd⟩ := h
  obtain ⟨new', ht', hd'⟩ := h'
  exact ⟨new ++ new', by rw [ht', ht, List.append_assoc], hd.append hd'⟩

/-- An observation that is no event. -/
private theorem Issues.note {o : Obs} (ht : w'.trace = w.trace ++ [o]) (hs : w'.exec.seq = w.exec.seq)
    (ho : recorded o = none) : Issues w w' := by
  have hlog : log [o] = [] := by simp [log, ho]
  exact ⟨[o], ht, .quiet hs.ge fun _ he => absurd (hlog ▸ he) List.not_mem_nil⟩

/-- An event that accepts no order, with what its handlers do. -/
private theorem Issues.publish {e : Event} {handlers : World → World} (hh : ∀ w, Issues w (handlers w)) (hr : Readable e)
    (ha : acceptedId e = none) : Issues w (w.publish e handlers) := by
  obtain ⟨new, ht, hd⟩ := hh w.enter
  have hevent : Draws (handlers w.enter).exec.seq (w.publish e handlers).exec.seq [.event ⟨w.stamp, e⟩] :=
    .quiet (Nat.le_refl _) (List.forall_mem_singleton.mpr ⟨hr, ha⟩)
  refine ⟨new ++ [Obs.event ⟨w.stamp, e⟩], ?_, Draws.append hd hevent⟩
  rw [World.publish, World.leave, ht, ← List.append_assoc]
  rfl

private theorem foldl_issues {β : Type} {f : World → β → World} (hf : ∀ w b, Issues w (f w b)) (bs : List β) (w : World) :
    Issues w (bs.foldl f w) := by
  induction bs generalizing w with
  | nil => exact .refl w
  | cons b bs ih => exact (hf w b).trans (ih _)

private theorem cancel_issues (ok : Bool) (w : World) : Issues w (cancel orderId ok w) := by
  rw [cancel]
  split
  · exact .refl w
  · split
    · exact .note (o := .cancelled orderId) rfl rfl rfl
    · exact .refl w

private theorem tripKillSwitch_issues (mono : Rat) (ok : String → Bool) (w : World) :
    Issues w (tripKillSwitch mono ok w) :=
  (foldl_issues (fun w orderId => cancel_issues (ok orderId) w) _ w).trans (.silent rfl rfl)

section Placement
variable {intent : OrderIntent} {now : Rat} {onIntent onAccepted onFilled onRejected : World → World}

private theorem emitFill_issues {order : Order} {emitting : Bool} (hf : ∀ w, Issues w (onFilled w)) (w : World) :
    Issues w (emitFill cfg orderId intent order emitting now onFilled w) := by
  rw [emitFill]
  split
  · exact .refl w
  · next fill _ =>
    have hpub : Issues w (w.publish (.filled fill) onFilled) := .publish hf trivial rfl
    cases emitting <;> dsimp only <;> split
    · exact hpub
    · exact hpub.trans (.note (o := .booked orderId fill.quantity) rfl rfl rfl)
    · exact hpub.trans (.silent rfl rfl)
    · exact hpub.trans (.note (o := .booked orderId fill.quantity) rfl rfl rfl)

/-- What follows the announcement of an order draws further ids. -/
private theorem acknowledge_issues {order : Order} (hf : ∀ w, Issues w (onFilled w)) (w : World) :
    Issues (w.publish (.accepted (acceptance orderId intent)) onAccepted)
      (acknowledge cfg orderId intent order now onAccepted onFilled w) := by
  rw [acknowledge]
  split
  · exact emitFill_issues hf _
  · exact .note (o := .tracked orderId (track intent order now)) rfl rfl rfl

private theorem accept_issues {key : Nat} {answer : Option String} {order : Order}
    (hside : ∃ side, OrderSide.ofValue intent.side.toUpper = .ok side) (ha : ∀ w, Issues w (onAccepted w))
    (hf : ∀ w, Issues w (onFilled w)) (w : World) :
    Issues w (accept cfg intent key answer order now onAccepted onFilled w) := by
  unfold accept
  extract_lets seq id identified
  let v := (w.assign id seq key).log (.placed (w.stack.head?.map Stamp.eventId) answer id intent identified)
  have hle : w.exec.seq ≤ seq := by
    dsimp only [seq]
    split
    · exact Nat.le_refl _
    · exact (lt_nextSeq _ _).le
  have hdrawn : (venueId answer).isNone = true → w.exec.seq < seq ∧ id = brkId seq := by
    intro hn
    rw [Option.isNone_iff_eq_none] at hn
    dsimp only [seq, id]
    rw [hn]
    exact ⟨lt_nextSeq _ _, rfl⟩
  obtain ⟨new, ht, hd⟩ := ha v.enter
  refine Issues.trans ?_ (acknowledge_issues hf v)
  refine ⟨.placed (w.stack.head?.map Stamp.eventId) answer id intent identified ::
    (new ++ [Obs.event ⟨v.stamp, .accepted (acceptance id intent)⟩]), ?_, ?_⟩
  · rw [World.publish, World.leave, ht]
    show (w.trace ++ [_]) ++ new ++ [_] = _
    simp only [List.append_assoc, List.cons_append, List.nil_append]
  · refine Draws.announced (n := seq) hd hle rfl hside fun hu => ?_
    obtain ⟨hlt, hid⟩ := hdrawn hu
    exact ⟨hlt, congrArg some hid⟩

private theorem place_issues {instrument : Instrument} {key : Nat} {p : Placement} (ha : ∀ w, Issues w (onAccepted w))
    (hf : ∀ w, Issues w (onFilled w)) (w : World) :
    Issues w (place cfg instrument intent key p now onAccepted onFilled w).1 := by
  have horder : Issues w (w.log (.ordered intent)) := .note rfl rfl rfl
  unfold place
  split
  · exact .silent rfl rfl
  · exact horder.trans (.silent rfl rfl)
  · next hr => exact horder.trans (accept_issues (request_side hr) ha hf _)

private theorem submit_issues {key : Nat} {p : Placement} (ha : ∀ w, Issues w (onAccepted w))
    (hf : ∀ w, Issues w (onFilled w)) (w : World) : Issues w (submit cfg intent key p now onAccepted onFilled w).1 := by
  rw [submit]
  split
  · exact .refl w
  · next instrument _ =>
    have hlog : Issues w (w.log (.submitted (w.stack.head?.map Stamp.eventId) intent key (w.exec.idem.completed.get key))) :=
      .note rfl rfl rfl
    dsimp only
    split
    · exact hlog
    · exact hlog
    · next idem _ =>
      have hidem (v : World) : Issues v (v.setIdem idem) := .silent rfl rfl
      exact (hlog.trans (hidem _)).trans (place_issues ha hf _)

private theorem onSignalApproved_issues {signal : SignalGenerated} {p : Placement} (hi : ∀ w, Issues w (onIntent w))
    (ha : ∀ w, Issues w (onAccepted w)) (hf : ∀ w, Issues w (onFilled w)) (hr : ∀ w, Issues w (onRejected w)) (w : World) :
    Issues w (onSignalApproved cfg signal p now onIntent onAccepted onFilled onRejected w) := by
  unfold onSignalApproved
  extract_lets intent done
  have hdone : Issues w done.1 := (Issues.publish (e := .intent intent) hi trivial rfl).trans (submit_issues ha hf _)
  split
  · exact hdone.trans (.publish hr trivial rfl)
  · exact hdone

end Placement

mutual
private theorem runAct_issues (a : Act) (w : World) : Issues w (runAct cfg a w) := by
  match a with
  | .other name handlers => exact .publish (runActs_issues handlers) trivial rfl
  | .approved signal p now onIntent onAccepted onFilled onRejected =>
    exact .publish (onSignalApproved_issues (runActs_issues onIntent) (runActs_issues onAccepted)
      (runActs_issues onFilled) (runActs_issues onRejected)) trivial rfl
  | .cancel orderId ok => exact cancel_issues ok w
  | .tripKill mono ok => exact tripKillSwitch_issues mono ok w
  | .executed orderId quantity price => exact .note (o := .executed orderId quantity price) rfl rfl rfl
  | .cancelTook orderId => exact .note (o := .cancelTook orderId) rfl rfl rfl

private theorem runActs_issues (as : List Act) (w : World) : Issues w (runActs cfg as w) := by
  match as with
  | [] => exact .refl w
  | a :: as => exact (runAct_issues a w).trans (runActs_issues as _)
end

section Poll
variable (i : PollInput) (w : World)

private theorem checkTimeout_issues : Issues w (checkTimeout cfg orderId i w) := by
  rw [checkTimeout]
  split
  · exact .refl w
  · split
    · exact .refl w
    · exact .publish (runActs_issues i.onTimeout) trivial rfl

private theorem checkStatus_issues : Issues w (checkStatus cfg orderId i w) := by
  rw [checkStatus]
  split
  · exact .refl w
  · next r _ =>
    split
    · exact .note (o := .steady orderId) rfl rfl rfl
    · have hnote : Issues w (w.update orderId Record.note (.noted orderId r.order.status)) := .note rfl rfl rfl
      exact hnote.trans (.publish (e := .updated (r.updateOf orderId i.now)) (runActs_issues i.onUpdated) ⟨_, rfl⟩ rfl)

private theorem checkFill_issues : Issues w (checkFill cfg orderId i w) := by
  rw [checkFill]
  split
  · exact .refl w
  · exact emitFill_issues (runActs_issues i.onFilled) w

private theorem settle_issues : Issues w (settle cfg orderId i w) := by
  have hpop (status : OrderStatus) (v : World) : Issues v (v.remove orderId (.popped orderId status)) := .note rfl rfl rfl
  have hreject (e : OrderRejected) : Issues w ((w.emit (.rejected e)).publish (.rejected e) (runActs cfg i.onRejected)) := by
    have hemit : Issues w (w.emit (.rejected e)) := .silent rfl rfl
    exact hemit.trans (.publish (e := .rejected e) (runActs_issues i.onRejected) trivial rfl)
  unfold settle
  split
  · exact .refl w
  · dsimp only
    split
    · exact hpop _ w
    · split
      · exact hpop _ w
      · exact (hreject _).trans (hpop _ _)
    · split
      · exact hpop _ w
      · exact (hreject _).trans (hpop _ _)
    · exact .note (o := .kept orderId) rfl rfl rfl
    · exact .note (o := .kept orderId) rfl rfl rfl

private theorem advance_issues : Issues w (advance cfg orderId i w) :=
  (((checkTimeout_issues i w).trans (checkStatus_issues i _)).trans (checkFill_issues i _)).trans (settle_issues i _)

private theorem countStale_issues : Issues w (countStale cfg orderId w) := by
  have hmiss : Issues w (w.update orderId Record.miss (.missed orderId)) := .note rfl rfl rfl
  rw [countStale]
  split
  · exact hmiss
  · split
    · exact hmiss.trans (.note (o := .evicted orderId) rfl rfl rfl)
    · exact hmiss

private theorem touch_issues (status : Option OrderStatus) : Issues w (touch orderId status w) := by
  rw [touch.eq_def]
  split
  · exact .refl w
  · next status => exact .note (o := .touched orderId status) rfl rfl rfl

private theorem refresh_issues : Issues w (refresh cfg orderId i w) := by
  have hask : Issues w (w.log (.asked orderId)) := .note rfl rfl rfl
  unfold refresh
  dsimp only
  split
  · next report _ =>
    have hreport (v : World) (b : CircuitBreaker) :
        Issues v ((v.setBreaker b).update orderId (·.refresh report) (.status orderId report)) := .note rfl rfl rfl
    exact (hask.trans (hreport _ _)).trans (advance_issues i _)
  · exact hask.trans (touch_issues _ _)
  · have hbreaker (v : World) (b : CircuitBreaker) : Issues v (v.setBreaker b) := .silent rfl rfl
    exact ((hask.trans (touch_issues _ _)).trans (hbreaker _ _)).trans (countStale_issues _)

private theorem pollOne_issues : Issues w (pollOne cfg orderId i w) := by
  have hstale : Issues w (countStale cfg orderId w) := countStale_issues w
  rw [pollOne]
  split
  · exact .refl w
  · split
    · dsimp only
      split
      · exact hstale
      · split
        · next b _ =>
          have hprobe : Issues w ((countStale cfg orderId w).setBreaker b) := hstale.trans (.silent rfl rfl)
          exact hprobe.trans (refresh_issues i _)
        · exact hstale
    · exact refresh_issues i w

end Poll

private theorem reconcileOpen_issues (book : List OrderBookEntry) (now : Rat) (w : World) :
    Issues w (reconcileOpen cfg book now w) := by
  refine foldl_issues (fun w entry => ?_) book w
  split
  · exact .refl w
  · split
    · exact .refl w
    · next r _ => exact .note (o := .adopted entry.orderId r) rfl rfl rfl

private theorem step_issues (s : Step) (w : World) : Issues w (step cfg w s) := by
  cases s with
  | act a => exact runAct_issues a w
  | submit intent correlationId p now onAccepted onFilled =>
    have hid : Issues w { w with issued := w.issued + 1 } := .silent rfl rfl
    exact hid.trans (submit_issues (runActs_issues onAccepted) (runActs_issues onFilled) _)
  | poll inputs =>
    have hempty : Issues w { w with emitted := [] } := .silent rfl rfl
    exact hempty.trans (foldl_issues (fun w orderId => pollOne_issues (inputs orderId) w) _ _)
  | reconcile book now => exact reconcileOpen_issues book now w
  | breakerSuccess => exact .silent rfl rfl
  | breakerFailure mono => exact .silent rfl rfl

private theorem run_issues (cfg : Config) (steps : List Step) (w : World) : Issues w (run cfg steps w) :=
  foldl_issues (fun w s => step_issues s w) steps w

end Issues

structure Session where
  steps : List Step
  kept : Nat

def revive (cfg : Config) (store : List Event) : World := (restoreOpen cfg (openOrderDeltas store) {}).2

def Session.world (cfg : Config) (store : List Event) (s : Session) : World := run cfg s.steps (revive cfg store)

def Session.append (cfg : Config) (store : List Event) (s : Session) : List Event :=
  store ++ log ((s.world cfg store).trace.take s.kept)

def storeOf (cfg : Config) (store : List Event) (sessions : List Session) : List Event :=
  sessions.foldl (Session.append cfg) store

def Along (cfg : Config) (P : List Event → Session → Prop) : List Event → List Session → Prop
  | _, [] => True
  | store, s :: sessions => P store s ∧ Along cfg P (s.append cfg store) sessions

def NoVenueIds (cfg : Config) (store : List Event) (s : Session) : Prop :=
  ∀ o ∈ (s.world cfg store).trace, unanswered o = true

/-- The highest fallback number that the store has accepted is that of an order still listed as open, on a
registered symbol. -/
def Resumable (cfg : Config) (store : List Event) : Prop :=
  ∀ n, brkId n ∈ acceptedIds store →
    ∃ m delta, n ≤ m ∧ (brkId m, delta) ∈ openOrderDeltas store ∧ cfg.instrument delta.symbol ≠ none

section Sessions
variable {store : List Event}

/-- The entries of a readable store have a side and a status. -/
private theorem walk_readable (hr : ∀ e ∈ store, Readable e) {id : String} {entry : OpenOrder}
    (h : (walk store).get id = some entry) :
    (∃ side, OrderSide.ofValue entry.side.toUpper = .ok side) ∧ ∃ s : OrderStatus, entry.status = s.value := by
  induction store using List.reverseRecOn generalizing entry with
  | nil => cases h
  | append_singleton store e ih =>
    obtain ⟨hold, he⟩ := List.forall_mem_append.mp hr
    have he := List.forall_mem_singleton.mp he
    have ih := fun entry => @ih hold entry
    rw [get_walk_concat] at h
    cases e with
    | accepted e =>
      rw [entryStep] at h
      split at h
      · cases h
        exact ⟨he, .pending, rfl⟩
      · exact ih _ h
    | filled e =>
      rw [entryStep] at h
      split at h
      · obtain ⟨old, ho, rfl⟩ := Option.map_eq_some_iff.mp h
        exact ⟨(ih old ho).1, (ih old ho).2⟩
      · exact ih _ h
    | updated e =>
      rw [entryStep] at h
      split at h
      · obtain ⟨old, ho, rfl⟩ := Option.map_eq_some_iff.mp h
        exact ⟨(ih _ ho).1, he⟩
      · exact ih _ h
    | rejected e =>
      rw [entryStep] at h
      split at h
      · obtain ⟨old, ho, rfl⟩ := Option.map_eq_some_iff.mp h
        exact ⟨(ih _ ho).1, .rejected, rfl⟩
      · exact ih _ h
    | _ => exact ih _ h

private theorem openOrderDeltas_rehydrate (hr : ∀ e ∈ store, Readable e) :
    ∀ d ∈ openOrderDeltas store, ∃ r, rehydrate d.1 d.2 = .ok r := by
  rintro ⟨id, delta⟩ hd
  obtain ⟨entry, hg, -, rfl⟩ := mem_openOrderDeltas.mp hd
  obtain ⟨⟨side, hside⟩, s, hs⟩ := walk_readable hr hg
  have hdelta : entry.toDelta.status = s.value := hs
  obtain ⟨r, hr, -⟩ := rehydrate_ok hside hdelta
  exact ⟨r, hr⟩

/-- Restoring writes no event. -/
private theorem restoreOpen_log (deltas : List (String × Delta)) (w : World) :
    log (restoreOpen cfg deltas w).2.trace = log w.trace := by
  induction deltas generalizing w with
  | nil => rfl
  | cons d deltas ih =>
    unfold restoreOpen
    split
    · exact ih w
    · split
      · rfl
      · next r _ =>
        refine (ih _).trans ?_
        exact (log_append w.trace [.restored d.1 r]).trans (List.append_nil _)

/-- An order that is restored goes on the tracker before the others are. -/
private theorem restoreOpen_cons {orderId : String} {delta : Delta} {w : World} {r : Record} (deltas : List (String × Delta))
    (h : ¬ (orderId ∈ w.exec.openOrders.keys ∨ cfg.instrument delta.symbol = none)) (hr : rehydrate orderId delta = .ok r) :
    ∃ w', (restoreOpen cfg ((orderId, delta) :: deltas) w).2 = (restoreOpen cfg deltas w').2 ∧
      w'.exec.seq = bumpSeq w.exec.seq orderId ∧ w'.exec.openOrders = w.exec.openOrders.set orderId r := by
  rw [restoreOpen, if_neg h, hr]
  exact ⟨_, rfl, rfl, rfl⟩

/-- Restoring moves the counter to every fallback number on the list. -/
private theorem restoreOpen_seq (cfg : Config) (deltas : List (String × Delta)) (hn : (deltas.map Prod.fst).Nodup)
    (hall : ∀ d ∈ deltas, ∃ r, rehydrate d.1 d.2 = .ok r) (w : World)
    (hfresh : ∀ d ∈ deltas, d.1 ∉ w.exec.openOrders.keys) :
    w.exec.seq ≤ (restoreOpen cfg deltas w).2.exec.seq ∧
      ∀ m delta, (brkId m, delta) ∈ deltas → cfg.instrument delta.symbol ≠ none →
        m ≤ (restoreOpen cfg deltas w).2.exec.seq := by
  induction deltas generalizing w with
  | nil => exact ⟨Nat.le_refl _, nofun⟩
  | cons d deltas ih =>
    obtain ⟨orderId, delta⟩ := d
    rw [List.map_cons, List.nodup_cons] at hn
    have hall' : ∀ d ∈ deltas, ∃ r, rehydrate d.1 d.2 = .ok r := fun d hd => hall d (List.mem_cons_of_mem _ hd)
    have hfresh' : ∀ d ∈ deltas, d.1 ∉ w.exec.openOrders.keys := fun d hd => hfresh d (List.mem_cons_of_mem _ hd)
    by_cases hskip : orderId ∈ w.exec.openOrders.keys ∨ cfg.instrument delta.symbol = none
    · rw [restoreOpen, if_pos hskip]
      obtain ⟨hle, hm⟩ := ih hn.2 hall' w hfresh'
      refine ⟨hle, fun m delta' hd hinst => ?_⟩
      rcases List.mem_cons.mp hd with hd | hd
      · obtain ⟨rfl, rfl⟩ := Prod.mk.inj hd
        exact absurd hskip (not_or.mpr ⟨hfresh _ List.mem_cons_self, hinst⟩)
      · exact hm m delta' hd hinst
    · obtain ⟨r, hr⟩ := hall _ List.mem_cons_self
      obtain ⟨w', hw, hseq, hopen⟩ := restoreOpen_cons deltas hskip hr
      have hfresh'' : ∀ d ∈ deltas, d.1 ∉ w'.exec.openOrders.keys := by
        intro d hd hk
        rw [hopen] at hk
        rcases (Dict.mem_keys_set _ _ _ _).mp hk with hk | hk
        · exact hn.1 (List.mem_map.mpr ⟨d, hd, hk⟩)
        · exact hfresh' d hd hk
      obtain ⟨hle, hm⟩ := ih hn.2 hall' w' hfresh''
      rw [hseq] at hle
      rw [hw]
      refine ⟨(le_bumpSeq w.exec.seq orderId).trans hle, fun m delta' hd hinst => ?_⟩
      rcases List.mem_cons.mp hd with hd | hd
      · obtain ⟨rfl, rfl⟩ := Prod.mk.inj hd
        exact (le_bumpSeq_brkId w.exec.seq m).trans hle
      · exact hm m delta' hd hinst

private structure Distinct (store : List Event) : Prop where
  nodup : (acceptedIds store).Nodup
  fallback : ∀ id ∈ acceptedIds store, ∃ n, id = brkId n
  readable : ∀ e ∈ store, Readable e

/-- The counter of a resumed process is past every accepted order. -/
private theorem Distinct.le_seq (h : Distinct store) (hr : Resumable cfg store) {n : Nat} (hn : brkId n ∈ acceptedIds store) :
    n ≤ (revive cfg store).exec.seq := by
  obtain ⟨m, delta, hle, hd, hinst⟩ := hr n hn
  have hseq := restoreOpen_seq cfg (openOrderDeltas store) (openOrderDeltas_nodup store)
    (openOrderDeltas_rehydrate h.readable) {} (fun _ _ => List.not_mem_nil)
  exact hle.trans (hseq.2 m delta hd hinst)

private theorem Distinct.append (h : Distinct store) (hr : Resumable cfg store) (s : Session) (hu : NoVenueIds cfg store s) :
    Distinct (s.append cfg store) := by
  obtain ⟨new, ht, hd⟩ := run_issues cfg s.steps (revive cfg store)
  obtain ⟨ns, hids, hn, hb⟩ := hd.drawn fun o ho => hu o (ht ▸ List.mem_append_right _ ho)
  have hlog : log (s.world cfg store).trace = log new := by
    have hrestored : log (revive cfg store).trace = [] := restoreOpen_log _ _
    rw [Session.world, ht, log_append, hrestored, List.nil_append]
  have hsub : (log ((s.world cfg store).trace.take s.kept)).Sublist (log new) :=
    hlog ▸ ((List.take_sublist _ _).filterMap recorded)
  have hadded : (acceptedIds (log ((s.world cfg store).trace.take s.kept))).Sublist (ns.map brkId) :=
    hids ▸ hsub.filterMap acceptedId
  have hfresh : ∀ id ∈ acceptedIds (log ((s.world cfg store).trace.take s.kept)),
      ∃ n, id = brkId n ∧ (revive cfg store).exec.seq < n := by
    intro id hid
    obtain ⟨n, hm, rfl⟩ := List.mem_map.mp (hadded.subset hid)
    exact ⟨n, rfl, (hb n hm).1⟩
  refine ⟨?_, fun id hid => ?_, List.forall_mem_append.mpr ⟨h.readable, fun e he => hd.readable e (hsub.subset he)⟩⟩
  · rw [Session.append, acceptedIds_append]
    refine h.nodup.append ((hn.map brkId_injective).sublist hadded) fun id hid hid' => ?_
    obtain ⟨n, rfl, hlt⟩ := hfresh id hid'
    exact absurd (h.le_seq hr hid) (Nat.not_le.mpr hlt)
  · rw [Session.append, acceptedIds_append] at hid
    rcases List.mem_append.mp hid with hid | hid
    · exact h.fallback id hid
    · obtain ⟨n, rfl, -⟩ := hfresh id hid
      exact ⟨n, rfl⟩

private theorem Distinct.storeOf (sessions : List Session) (h : Distinct store)
    (hu : Along cfg (NoVenueIds cfg) store sessions) (hr : Along cfg (fun store _ => Resumable cfg store) store sessions) :
    Distinct (storeOf cfg store sessions) := by
  induction sessions generalizing store with
  | nil => exact h
  | cons s sessions ih => exact ih (h.append hr.1 s hu.1) hu.2 hr.2

/-- The walk reads an order out of its own events. -/
private theorem get_walk_filter (events : List Event) (id : String) :
    (walk (eventsOf id events)).get id = (walk events).get id := by
  induction events using List.reverseRecOn with
  | nil => rfl
  | append_singleton events e ih =>
    rw [eventsOf, List.filter_append, get_walk_concat, ← eventsOf]
    by_cases he : e.orderId = some id
    · rw [List.filter_cons_of_pos (by simpa using he), List.filter_nil, get_walk_concat, ih]
    · rw [List.filter_cons_of_neg (by simpa using he), List.filter_nil, List.append_nil, ih, entryStep_of_ne he]

private theorem entryStep_none {e : Event} {id : String} (h : acceptedId e ≠ some id) : entryStep id none e = none := by
  cases e with
  | accepted e => exact if_neg fun he => h (congrArg some he)
  | filled e => exact ite_self none
  | updated e => exact ite_self none
  | rejected e => exact ite_self none
  | _ => rfl

/-- An order in the walk is an accepted one. -/
private theorem get_walk_of_not_accepted {id : String} (h : id ∉ acceptedIds store) : (walk store).get id = none := by
  induction store using List.reverseRecOn with
  | nil => rfl
  | append_singleton store e ih =>
    rw [acceptedIds_append, List.mem_append, not_or] at h
    rw [get_walk_concat, ih h.1]
    exact entryStep_none fun he => h.2 (List.mem_filterMap.mpr ⟨e, List.mem_singleton_self e, he⟩)

private theorem acceptedIds_filter (events : List Event) (id : String) :
    acceptedIds (eventsOf id events) = (acceptedIds events).filter (· = id) := by
  rw [acceptedIds, acceptedIds, eventsOf, List.filterMap_filter, List.filter_filterMap]
  refine List.filterMap_congr fun e _ => ?_
  cases e with
  | accepted e => simp [acceptedId, Event.orderId, Option.filter]
  | _ => exact ite_self none

/-- Where ids are unique, what the store tells of an order comes from the events of that order alone. -/
private theorem Distinct.attributed (h : Distinct store) {id : String} {delta : Delta} (hd : (id, delta) ∈ openOrderDeltas store) :
    acceptedIds (eventsOf id store) = [id] ∧ (id, delta) ∈ openOrderDeltas (eventsOf id store) := by
  obtain ⟨entry, hg, hopen, hdelta⟩ := mem_openOrderDeltas.mp hd
  have hid : id ∈ acceptedIds store := by
    by_contra hn
    rw [get_walk_of_not_accepted hn] at hg
    cases hg
  refine ⟨?_, mem_openOrderDeltas.mpr ⟨entry, (get_walk_filter store id).trans hg, hopen, hdelta⟩⟩
  rw [acceptedIds_filter, List.filter_eq, List.count_eq_one_of_mem h.nodup hid]
  rfl

/-- As long as each process is resumed while the highest number is that of an order still open, no two
accepted orders of the store share an id, and what the store tells of an open order comes from its own events. -/
theorem fallback_ids_unique (cfg : Config) (sessions : List Session) (hu : Along cfg (NoVenueIds cfg) [] sessions)
    (hr : Along cfg (fun store _ => Resumable cfg store) [] sessions) :
    (acceptedIds (storeOf cfg [] sessions)).Nodup ∧
      ∀ d ∈ openOrderDeltas (storeOf cfg [] sessions),
        acceptedIds (eventsOf d.1 (storeOf cfg [] sessions)) = [d.1] ∧
          d ∈ openOrderDeltas (eventsOf d.1 (storeOf cfg [] sessions)) := by
  have hstart : Distinct [] := ⟨List.nodup_nil, nofun, nofun⟩
  have h := hstart.storeOf sessions hu hr
  exact ⟨h.nodup, fun d hd => h.attributed hd⟩

def oneOrder (report : Report) : Session where
  steps := [.submit marketBuy none (.placed none report) 0 [] []]
  kept := 10

def twoOrders (report : Report) : List Session := [oneOrder report, oneOrder ⟨.pending, some 0, none⟩]

theorem resting_orders_unique :
    (acceptedIds (storeOf oneStock [] (twoOrders ⟨.pending, some 0, none⟩))).Nodup ∧
      ∀ d ∈ openOrderDeltas (storeOf oneStock [] (twoOrders ⟨.pending, some 0, none⟩)),
        acceptedIds (eventsOf d.1 (storeOf oneStock [] (twoOrders ⟨.pending, some 0, none⟩))) = [d.1] ∧
          d ∈ openOrderDeltas (eventsOf d.1 (storeOf oneStock [] (twoOrders ⟨.pending, some 0, none⟩))) := by
  let first := storeOf oneStock [] [oneOrder ⟨.pending, some 0, none⟩]
  have hids : acceptedIds first = [brkId 1] := by decide +kernel
  have hopen : openOrderDeltas first = [(brkId 1, (OpenOrder.ofAccepted (acceptance (brkId 1) marketBuy)).toDelta)] := by
    decide +kernel
  refine fallback_ids_unique oneStock _ ⟨?_, ?_, trivial⟩ ⟨?_, ?_, trivial⟩
  · unfold NoVenueIds
    decide +kernel
  · unfold NoVenueIds
    decide +kernel
  · exact fun n hn => absurd hn List.not_mem_nil
  · intro n hn
    have hn : brkId n ∈ acceptedIds first := hn
    rw [hids] at hn
    refine ⟨1, _, (brkId_injective (List.mem_singleton.mp hn)).le, hopen ▸ List.mem_singleton_self _, ?_⟩
    decide +kernel

/-- The first order is filled before the crash, and the first order after it gets the same id. -/
theorem filled_order_shares_id :
    ¬(Along oneStock (NoVenueIds oneStock) [] (twoOrders ⟨.completed, some 10, some 100⟩) →
      (acceptedIds (storeOf oneStock [] (twoOrders ⟨.completed, some 10, some 100⟩))).Nodup) := by
  intro h
  have hn := h ⟨by unfold NoVenueIds; decide +kernel, by unfold NoVenueIds; decide +kernel, trivial⟩
  revert hn
  decide +kernel

end Sessions

end NTrade.Storage
