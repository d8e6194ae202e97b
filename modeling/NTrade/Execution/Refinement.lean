import NTrade.Execution.OrderLife

/-! The execution target refines the lives of its orders: whatever handlers do while an
event is in dispatch, the trace of a run is, order by order, a life, and the tracker
holds the record that the life has reached. -/
namespace NTrade.Execution
open NTrade.Domain NTrade.Events NTrade.Lib

/-- Whether an id has the form of a fallback id. -/
def isBrk (orderId : String) : Bool := orderId.toList.take 4 = ['B', 'R', 'K', '-']

/-- The venue's part of an observation: the ids it gives to new orders are new, and none of
its ids has the form of a fallback id. -/
def venueIds (pre : List Obs) : Obs → Bool
  | .placed _ answer orderId _ _ =>
    (venueId answer).isNone || (!isBrk orderId && pre.all fun o => o.opens ≠ some orderId)
  | .adopted orderId _ => !isBrk orderId
  | _ => true

abbrev VenueIds : List Obs → Prop := Trace.Always venueIds

structure Ids (w : World) : Prop where
  fresh : ∀ n, w.exec.seq < n → ∀ o ∈ w.trace, o.opens ≠ some (brkId n)
  named : ∀ o ∈ w.trace, o.opens ≠ some ""

theorem isBrk_brkId (n : Nat) : isBrk (brkId n) = true := by
  simp [isBrk, brkId]

variable (cfg : Config)

def Follows (w : World) (orderId : String) (l : Life) : Prop :=
  (life cfg orderId).Accepts w.trace l ∧ w.record orderId = l.record

structure Tame (w : World) : Prop where
  ids : Ids w
  lives : ∀ j, ∃ l, Follows cfg w j l

def Adds (w w' : World) : Prop := ∃ new, w'.trace = w.trace ++ new ∧ ∀ o ∈ new, ∀ j r, o ≠ .restored j r

structure Calm (w w' : World) : Prop where
  ext : Adds w w'
  spec : VenueIds w'.trace → Tame cfg w → Ids w' ∧
    ∀ j l, Follows cfg w j l → ∃ l', Follows cfg w' j l' ∧ l.Disturbed l'

structure Goes (orderId : String) (P Q : Life → Prop) (w w' : World) : Prop where
  ext : Adds w w'
  spec : VenueIds w'.trace → Tame cfg w → ∀ l, Follows cfg w orderId l → P l → Ids w' ∧
    (∀ j l, j ≠ orderId → Follows cfg w j l → ∃ l', Follows cfg w' j l' ∧ l.Disturbed l') ∧
    ∃ l', Follows cfg w' orderId l' ∧ Q l'

variable {cfg} {orderId : String} {P Q R : Life → Prop} {w w' w'' : World}

theorem Adds.silent (ht : w'.trace = w.trace) : Adds w w' := ⟨[], by simp [ht], by simp⟩

theorem Adds.one {o : Obs} (ht : w'.trace = w.trace ++ [o]) (ho : ∀ j r, o ≠ .restored j r) : Adds w w' :=
  ⟨[o], ht, fun _ ha j r => (List.mem_singleton.mp ha) ▸ ho j r⟩

theorem Adds.unopened {o : Obs} (ht : w'.trace = w.trace ++ [o]) (ho : o.opens = none) : Adds w w' := by
  refine .one ht ?_
  rintro j r rfl
  cases ho

theorem Adds.trans (h : Adds w w') (h' : Adds w' w'') : Adds w w'' := by
  obtain ⟨new, ht, hn⟩ := h
  obtain ⟨new', ht', hn'⟩ := h'
  refine ⟨new ++ new', by rw [ht', ht, List.append_assoc], fun o ho => ?_⟩
  rcases List.mem_append.mp ho with ho | ho
  · exact hn o ho
  · exact hn' o ho

theorem Adds.isPrefix (h : Adds w w') : w.trace <+: w'.trace := by
  obtain ⟨new, ht, _⟩ := h
  exact ⟨new, ht.symm⟩

theorem Calm.refl (w : World) : Calm cfg w w :=
  ⟨.silent rfl, fun _ hw => ⟨hw.ids, fun _ l h => ⟨l, h, .refl l⟩⟩⟩

theorem Calm.tame (h : Calm cfg w w') (hV : VenueIds w'.trace) (hw : Tame cfg w) : Tame cfg w' := by
  obtain ⟨hi, hc⟩ := h.spec hV hw
  refine ⟨hi, fun j => ?_⟩
  obtain ⟨l, hl⟩ := hw.lives j
  obtain ⟨l', hl', _⟩ := hc j l hl
  exact ⟨l', hl'⟩

theorem Goes.tame (h : Goes cfg orderId P Q w w') (hV : VenueIds w'.trace) (hw : Tame cfg w) {l : Life}
    (hl : Follows cfg w orderId l) (hp : P l) : Tame cfg w' := by
  obtain ⟨hi, hc, l', hl', _⟩ := h.spec hV hw l hl hp
  refine ⟨hi, fun j => ?_⟩
  by_cases hj : j = orderId
  · exact ⟨l', hj ▸ hl'⟩
  · obtain ⟨l, hl⟩ := hw.lives j
    obtain ⟨l', hl', _⟩ := hc j l hj hl
    exact ⟨l', hl'⟩

theorem Calm.trans (h : Calm cfg w w') (h' : Calm cfg w' w'') : Calm cfg w w'' := by
  refine ⟨h.ext.trans h'.ext, fun hv hw => ?_⟩
  have hv' := hv.of_isPrefix h'.ext.isPrefix
  obtain ⟨_, hc⟩ := h.spec hv' hw
  obtain ⟨hi'', hc'⟩ := h'.spec hv (h.tame hv' hw)
  refine ⟨hi'', fun j l hl => ?_⟩
  obtain ⟨l', hl', hd⟩ := hc j l hl
  obtain ⟨l'', hl'', hd'⟩ := hc' j l' hl'
  exact ⟨l'', hl'', hd.trans hd'⟩

theorem Goes.trans (h : Goes cfg orderId P Q w w') (h' : Goes cfg orderId Q R w' w'') :
    Goes cfg orderId P R w w'' := by
  refine ⟨h.ext.trans h'.ext, fun hv hw l hl hp => ?_⟩
  have hv' := hv.of_isPrefix h'.ext.isPrefix
  obtain ⟨_, hc, l', hl', hq⟩ := h.spec hv' hw l hl hp
  obtain ⟨hi'', hc', hr⟩ := h'.spec hv (h.tame hv' hw hl hp) l' hl' hq
  refine ⟨hi'', fun j l hj hl => ?_, hr⟩
  obtain ⟨l', hl', hd⟩ := hc j l hj hl
  obtain ⟨l'', hl'', hd'⟩ := hc' j l' hj hl'
  exact ⟨l'', hl'', hd.trans hd'⟩

/-- A change of what is neither traced nor tracked. -/
theorem Calm.silent (ht : w'.trace = w.trace) (hs : w'.exec.seq = w.exec.seq)
    (ho : w'.exec.openOrders = w.exec.openOrders) : Calm cfg w w' := by
  refine ⟨.silent ht, fun _ hw => ⟨⟨?_, ?_⟩, fun j l hl => ⟨l, ⟨?_, ?_⟩, .refl l⟩⟩⟩
  · rw [hs, ht]
    exact hw.ids.fresh
  · rw [ht]
    exact hw.ids.named
  · rw [ht]
    exact hl.1
  · rw [← hl.2, World.record, World.record, ho]

theorem Calm.goes (h : Calm cfg w w') (hpq : ∀ l l', P l → l.Disturbed l' → Q l') :
    Goes cfg orderId P Q w w' := by
  refine ⟨h.ext, fun hv hi l hl hp => ?_⟩
  obtain ⟨hi', hc⟩ := h.spec hv hi
  obtain ⟨l', hl', hd⟩ := hc orderId l hl
  exact ⟨hi', fun j l _ => hc j l, l', hl', hpq l l' hp hd⟩

private theorem follows_other {o : Obs} {j : String} {l : Life} (ho : o.orderId ≠ some j)
    (ht : w'.trace = w.trace ++ [o]) (hr : w'.record j = w.record j) (h : Follows cfg w j l) :
    Follows cfg w' j l := by
  refine ⟨?_, hr.trans h.2⟩
  rw [ht]
  exact .concat h.1 (.inr ⟨ho, rfl⟩)

private theorem follows_move {o : Obs} {l l' : Life} (ho : o.orderId = some orderId)
    (hm : Move cfg orderId l o l') (ht : w'.trace = w.trace ++ [o]) (hr : w'.record orderId = l'.record)
    (h : Follows cfg w orderId l) : Follows cfg w' orderId l' := by
  refine ⟨?_, hr⟩
  rw [ht]
  exact .concat h.1 (.inl ⟨ho, hm⟩)

private theorem ids_of_opens_none {o : Obs} (ho : o.opens = none) (hs : w'.exec.seq = w.exec.seq)
    (ht : w'.trace = w.trace ++ [o]) (hi : Ids w) : Ids w' := by
  constructor
  · intro n hn a ha
    rw [ht] at ha
    rcases List.mem_append.mp ha with ha | ha
    · exact hi.fresh n (hs ▸ hn) a ha
    · obtain rfl := List.mem_singleton.mp ha
      simp [ho]
  · intro a ha
    rw [ht] at ha
    rcases List.mem_append.mp ha with ha | ha
    · exact hi.named a ha
    · obtain rfl := List.mem_singleton.mp ha
      simp [ho]

/-- A logged observation that moves one order and touches no other record. -/
theorem Goes.write {o : Obs} (ht : w'.trace = w.trace ++ [o]) (ho : o.orderId = some orderId)
    (hs : w'.exec.seq = w.exec.seq) (hn : o.opens = none)
    (hr : ∀ j, j ≠ orderId → w'.record j = w.record j)
    (hm : ∀ l, P l → w.record orderId = l.record →
      ∃ l', Move cfg orderId l o l' ∧ w'.record orderId = l'.record ∧ Q l') :
    Goes cfg orderId P Q w w' := by
  refine ⟨.unopened ht hn, fun _ hw l hl hp => ?_⟩
  refine ⟨ids_of_opens_none hn hs ht hw.ids, fun j l hj hl => ?_, ?_⟩
  · exact ⟨l, follows_other (fun h => hj (Option.some.inj (h.symm.trans ho))) ht (hr j hj) hl, .refl l⟩
  · obtain ⟨l', hm, hr', hq⟩ := hm l hp hl.2
    exact ⟨l', follows_move ho hm ht hr' hl, hq⟩

/-- The same where the move is one that a handler can make. -/
theorem Calm.write {o : Obs} (ht : w'.trace = w.trace ++ [o]) (hs : w'.exec.seq = w.exec.seq)
    (hn : o.opens = none) (hr : ∀ j, o.orderId ≠ some j → w'.record j = w.record j)
    (hm : ∀ j l, o.orderId = some j → Ids w → Follows cfg w j l →
      ∃ l', Move cfg j l o l' ∧ w'.record j = l'.record ∧ l.Disturbed l') : Calm cfg w w' := by
  refine ⟨.unopened ht hn, fun _ hw => ⟨ids_of_opens_none hn hs ht hw.ids, fun j l hl => ?_⟩⟩
  by_cases ho : o.orderId = some j
  · obtain ⟨l', hm, hr', hd⟩ := hm j l ho hw.ids hl
    exact ⟨l', follows_move ho hm ht hr' hl, hd⟩
  · exact ⟨l, follows_other ho ht (hr j ho) hl, .refl l⟩

/-- An observation about no order. -/
theorem Calm.log {o : Obs} (ho : o.orderId = none) (hn : o.opens = none) : Calm cfg w (w.log o) :=
  .write rfl rfl hn (fun _ _ => rfl) fun j l h => by simp [ho] at h

/-- An observation of the venue's that leaves every life where it is. -/
theorem Calm.venue {o : Obs} (hn : o.opens = none) (hm : ∀ j l, o.orderId = some j → Move cfg j l o l) :
    Calm cfg w (w.log o) :=
  .write rfl rfl hn (fun _ _ => rfl) fun j l h _ hl => ⟨l, hm j l h, hl.2, .refl l⟩

private theorem calm_enter (w : World) : Calm cfg w w.enter := .silent rfl rfl rfl

theorem Calm.publish {e : Event} {handlers : World → World} (hh : ∀ w, Calm cfg w (handlers w))
    (he : e.orderId = none) : Calm cfg w (w.publish e handlers) := by
  have hl : Calm cfg (handlers w.enter) ((handlers w.enter).log (.event ⟨w.stamp, e⟩)) := Calm.log he rfl
  have hs : Calm cfg ((handlers w.enter).log (.event ⟨w.stamp, e⟩)) (w.publish e handlers) := .silent rfl rfl rfl
  exact (calm_enter w).trans ((hh _).trans (hl.trans hs))

/-- A rejected placement is published under the empty id, which no order has. -/
theorem Calm.refuse {e : OrderRejected} {handlers : World → World} (hh : ∀ w, Calm cfg w (handlers w))
    (he : e.orderId = "") : Calm cfg w (w.publish (.rejected e) handlers) := by
  have hl : Calm cfg (handlers w.enter) ((handlers w.enter).leave ⟨w.stamp, .rejected e⟩) := by
    refine .write rfl rfl rfl (fun _ _ => rfl) fun j l hj hi hl => ?_
    obtain rfl : e.orderId = j := Option.some.inj hj
    obtain rfl := unknown_of_not_opened hl.1 (he ▸ hi.named)
    exact ⟨.unknown, .refuse _ e rfl he, hl.2, .refl _⟩
  exact (calm_enter w).trans ((hh _).trans hl)

/-- Publishing an event of one order, while handlers may disturb it. -/
theorem Goes.publish {e : Event} {handlers : World → World} (hh : ∀ w, Calm cfg w (handlers w))
    (he : e.orderId = some orderId)
    (hm : ∀ l l', P l → w.record orderId = l.record → l.Disturbed l' →
      ∃ l'', Move cfg orderId l' (.event ⟨w.stamp, e⟩) l'' ∧ l''.record = l'.record ∧ Q l'') :
    Goes cfg orderId P Q w (w.publish e handlers) := by
  have hc : Calm cfg w (handlers w.enter) := (calm_enter w).trans (hh _)
  have ho : (Obs.event ⟨w.stamp, e⟩).orderId = some orderId := he
  refine ⟨hc.ext.trans (.unopened (o := .event ⟨w.stamp, e⟩) rfl rfl), fun hv hi l hl hp => ?_⟩
  obtain ⟨hi', hd⟩ := hc.spec hv.of_append hi
  refine ⟨ids_of_opens_none (w := handlers w.enter) rfl rfl rfl hi', fun j l hj hl => ?_, ?_⟩
  · obtain ⟨l', hl', hdl⟩ := hd j l hl
    have hne : (Obs.event ⟨w.stamp, e⟩).orderId ≠ some j := fun h => hj (Option.some.inj (h.symm.trans ho))
    exact ⟨l', follows_other (w := handlers w.enter) hne rfl rfl hl', hdl⟩
  · obtain ⟨l', hl', hdl⟩ := hd orderId l hl
    obtain ⟨l'', hm, hr, hq⟩ := hm l l' hp hl.2 hdl
    exact ⟨l'', follows_move (w := handlers w.enter) ho hm rfl (hl'.2.trans hr.symm) hl', hq⟩

/-- What the present record of the order rules out of the precondition. -/
theorem Goes.pre (h : Goes cfg orderId Q R w w') (hp : ∀ l, w.record orderId = l.record → P l → Q l) :
    Goes cfg orderId P R w w' :=
  ⟨h.ext, fun hv hi l hl hpl => h.spec hv hi l hl (hp l hl.2 hpl)⟩

theorem Goes.stay (h : ∀ l, w.record orderId = l.record → P l → Q l) : Goes cfg orderId P Q w w :=
  ⟨.silent rfl, fun _ hw l hl hp => ⟨hw.ids, fun _ l _ hl => ⟨l, hl, .refl l⟩, l, hl, h l hl.2 hp⟩⟩

theorem Goes.post (h : Goes cfg orderId P Q w w') (hq : ∀ l, Q l → R l) : Goes cfg orderId P R w w' := by
  refine ⟨h.ext, fun hv hi l hl hp => ?_⟩
  obtain ⟨hi', hc, l', hl', hQ⟩ := h.spec hv hi l hl hp
  exact ⟨hi', hc, l', hl', hq l' hQ⟩

theorem cancel_calm (orderId : String) (ok : Bool) (w : World) : Calm cfg w (cancel orderId ok w) := by
  unfold cancel
  split
  · exact .refl w
  · next r hr =>
    split
    · refine .write rfl rfl rfl (fun j hj => ?_) fun j l hj _ hl => ?_
      · rw [World.record_update, if_neg fun h => hj (by rw [h]; rfl)]
      · obtain rfl : orderId = j := Option.some.inj hj
        have hlr := hl.2
        cases l with
        | tracked stage r' =>
          refine ⟨.tracked stage r'.cancel, .cancel stage r', ?_, .inr rfl⟩
          rw [World.record_update, if_pos rfl, hlr]
          rfl
        | _ => rw [hr] at hlr; cases hlr
    · exact .refl w

theorem foldl_calm {β : Type} {f : World → β → World} (hf : ∀ w b, Calm cfg w (f w b)) (bs : List β)
    (w : World) : Calm cfg w (bs.foldl f w) := by
  induction bs generalizing w with
  | nil => exact .refl w
  | cons b bs ih => exact (hf w b).trans (ih (f w b))

theorem tripKillSwitch_calm (mono : Rat) (ok : String → Bool) (w : World) :
    Calm cfg w (tripKillSwitch mono ok w) :=
  (foldl_calm (fun w orderId => cancel_calm orderId (ok orderId) w) _ w).trans (.silent rfl rfl rfl)

private theorem venueId_ne {answer : Option String} {s : String} (h : venueId answer = some s) : s ≠ "" := by
  have := (Option.filter_eq_some_iff.mp h).2
  simp only [decide_eq_true_eq] at this
  exact this.1

private theorem brkId_ne (n : Nat) : brkId n ≠ "" := by
  intro h
  have hb := isBrk_brkId n
  rw [h] at hb
  exact absurd hb (by decide)

/-- The venue's acceptance opens a life that nothing has happened in. -/
private theorem place_spec (cfg : Config) (w w' : World) {cause : Option Nat} {answer : Option String}
    {intent : OrderIntent} {order : Order} (hplace : cfg.Placeable intent)
    (ht : w'.trace = w.trace ++ [Obs.placed cause answer orderId intent order])
    (hs : w.exec.seq ≤ w'.exec.seq) (hr : w'.exec.openOrders = w.exec.openOrders)
    (hv : ∀ s, venueId answer = some s → orderId = s)
    (hb : venueId answer = none → orderId = brkId w'.exec.seq ∧ w.exec.seq < w'.exec.seq)
    (hV : VenueIds w'.trace) (hi : Ids w) :
    Ids w' ∧ (∀ j l, j ≠ orderId → Follows cfg w j l → Follows cfg w' j l) ∧
      ∀ l, Follows cfg w orderId l → l = .unknown ∧ Follows cfg w' orderId (.accepting intent order) := by
  rw [ht] at hV
  have hlast := (Trace.each_concat.mp hV).2
  have hnew : ∀ o ∈ w.trace, o.opens ≠ some orderId := by
    cases ha : venueId answer with
    | none =>
      obtain ⟨rfl, hlt⟩ := hb ha
      exact hi.fresh _ hlt
    | some s =>
      have : isBrk orderId = false ∧ ∀ o ∈ w.trace, ¬ o.opens = some orderId := by
        simpa [venueIds, ha] using hlast
      exact this.2
  have hother : ∀ n, w'.exec.seq < n → orderId ≠ brkId n := by
    intro n hn h
    cases ha : venueId answer with
    | none => exact absurd (brkId_injective ((hb ha).1.symm.trans h)) (by omega)
    | some s =>
      have : isBrk orderId = false ∧ ∀ o ∈ w.trace, ¬ o.opens = some orderId := by
        simpa [venueIds, ha] using hlast
      rw [h, isBrk_brkId] at this
      cases this.1
  have hname : orderId ≠ "" := by
    cases ha : venueId answer with
    | none => exact (hb ha).1 ▸ brkId_ne _
    | some s => exact hv s ha ▸ venueId_ne ha
  refine ⟨⟨?_, ?_⟩, ?_, ?_⟩
  · intro n hn o ho
    rw [ht] at ho
    rcases List.mem_append.mp ho with ho | ho
    · exact hi.fresh n (by omega) o ho
    · obtain rfl := List.mem_singleton.mp ho
      exact fun h => hother n hn (Option.some.inj h)
  · intro o ho
    rw [ht] at ho
    rcases List.mem_append.mp ho with ho | ho
    · exact hi.named o ho
    · obtain rfl := List.mem_singleton.mp ho
      exact fun h => hname (Option.some.inj h)
  · intro j l hj hl
    exact follows_other (o := .placed cause answer orderId intent order)
      (fun h => hj (Option.some.inj h).symm) ht (by rw [World.record, hr]; rfl) hl
  · intro l hl
    obtain rfl := unknown_of_not_opened hl.1 hnew
    exact ⟨rfl, follows_move rfl (.place cause answer intent order hplace) ht (by rw [World.record, hr]; exact hl.2) hl⟩

private theorem le_seq (w : World) (answer : Option String) :
    w.exec.seq ≤ if (venueId answer).isSome then w.exec.seq else nextSeq w.exec.openOrders w.exec.seq := by
  split
  · exact Nat.le_refl _
  · exact (lt_nextSeq _ _).le

private theorem fillOf_orderId {intent : OrderIntent} {order : Order} {already : Int} {now : Rat}
    {fill : OrderFilled} (h : fillOf cfg orderId intent order already now = some fill) :
    (Event.filled fill).orderId = some orderId := by
  rw [Event.orderId, (fillOf_eq_some h).1]

private theorem record_update_of_ne {f : Record → Record} {o : Obs} {j : String} (hj : j ≠ orderId) :
    (w.update orderId f o).record j = w.record j := by
  rw [World.record_update, if_neg hj]

/-- A fill published from `submit` ends the life; without one the order stays accepted. -/
private theorem emitFill_accepted {intent : OrderIntent} {order : Order} {now : Rat} {handlers : World → World}
    (hh : ∀ w, Calm cfg w (handlers w)) (hf : order.isFilled = true) :
    Goes cfg orderId (· = .accepted intent order) Life.Resting w
      (emitFill cfg orderId intent order false now handlers w) := by
  unfold emitFill
  cases hr : w.record orderId with
  | none =>
    cases hfill : fillOf cfg orderId intent order 0 now with
    | none =>
      simp only [Option.map_none, Option.getD_none, hfill]
      refine (Calm.refl w).goes ?_
      rintro l l' rfl hd
      obtain rfl := hd
      exact ⟨hf, fillOf_eq_none_iff.mp hfill⟩
    | some fill =>
      simp only [Option.map_none, Option.getD_none, hfill]
      refine Goes.publish hh (fillOf_orderId hfill) ?_
      rintro l l' rfl - hd
      obtain rfl := hd
      obtain ⟨-, -, -, -, -, -, rfl⟩ := fillOf_eq_some hfill
      exact ⟨.gone, .fillAtOnce intent order _ fill hf hfill, rfl, trivial⟩
  | some r =>
    -- an accepted order is not tracked
    refine Goes.pre (Q := fun _ => False) ?_ ?_
    · cases hfill : fillOf cfg orderId intent order r.filled now with
      | none =>
        simp only [Option.map_some, Option.getD_some, hfill]
        exact (Calm.refl w).goes fun _ _ h => h.elim
      | some fill =>
        simp only [Option.map_some, Option.getD_some, hfill]
        refine Goes.trans (Q := fun _ => False)
          (Goes.publish hh (fillOf_orderId hfill) fun _ _ h => h.elim) ?_
        exact Goes.write rfl rfl rfl rfl (fun j hj => record_update_of_ne hj) fun _ h => h.elim
    · rintro l hl rfl
      rw [hr] at hl
      cases hl

private theorem acknowledge_goes {intent : OrderIntent} {order : Order} {now : Rat}
    {onAccepted onFilled : World → World} (ha : ∀ w, Calm cfg w (onAccepted w))
    (hf : ∀ w, Calm cfg w (onFilled w)) :
    Goes cfg orderId (· = .accepting intent order) Life.Resting w
      (acknowledge cfg orderId intent order now onAccepted onFilled w) := by
  have hp : Goes cfg orderId (· = .accepting intent order) (· = .accepted intent order) w
      (w.publish (.accepted (acceptance orderId intent)) onAccepted) := by
    refine Goes.publish ha rfl ?_
    rintro l l' rfl - hd
    obtain rfl := hd
    exact ⟨_, .accept intent order _, rfl, rfl⟩
  unfold acknowledge
  dsimp only
  split
  · next hfilled => exact hp.trans (emitFill_accepted hf hfilled)
  · next hfilled =>
    refine hp.trans (Goes.write rfl rfl rfl rfl (fun j hj => ?_) ?_)
    · rw [World.record_put, if_neg hj]
    · rintro l rfl -
      refine ⟨_, .track intent order now (by simpa using hfilled), ?_, rfl⟩
      rw [World.record_put, if_pos rfl]
      rfl

theorem accept_calm {intent : OrderIntent} {key : Nat} {answer : Option String} {order : Order} {now : Rat}
    {onAccepted onFilled : World → World} (hplace : cfg.Placeable intent) (ha : ∀ w, Calm cfg w (onAccepted w))
    (hf : ∀ w, Calm cfg w (onFilled w)) (w : World) :
    Calm cfg w (accept cfg intent key answer order now onAccepted onFilled w) := by
  unfold accept
  extract_lets seq orderId identified
  have hb : venueId answer = none → orderId = brkId seq ∧ w.exec.seq < seq := by
    intro hn
    simp only [orderId, seq, hn, Option.getD_none, Option.isSome_none, Bool.false_eq_true, if_false]
    exact ⟨trivial, lt_nextSeq _ _⟩
  have hp := place_spec cfg w ((w.assign orderId seq key).log
      (.placed (w.stack.head?.map Stamp.eventId) answer orderId intent identified))
    hplace rfl (le_seq w answer) rfl (fun s hs => by simp [orderId, hs]) hb
  have hext : Adds w ((w.assign orderId seq key).log
      (.placed (w.stack.head?.map Stamp.eventId) answer orderId intent identified)) := .one rfl (by simp)
  generalize (w.assign orderId seq key).log
    (.placed (w.stack.head?.map Stamp.eventId) answer orderId intent identified) = w₁ at hp hext ⊢
  have hg : Goes cfg orderId (· = .accepting intent identified) Life.Resting w₁
    (acknowledge cfg orderId intent identified now onAccepted onFilled w₁) := acknowledge_goes ha hf
  refine ⟨hext.trans hg.ext, fun hV hi => ?_⟩
  have hV₁ := hV.of_isPrefix hg.ext.isPrefix
  obtain ⟨hi₁, hother, hnew⟩ := hp hV₁ hi.ids
  obtain ⟨l, hl⟩ := hi.lives orderId
  have hl₁ := (hnew l hl).2
  have hw₁ : Tame cfg w₁ := by
    refine ⟨hi₁, fun j => ?_⟩
    by_cases hj : j = orderId
    · exact ⟨_, hj ▸ hl₁⟩
    · obtain ⟨l', hl'⟩ := hi.lives j
      exact ⟨l', hother j l' hj hl'⟩
  obtain ⟨hi₂, hc, l₂, hl₂, hrest⟩ := hg.spec hV hw₁ _ hl₁ rfl
  refine ⟨hi₂, fun j l' hl' => ?_⟩
  by_cases hj : j = orderId
  · subst hj
    obtain ⟨rfl, _⟩ := hnew l' hl'
    exact ⟨l₂, hl₂, hrest⟩
  · exact hc j l' hj (hother j l' hj hl')

theorem request_side {instrument : Instrument} {intent : OrderIntent} {order : Order}
    (h : request instrument intent = .ok order) : ∃ side, OrderSide.ofValue intent.side.toUpper = .ok side := by
  rw [request] at h
  obtain ⟨orderType, -, h⟩ := bind_eq_ok h
  rw [OrderFacade.place] at h
  obtain ⟨side, hs, -⟩ := bind_eq_ok h
  exact ⟨side, hs⟩

theorem place_calm {instrument : Instrument} {intent : OrderIntent} {key : Nat} {p : Placement} {now : Rat}
    {onAccepted onFilled : World → World} (hi : cfg.brokerBacked intent.symbol = some instrument)
    (ha : ∀ w, Calm cfg w (onAccepted w)) (hf : ∀ w, Calm cfg w (onFilled w)) (w : World) :
    Calm cfg w (place cfg instrument intent key p now onAccepted onFilled w).1 := by
  unfold place
  split
  · exact .silent rfl rfl rfl
  · have h₁ : Calm cfg w (w.setIdem (w.exec.idem.release key)) := .silent rfl rfl rfl
    exact h₁.trans (.log rfl rfl)
  · next answer report order hreq =>
    have hplace : cfg.Placeable intent := ⟨by simp [hi], request_side hreq⟩
    exact (Calm.log rfl rfl).trans (accept_calm hplace ha hf _)

theorem submit_calm {intent : OrderIntent} {key : Nat} {p : Placement} {now : Rat}
    {onAccepted onFilled : World → World} (ha : ∀ w, Calm cfg w (onAccepted w))
    (hf : ∀ w, Calm cfg w (onFilled w)) (w : World) :
    Calm cfg w (submit cfg intent key p now onAccepted onFilled w).1 := by
  unfold submit
  split
  · exact .refl w
  · next instrument hinst =>
    extract_lets w₁
    have h₁ : Calm cfg w w₁ := .log rfl rfl
    split
    · exact h₁
    · exact h₁
    · next idem _ =>
      have h₂ : Calm cfg w (w₁.setIdem idem) := h₁.trans (.silent rfl rfl rfl)
      exact h₂.trans (place_calm hinst ha hf _)

/-- A rejected placement has no order id. -/
theorem submit_rejected {intent : OrderIntent} {key : Nat} {p : Placement} {now : Rat}
    {onAccepted onFilled : World → World} {w : World} {e : OrderRejected}
    (h : (submit cfg intent key p now onAccepted onFilled w).2 = .ok (some e)) : e.orderId = "" := by
  unfold submit place at h
  dsimp only at h
  split at h
  · cases h
    rfl
  · split at h
    · cases h
    · cases h
    · split at h
      · cases h
        rfl
      · cases h
        rfl
      · cases h

theorem onSignalApproved_calm {signal : SignalGenerated} {p : Placement} {now : Rat}
    {onIntent onAccepted onFilled onRejected : World → World} (hi : ∀ w, Calm cfg w (onIntent w))
    (ha : ∀ w, Calm cfg w (onAccepted w)) (hf : ∀ w, Calm cfg w (onFilled w))
    (hr : ∀ w, Calm cfg w (onRejected w)) (w : World) :
    Calm cfg w (onSignalApproved cfg signal p now onIntent onAccepted onFilled onRejected w) := by
  unfold onSignalApproved
  extract_lets intent done
  have h₁ : Calm cfg w (w.publish (.intent intent) onIntent) := .publish hi rfl
  have h₂ : Calm cfg w done.1 := h₁.trans (submit_calm ha hf _)
  split
  · next e he =>
    exact h₂.trans (.refuse hr (submit_rejected he))
  · exact h₂

mutual
theorem runAct_calm (a : Act) (w : World) : Calm cfg w (runAct cfg a w) := by
  match a with
  | .other name handlers => exact .publish (runActs_calm handlers) rfl
  | .approved signal p now onIntent onAccepted onFilled onRejected =>
    exact .publish (onSignalApproved_calm (runActs_calm onIntent) (runActs_calm onAccepted)
      (runActs_calm onFilled) (runActs_calm onRejected)) rfl
  | .cancel orderId ok => exact cancel_calm orderId ok w
  | .tripKill mono ok => exact tripKillSwitch_calm mono ok w
  | .executed orderId quantity price =>
    exact .venue rfl fun j l h => (Option.some.inj h) ▸ .execute l quantity price
  | .cancelTook orderId => exact .venue rfl fun j l h => (Option.some.inj h) ▸ .cancelTake l

theorem runActs_calm (as : List Act) (w : World) : Calm cfg w (runActs cfg as w) := by
  match as with
  | [] => exact .refl w
  | a :: as => exact (runAct_calm a w).trans (runActs_calm as _)
end

def At (stage : Stage) (l : Life) : Prop := ∃ r, l = .tracked stage r

def Closing (cfg : Config) (orderId : String) (l : Life) : Prop :=
  ∃ stage r, l = .tracked stage r ∧ stage.closing cfg orderId r

private theorem At.record {stage : Stage} {l : Life} {r : Record} (h : At stage l) (hr : some r = l.record) :
    l = .tracked stage r := by
  obtain ⟨r', rfl⟩ := h
  rw [Option.some.inj hr]

private theorem At.not_none {stage : Stage} {l : Life} (h : At stage l) (hr : none = l.record) : False := by
  obtain ⟨r', rfl⟩ := h
  cases hr

private theorem At.disturbed {stage : Stage} {l l' : Life} (h : At stage l) (hd : l.Disturbed l') : At stage l' := by
  obtain ⟨r, rfl⟩ := h
  rcases hd with rfl | rfl
  · exact ⟨_, rfl⟩
  · exact ⟨_, rfl⟩

private theorem timeoutOf_orderId {r : Record} {now : Rat} {e : OrderTimeout}
    (h : r.timeoutOf cfg orderId now = some e) : e.orderId = orderId := by
  unfold Record.timeoutOf at h
  dsimp only at h
  split at h
  · exact (Option.some.inj h) ▸ rfl
  · cases h

private theorem checkTimeout_goes (i : PollInput) (w : World) :
    Goes cfg orderId (At .refreshed) (At .refreshed) w (checkTimeout cfg orderId i w) := by
  have hsame : Goes cfg orderId (At .refreshed) (At .refreshed) w w :=
    (Calm.refl w).goes fun _ _ h hd => h.disturbed hd
  unfold checkTimeout
  split
  · exact hsame
  · split
    · exact hsame
    · next e he =>
      have hid := timeoutOf_orderId he
      refine Goes.publish (runActs_calm i.onTimeout) (by rw [Event.orderId, hid]) ?_
      intro l l' hl _ hd
      obtain ⟨r, rfl⟩ := hl.disturbed hd
      exact ⟨_, .timeout r _ e hid, rfl, r, rfl⟩

private theorem checkStatus_goes (i : PollInput) (w : World) :
    Goes cfg orderId (At .refreshed) (At .checked) w (checkStatus cfg orderId i w) := by
  unfold checkStatus
  cases hr : w.record orderId with
  | none => exact .stay fun l hl h => (h.not_none (hr ▸ hl)).elim
  | some r =>
    dsimp only
    split
    · next hs =>
      refine Goes.write rfl rfl rfl rfl (fun _ _ => rfl) fun l hl hlr => ?_
      obtain rfl := hl.record (hr ▸ hlr)
      exact ⟨_, .steady r hs, hlr, r, rfl⟩
    · next hs =>
      have hn : Goes cfg orderId (At .refreshed) (· = .tracked .noted r.note) w
          (w.update orderId Record.note (.noted orderId r.order.status)) := by
        refine Goes.write rfl rfl rfl rfl (fun j hj => record_update_of_ne hj) fun l hl hlr => ?_
        obtain rfl := hl.record (hr ▸ hlr)
        refine ⟨_, .note r hs, ?_, rfl⟩
        rw [World.record_update, if_pos rfl, hr]
        rfl
      refine hn.trans (Goes.publish (runActs_calm i.onUpdated) rfl ?_)
      rintro l l' rfl - (rfl | rfl)
      · exact ⟨_, .update _ _ _ rfl rfl rfl, rfl, _, rfl⟩
      · exact ⟨_, .update _ _ _ rfl rfl rfl, rfl, _, rfl⟩

private theorem fillOf_none_now {r : Record} {now now' : Rat} (h : r.fillOf cfg orderId now = none) :
    r.fillOf cfg orderId now' = none := fillOf_eq_none_iff.mpr (fillOf_eq_none_iff.mp h)

private theorem checkFill_goes (i : PollInput) (w : World) :
    Goes cfg orderId (At .checked) (Closing cfg orderId) w (checkFill cfg orderId i w) := by
  unfold checkFill emitFill
  cases hr : w.record orderId with
  | none => exact .stay fun l hl h => (h.not_none (hr ▸ hl)).elim
  | some r =>
    simp only [Option.map_some, Option.getD_some, if_true]
    cases hfill : fillOf cfg orderId r.intent r.order r.filled i.now with
    | none =>
      refine .stay fun l hl h => ?_
      obtain rfl := h.record (hr ▸ hl)
      exact ⟨_, r, rfl, .inr ⟨rfl, fillOf_none_now hfill⟩⟩
    | some fill =>
      have hp : Goes cfg orderId (At .checked) (At (.filled fill.quantity)) w
          (w.publish (.filled fill) (runActs cfg i.onFilled)) := by
        refine Goes.publish (runActs_calm i.onFilled) (fillOf_orderId hfill) fun l l' hl hlr hd => ?_
        obtain rfl := hl.record (hr ▸ hlr)
        obtain ⟨-, -, -, -, -, -, htime⟩ := fillOf_eq_some hfill
        have hts : r.fillOf cfg orderId fill.ts = some fill := htime.symm ▸ hfill
        rcases hd with rfl | rfl
        · exact ⟨_, .fill r _ fill hts, rfl, _, rfl⟩
        · exact ⟨_, .fill r.cancel _ fill hts, rfl, _, rfl⟩
      have he : Goes cfg orderId (At (.filled fill.quantity)) (At (.filled fill.quantity))
          (w.publish (.filled fill) (runActs cfg i.onFilled))
          ((w.publish (.filled fill) (runActs cfg i.onFilled)).emit (.filled fill)) :=
        Calm.goes (.silent rfl rfl rfl) fun _ _ h hd => h.disturbed hd
      refine (hp.trans he).trans (Goes.write rfl rfl rfl rfl (fun j hj => record_update_of_ne hj) ?_)
      rintro l ⟨r', rfl⟩ hlr
      refine ⟨_, .book r' fill.quantity, ?_, .booked, _, rfl, .inl rfl⟩
      rw [World.record_update, if_pos rfl, hlr]
      rfl

private theorem rejectionOf_eq {r : Record} {status : OrderStatus} {now : Rat} {e : OrderRejected}
    (h : r.rejectionOf orderId status now = some e) :
    e.orderId = orderId ∧ e.quantity = r.intent.quantity - r.filled ∧ 0 < e.quantity ∧
      e.reason = "order " ++ status.value := by
  unfold Record.rejectionOf at h
  dsimp only at h
  split at h
  · next hq => exact (Option.some.inj h) ▸ ⟨rfl, rfl, hq, rfl⟩
  · cases h

private theorem Closing.record {l : Life} {r : Record} (h : Closing cfg orderId l) (hr : some r = l.record) :
    ∃ stage : Stage, l = .tracked stage r ∧ stage.closing cfg orderId r := by
  obtain ⟨stage, r', rfl, hc⟩ := h
  obtain rfl := Option.some.inj hr
  exact ⟨stage, rfl, hc⟩

private theorem Closing.disturbed {l l' : Life} (h : Closing cfg orderId l) (hd : l.Disturbed l') :
    Closing cfg orderId l' := by
  obtain ⟨stage, r, rfl, hc⟩ := h
  rcases hd with rfl | rfl
  · exact ⟨stage, r, rfl, hc⟩
  · exact ⟨stage, r.cancel, rfl, hc⟩

private theorem remove_goes {o : Obs} (ho : o.orderId = some orderId) (hn : o.opens = none)
    (hm : ∀ l, P l → w.record orderId = l.record → Move cfg orderId l o .gone) :
    Goes cfg orderId P Life.Resting w (w.remove orderId o) := by
  refine Goes.write rfl ho rfl hn (fun j hj => ?_) fun l hl hlr => ⟨.gone, hm l hl hlr, ?_, trivial⟩
  · rw [World.record_remove, if_neg hj]
  · rw [World.record_remove, if_pos rfl]
    rfl

private theorem reject_goes {r : Record} {status : OrderStatus} (i : PollInput) (w : World)
    (hr : w.record orderId = some r) (hs : r.order.status = status)
    (ht : status = .rejected ∨ status = .cancelled) :
    Goes cfg orderId (Closing cfg orderId) Life.Resting w
      ((match r.rejectionOf orderId status i.now with
        | none => w
        | some e => (w.emit (.rejected e)).publish (.rejected e) (runActs cfg i.onRejected)).remove orderId
          (.popped orderId status)) := by
  have hor : r.order.status = .rejected ∨ r.order.status = .cancelled := hs ▸ ht
  cases he : r.rejectionOf orderId status i.now with
  | none =>
    refine remove_goes rfl rfl fun l hl hlr => ?_
    obtain ⟨stage, rfl, hc⟩ := hl.record (hr ▸ hlr)
    refine hs ▸ .closeFull stage r hc hor ?_
    unfold Record.rejectionOf at he
    dsimp only at he
    split at he
    · cases he
    · omega
  | some e =>
    obtain ⟨hid, hq, hp, hreason⟩ := rejectionOf_eq he
    have hcancel : e.reason = "order " ++ OrderStatus.cancelled.value → status = .cancelled := by
      rw [hreason]
      rcases ht with rfl | rfl
      · decide
      · exact fun _ => rfl
    let Rejected (l : Life) : Prop := ∃ r, l = .tracked .rejected r ∧ (status = .cancelled → r.order.status = .cancelled)
    have hpub : Goes cfg orderId (Closing cfg orderId) Rejected (w.emit (.rejected e))
        ((w.emit (.rejected e)).publish (.rejected e) (runActs cfg i.onRejected)) := by
      refine Goes.publish (runActs_calm i.onRejected) ?_ fun l l' hl hlr hd => ?_
      · rw [Event.orderId, hid]
      · obtain ⟨stage, rfl, hc⟩ := hl.record (r := r) (by rw [← hlr, ← hr]; rfl)
        rcases hd with rfl | rfl
        · exact ⟨_, .reject stage r _ e hc hor hid hq hp fun h => hs.trans (hcancel h), rfl, _, rfl, hs.trans⟩
        · exact ⟨_, .reject stage r.cancel _ e hc (.inr rfl) hid hq hp fun _ => rfl, rfl, _, rfl, fun _ => rfl⟩
    have hemit : Goes cfg orderId (Closing cfg orderId) (Closing cfg orderId) w (w.emit (.rejected e)) :=
      Calm.goes (.silent rfl rfl rfl) fun _ _ h hd => h.disturbed hd
    refine (hemit.trans hpub).trans (remove_goes rfl rfl ?_)
    rintro l ⟨r', rfl, hr'⟩ -
    exact .close r' status ht hr'

private theorem settle_goes (i : PollInput) (w : World) :
    Goes cfg orderId (Closing cfg orderId) Life.Resting w (settle cfg orderId i w) := by
  unfold settle
  cases hr : w.record orderId with
  | none =>
    refine .stay fun l hl h => ?_
    obtain ⟨stage, r, rfl, -⟩ := h
    rw [hr] at hl
    cases hl
  | some r =>
    have hkeep : r.order.status.isTerminal = false →
        Goes cfg orderId (Closing cfg orderId) Life.Resting w (w.log (.kept orderId)) := by
      intro ht
      refine Goes.write rfl rfl rfl rfl (fun _ _ => rfl) fun l hl hlr => ?_
      obtain ⟨stage, rfl, hc⟩ := hl.record (hr ▸ hlr)
      exact ⟨_, .keep stage r hc ht, hlr, rfl⟩
    dsimp only
    cases hs : r.order.status with
    | completed =>
      refine remove_goes rfl rfl fun l hl hlr => ?_
      obtain ⟨stage, rfl, hc⟩ := hl.record (hr ▸ hlr)
      exact .complete stage r hc hs
    | rejected => exact reject_goes i w hr hs (.inl rfl)
    | cancelled => exact reject_goes i w hr hs (.inr rfl)
    | pending => exact hkeep (by rw [hs]; rfl)
    | partiallyFilled => exact hkeep (by rw [hs]; rfl)

private theorem advance_goes (i : PollInput) (w : World) :
    Goes cfg orderId (At .refreshed) Life.Resting w (advance cfg orderId i w) :=
  ((checkTimeout_goes i w).trans (checkStatus_goes i _)).trans ((checkFill_goes i _).trans (settle_goes i _))

private theorem At.resting {l : Life} (h : At .idle l) : l.Resting := by
  obtain ⟨r, rfl⟩ := h
  rfl

private theorem update_goes {f : Record → Record} {o : Obs} {stage stage' : Stage} (ho : o.orderId = some orderId)
    (hn : o.opens = none) (hm : ∀ r, Move cfg orderId (.tracked stage r) o (.tracked stage' (f r))) :
    Goes cfg orderId (At stage) (At stage') w (w.update orderId f o) := by
  refine Goes.write rfl ho rfl hn (fun j hj => record_update_of_ne hj) ?_
  rintro l ⟨r, rfl⟩ hl
  refine ⟨_, hm r, ?_, f r, rfl⟩
  rw [World.record_update, if_pos rfl, hl]
  rfl

private theorem countStale_goes (w : World) :
    Goes cfg orderId (At .idle) Life.Resting w (countStale cfg orderId w) := by
  have hmiss : Goes cfg orderId (At .idle) (At .idle) w (w.update orderId Record.miss (.missed orderId)) :=
    update_goes rfl rfl .miss
  unfold countStale
  dsimp only
  split
  · exact hmiss.post fun _ h => h.resting
  · split
    · refine hmiss.trans (remove_goes rfl rfl ?_)
      rintro l ⟨r, rfl⟩ -
      exact .evict r
    · exact hmiss.post fun _ h => h.resting

private theorem touch_goes (status : Option OrderStatus) (w : World) :
    Goes cfg orderId (At .idle) (At .idle) w (touch orderId status w) := by
  unfold touch
  split
  · exact .stay fun _ _ h => h
  · exact update_goes rfl rfl fun r => .touch r _

private theorem setBreaker_calm {b : CircuitBreaker} (w : World) : Calm cfg w (w.setBreaker b) :=
  .silent rfl rfl rfl

private theorem setBreaker_goes {b : CircuitBreaker} {stage : Stage} (w : World) :
    Goes cfg orderId (At stage) (At stage) w (w.setBreaker b) :=
  (setBreaker_calm w).goes fun _ _ h hd => h.disturbed hd

private theorem refresh_goes (i : PollInput) (w : World) :
    Goes cfg orderId (At .idle) Life.Resting w (refresh cfg orderId i w) := by
  have hask : Goes cfg orderId (At .idle) (At .idle) w (w.log (.asked orderId)) := by
    refine Goes.write rfl rfl rfl rfl (fun _ _ => rfl) ?_
    rintro l ⟨r, rfl⟩ hl
    exact ⟨_, .ask r, hl, r, rfl⟩
  unfold refresh
  dsimp only
  split
  · next report _ =>
    have hup : ∀ v : World, Goes cfg orderId (At .idle) (At .refreshed) v
        (v.update orderId (·.refresh report) (.status orderId report)) :=
      fun v => update_goes rfl rfl fun r => .refresh r report
    exact (hask.trans (setBreaker_goes _)).trans ((hup _).trans (advance_goes i _))
  · exact (hask.trans (touch_goes _ _)).post fun _ h => h.resting
  · exact (hask.trans (touch_goes _ _)).trans ((setBreaker_goes _).trans (countStale_goes _))

/-- A refresh starts with the status request. -/
theorem refresh_asks (i : PollInput) (w : World) :
    Adds (w.log (.asked orderId)) (refresh cfg orderId i w) := by
  have htouch : ∀ (status : Option OrderStatus) (v : World), Adds v (touch orderId status v) :=
    fun status v => (touch_goes status v : Goes cfg orderId _ _ v _).ext
  unfold refresh
  dsimp only
  split
  · exact (Adds.silent rfl).trans ((Adds.unopened rfl rfl).trans (advance_goes i _).ext)
  · exact htouch _ _
  · exact (htouch _ _).trans ((Adds.silent rfl).trans (countStale_goes _).ext)

private theorem Life.Resting.at_idle {l : Life} {r : Record} (h : l.Resting) (hr : some r = l.record) :
    At .idle l := by
  cases l with
  | tracked stage r' => exact ⟨r', by rw [show stage = .idle from h]⟩
  | _ => cases hr

/-- Polling one order brings its life from rest to rest. -/
theorem pollOne_goes (i : PollInput) (w : World) :
    Goes cfg orderId Life.Resting Life.Resting w (pollOne cfg orderId i w) := by
  unfold pollOne
  split
  · exact .stay fun _ _ h => h
  · next r hr =>
    refine Goes.pre (Q := At .idle) ?_ fun l hl h => h.at_idle (hr ▸ hl)
    split
    · dsimp only
      split
      · exact countStale_goes w
      · next hsome =>
        obtain ⟨r', hr'⟩ : ∃ r', (countStale cfg orderId w).record orderId = some r' :=
          Option.ne_none_iff_exists'.mp fun h => hsome (by rw [h]; rfl)
        have hidle : Goes cfg orderId (At .idle) (At .idle) w (countStale cfg orderId w) :=
          (countStale_goes w).trans (.stay fun l hl h => h.at_idle (hr' ▸ hl))
        split
        · exact (hidle.trans (setBreaker_goes _)).trans (refresh_goes i _)
        · exact hidle.post fun _ h => h.resting
    · exact refresh_goes i w

structure Sound (cfg : Config) (w : World) : Prop where
  ids : Ids w
  lives : ∀ j, ∃ l, Follows cfg w j l ∧ l.Resting

theorem Sound.tame (h : Sound cfg w) : Tame cfg w := by
  refine ⟨h.ids, fun j => ?_⟩
  obtain ⟨l, hl, _⟩ := h.lives j
  exact ⟨l, hl⟩

theorem Calm.sound (h : Calm cfg w w') (hV : VenueIds w'.trace) (hw : Sound cfg w) : Sound cfg w' := by
  obtain ⟨hi, hc⟩ := h.spec hV hw.tame
  refine ⟨hi, fun j => ?_⟩
  obtain ⟨l, hl, hrest⟩ := hw.lives j
  obtain ⟨l', hl', hd⟩ := hc j l hl
  exact ⟨l', hl', hrest.of_disturbed hd⟩

theorem Goes.sound (h : Goes cfg orderId Life.Resting Life.Resting w w') (hV : VenueIds w'.trace)
    (hw : Sound cfg w) : Sound cfg w' := by
  obtain ⟨l₀, hl₀, hrest₀⟩ := hw.lives orderId
  obtain ⟨hi, hc, l', hl', hrest'⟩ := h.spec hV hw.tame l₀ hl₀ hrest₀
  refine ⟨hi, fun j => ?_⟩
  by_cases hj : j = orderId
  · exact ⟨l', hj ▸ hl', hrest'⟩
  · obtain ⟨l, hl, hrest⟩ := hw.lives j
    obtain ⟨l', hl', hd⟩ := hc j l hj hl
    exact ⟨l', hl', hrest.of_disturbed hd⟩

def Sounds (cfg : Config) (w w' : World) : Prop := Adds w w' ∧ (VenueIds w'.trace → Sound cfg w → Sound cfg w')

theorem Sounds.trans (h : Sounds cfg w w') (h' : Sounds cfg w' w'') : Sounds cfg w w'' :=
  ⟨h.1.trans h'.1, fun hV hw => h'.2 hV (h.2 (hV.of_isPrefix h'.1.isPrefix) hw)⟩

theorem Calm.sounds (h : Calm cfg w w') : Sounds cfg w w' := ⟨h.ext, h.sound⟩

theorem foldl_sounds {β : Type} {f : World → β → World} (hf : ∀ w b, Sounds cfg w (f w b)) (bs : List β)
    (w : World) : Sounds cfg w (bs.foldl f w) := by
  induction bs generalizing w with
  | nil => exact (Calm.refl w).sounds
  | cons b bs ih => exact (hf w b).trans (ih (f w b))

theorem pollOne_sounds (orderId : String) (i : PollInput) (w : World) : Sounds cfg w (pollOne cfg orderId i w) :=
  ⟨(pollOne_goes i w).ext, (pollOne_goes i w).sound⟩

theorem poll_sounds (inputs : String → PollInput) (w : World) : Sounds cfg w (poll cfg inputs w) := by
  have h : Calm cfg w { w with emitted := [] } := .silent rfl rfl rfl
  exact h.sounds.trans (foldl_sounds (fun w orderId => pollOne_sounds orderId (inputs orderId) w) _ _)

private theorem rehydrate_filled {delta : Delta} {r : Record} (h : rehydrate orderId delta = .ok r) :
    toInt r.order.filledQty = r.filled := by
  rw [rehydrate] at h
  obtain ⟨side, -, h⟩ := bind_eq_ok h
  obtain ⟨status, -, h⟩ := bind_eq_ok h
  cases h
  exact toInt_intCast _

/-- Opening a life from rest with a record. -/
private theorem Sound.opened {o : Obs} {r : Record} (hw : Sound cfg w) (ht : w'.trace = w.trace ++ [o])
    (ho : o.orderId = some orderId) (hr : ∀ j, w'.record j = if j = orderId then some r else w.record j)
    (hs : w.exec.seq ≤ w'.exec.seq) (hop : o.opens = some orderId) (hne : orderId ≠ "")
    (hb : ∀ n, w'.exec.seq < n → orderId ≠ brkId n)
    (hm : ∀ l, Follows cfg w orderId l → l.Resting → Move cfg orderId l o (.tracked .idle r)) :
    Sound cfg w' := by
  refine ⟨⟨?_, ?_⟩, fun j => ?_⟩
  · intro n hn a ha
    rw [ht] at ha
    rcases List.mem_append.mp ha with ha | ha
    · exact hw.ids.fresh n (by omega) a ha
    · obtain rfl := List.mem_singleton.mp ha
      rw [hop]
      exact fun h => hb n hn (Option.some.inj h)
  · intro a ha
    rw [ht] at ha
    rcases List.mem_append.mp ha with ha | ha
    · exact hw.ids.named a ha
    · obtain rfl := List.mem_singleton.mp ha
      rw [hop]
      exact fun h => hne (Option.some.inj h)
  · obtain ⟨l, hl, hrest⟩ := hw.lives j
    by_cases hj : j = orderId
    · subst hj
      exact ⟨_, follows_move ho (hm l hl hrest) ht (by rw [hr, if_pos rfl]; rfl) hl, rfl⟩
    · refine ⟨l, follows_other (fun h => hj ?_) ht (by rw [hr, if_neg hj]) hl, hrest⟩
      exact Option.some.inj (h.symm.trans ho)

theorem reconcileOpen_sounds (book : List OrderBookEntry) (now : Rat) (w : World) :
    Sounds cfg w (reconcileOpen cfg book now w) := by
  refine foldl_sounds (fun w entry => ?_) book w
  split
  · exact (Calm.refl w).sounds
  · next hid =>
    split
    · exact (Calm.refl w).sounds
    · next r hr =>
      refine ⟨.one rfl (by simp), fun hV hw => ?_⟩
      refine hw.opened (o := .adopted entry.orderId r) rfl rfl (World.record_put _ _ _ _) (Nat.le_refl _) rfl
        (fun h => hid (.inl h)) (fun n _ h => ?_) fun l _ hrest => .adopt l r hrest (adopt_eq_some hr).2
      have hlast := (Trace.each_concat.mp hV).2
      rw [h] at hlast
      simp [venueIds, isBrk_brkId] at hlast

theorem restoreOpen_sound (deltas : List (String × Delta)) (hne : ∀ d ∈ deltas, d.1 ≠ "")
    (w : World) (hw : Sound cfg w) : Sound cfg (restoreOpen cfg deltas w).2 := by
  induction deltas generalizing w with
  | nil => exact hw
  | cons d deltas ih =>
    obtain ⟨orderId, delta⟩ := d
    have ih := ih fun d hd => hne d (List.mem_cons_of_mem _ hd)
    unfold restoreOpen
    split
    · exact ih w hw
    · split
      · exact hw
      · next r hr =>
        refine ih _ (hw.opened (o := .restored orderId r) rfl rfl
          (World.record_put orderId r (.restored orderId r) w) (le_bumpSeq _ _) rfl
          (hne _ List.mem_cons_self) (fun n hn h => ?_) fun l _ hrest => .restore l r hrest (rehydrate_filled hr))
        have hle := le_bumpSeq_brkId w.exec.seq n
        rw [← h] at hle
        exact absurd hn (Nat.not_lt.mpr hle)

theorem step_sounds (s : Step) (w : World) : Sounds cfg w (step cfg w s) := by
  cases s with
  | act a => exact (runAct_calm a w).sounds
  | submit intent correlationId p now onAccepted onFilled =>
    have h : Calm cfg w { w with issued := w.issued + 1 } := .silent rfl rfl rfl
    exact (h.trans (submit_calm (runActs_calm onAccepted) (runActs_calm onFilled) _)).sounds
  | poll inputs => exact poll_sounds inputs w
  | reconcile book now => exact reconcileOpen_sounds book now w
  | breakerSuccess => exact (setBreaker_calm w).sounds
  | breakerFailure mono => exact (setBreaker_calm w).sounds

theorem run_sounds (steps : List Step) (w : World) : Sounds cfg w (run cfg steps w) :=
  foldl_sounds (fun w s => step_sounds s w) steps w

theorem sound_init : Sound cfg {} := by
  refine ⟨⟨?_, ?_⟩, fun j => ⟨.unknown, ⟨.nil, rfl⟩, trivial⟩⟩
  · intro n _ o ho
    cases ho
  · intro o ho
    cases ho

/-- The refinement: after any run, order by order, the trace is a life, and the tracker
holds the record the life has reached. -/
theorem run_refines (steps : List Step) (hV : VenueIds (run cfg steps {}).trace) (orderId : String) :
    ∃ l, Follows cfg (run cfg steps {}) orderId l ∧ l.Resting :=
  ((run_sounds steps {}).2 hV sound_init).lives orderId

theorem run_not_restored (steps : List Step) (j : String) (r : Record) :
    Obs.restored j r ∉ (run cfg steps {}).trace := by
  obtain ⟨new, ht, hn⟩ := (run_sounds steps {} : Sounds cfg {} _).1
  intro h
  rw [ht] at h
  exact hn _ (by simpa using h) j r rfl

end NTrade.Execution
