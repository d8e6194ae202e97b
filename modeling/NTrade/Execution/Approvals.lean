import NTrade.Execution.BrokerExecutor

/-! What becomes of an approved signal. The idempotency key of its order is the
correlation id of the whole causal chain, so a second order of a chain finds the receipt of
the first and is dropped without a word. -/
namespace NTrade.Execution
open NTrade.Domain NTrade.Events NTrade.Lib

inductive Outcome where
  | placed
  | accepted
  | rejected
  /-- The guard held a receipt for the key. -/
  | collapsed
  deriving DecidableEq

def Obs.outcome (eventId : Nat) : Obs → Option Outcome
  | .placed cause _ _ _ _ => if cause = some eventId then some .placed else none
  | .submitted cause _ _ prior => if cause = some eventId ∧ prior.isSome then some .collapsed else none
  | .event ⟨stamp, .accepted _⟩ => if stamp.causationId = some eventId then some .accepted else none
  | .event ⟨stamp, .rejected _⟩ => if stamp.causationId = some eventId then some .rejected else none
  | _ => none

def outcomes (eventId : Nat) (t : List Obs) : List Outcome := t.filterMap (Obs.outcome eventId)

def Obs.approves (eventId : Nat) : Obs → Bool
  | .event ⟨stamp, .approved _⟩ => stamp.eventId = eventId
  | _ => false

def Answered (os : List Outcome) : Prop := os = [.placed, .accepted] ∨ os = [.rejected]

/-- The order reached no guard that already held a receipt for its key. -/
def Unreceipted (eventId : Nat) (t : List Obs) : Prop :=
  ∀ intent key orderId, Obs.submitted (some eventId) intent key (some orderId) ∉ t

private structure Served (own : List Outcome) (w w' : World) : Prop where
  stack : w'.stack = w.stack
  issued : w.issued ≤ w'.issued
  idle : w'.exec.idem.reserved = []
  spec : ∃ new, w'.trace = w.trace ++ new ∧ (∀ s, w.stack.head? = some s → outcomes s.eventId new = own) ∧
    (∀ n, w.stack.head?.map Stamp.eventId ≠ some n → n < w.issued ∨ w'.issued ≤ n → outcomes n new = []) ∧
    ∀ n o, o ∈ new → o.approves n = true → w.issued ≤ n ∧ n < w'.issued ∧
      (Answered (outcomes n new) ∨ outcomes n new = [.collapsed])

/-- No key is reserved, and the events in dispatch have ids already issued. -/
private structure Ready (w : World) : Prop where
  idle : w.exec.idem.reserved = []
  issued : ∀ s ∈ w.stack, s.eventId < w.issued

private def Serves (own : List Outcome) (w w' : World) : Prop := Ready w → Served own w w'

variable {cfg : Config} {w w' w'' : World} {own own' : List Outcome}

@[simp] private theorem outcomes_append (n : Nat) (t u : List Obs) : outcomes n (t ++ u) = outcomes n t ++ outcomes n u :=
  List.filterMap_append

private theorem outcomes_one (n : Nat) (o : Obs) : outcomes n [o] = (o.outcome n).toList := by
  cases h : o.outcome n <;> simp [outcomes, h]

private theorem Served.ready (h : Served own w w') (hw : Ready w) : Ready w' := by
  refine ⟨h.idle, fun s hs => ?_⟩
  rw [h.stack] at hs
  exact (hw.issued s hs).trans_le h.issued

private theorem Ready.head_lt (h : Ready w) {n : Nat} (hn : w.stack.head?.map Stamp.eventId = some n) : n < w.issued := by
  obtain ⟨s, hs, rfl⟩ := Option.map_eq_some_iff.mp hn
  exact h.issued s (List.mem_of_mem_head? hs)

private theorem Serves.refl (w : World) : Serves [] w w :=
  fun hw => ⟨rfl, Nat.le_refl _, hw.idle, [], by simp, fun _ _ => rfl, fun _ _ _ => rfl, by simp⟩

private theorem Served.trans (h₁ : Served own w w') (h₂ : Served own' w' w'') (hw : Ready w) :
    Served (own ++ own') w w'' := by
  obtain ⟨new, ht, hown, hother, happ⟩ := h₁.spec
  obtain ⟨new', ht', hown', hother', happ'⟩ := h₂.spec
  have hhead : ∀ n, w.issued ≤ n → w.stack.head?.map Stamp.eventId ≠ some n := fun n hn he =>
    absurd (hw.head_lt he) (Nat.not_lt.mpr hn)
  rw [h₁.stack] at hown' hother'
  refine ⟨h₂.stack.trans h₁.stack, h₁.issued.trans h₂.issued, h₂.idle, new ++ new', ?_, ?_, ?_, ?_⟩
  · rw [ht', ht, List.append_assoc]
  · intro s hs
    rw [outcomes_append, hown s hs, hown' s hs]
  · intro n hn hr
    have hi := h₁.issued
    have hi' := h₂.issued
    rw [outcomes_append, hother n hn (by omega), hother' n hn (by omega), List.append_nil]
  · intro n o ho ha
    have hi := h₁.issued
    have hi' := h₂.issued
    rcases List.mem_append.mp ho with ho | ho
    · obtain ⟨hge, hlt, hd⟩ := happ n o ho ha
      rw [outcomes_append, hother' n (hhead n hge) (.inl hlt), List.append_nil]
      exact ⟨hge, by omega, hd⟩
    · obtain ⟨hge, hlt, hd⟩ := happ' n o ho ha
      rw [outcomes_append, hother n (hhead n (by omega)) (.inr hge), List.nil_append]
      exact ⟨by omega, hlt, hd⟩

private theorem Serves.trans (h : Serves own w w') (h' : Serves own' w' w'') : Serves (own ++ own') w w'' :=
  fun hw => (h hw).trans (h' ((h hw).ready hw)) hw

/-- A change of what has no part in it. -/
private theorem Serves.silent (ht : w'.trace = w.trace) (hs : w'.stack = w.stack) (hi : w.issued ≤ w'.issued)
    (hr : w'.exec.idem.reserved = w.exec.idem.reserved) : Serves [] w w' :=
  fun hw => ⟨hs, hi, hr.trans hw.idle, [], by simp [ht], fun _ _ => rfl, fun _ _ _ => rfl, by simp⟩

/-- Observations whose outcomes, if any, are those of the event in dispatch. -/
private theorem Served.write (new : List Obs) (ht : w'.trace = w.trace ++ new) (hs : w'.stack = w.stack)
    (hi : w'.issued = w.issued) (hr : w'.exec.idem.reserved = []) (ha : ∀ o ∈ new, ∀ n, o.approves n = false)
    (ho : ∀ n, outcomes n new = if w.stack.head?.map Stamp.eventId = some n then own else []) :
    Served own w w' := by
  refine ⟨hs, hi.ge, hr, new, ht, fun s hs => ?_, fun n hn _ => ?_, fun n o hm h => ?_⟩
  · rw [ho, if_pos (by rw [hs]; rfl)]
  · rw [ho, if_neg hn]
  · rw [ha o hm n] at h
    cases h

/-- An observation without an outcome. -/
private theorem Serves.log {o : Obs} (ht : w'.trace = w.trace ++ [o]) (hs : w'.stack = w.stack)
    (hi : w'.issued = w.issued) (hr : w'.exec.idem.reserved = w.exec.idem.reserved) (ha : ∀ n, o.approves n = false)
    (ho : ∀ n, o.outcome n = none) : Serves [] w w' :=
  fun hw => .write [o] ht hs hi (hr.trans hw.idle) (by simpa using ha) fun n => by simp [outcomes, ho]

private def tag : Event → List Outcome
  | .accepted _ => [.accepted]
  | .rejected _ => [.rejected]
  | _ => []

private theorem outcome_event (w : World) (e : Event) (n : Nat) : ((Obs.event ⟨w.stamp, e⟩).outcome n).toList =
    if w.stack.head?.map Stamp.eventId = some n then tag e else [] := by
  have hc : w.stamp.causationId = w.stack.head?.map Stamp.eventId := rfl
  cases e with
  | accepted e => simp only [Obs.outcome, hc]; split <;> rfl
  | rejected e => simp only [Obs.outcome, hc]; split <;> rfl
  | _ => simp [Obs.outcome, tag]

/-- Publishing: what the handlers see of a new event is its own business. -/
private theorem Serves.publish {e : Event} {handlers : World → World}
    (hh : Ready w.enter → ∃ own, Served own w.enter (handlers w.enter) ∧
      ((∃ signal, e = .approved signal) → Answered own ∨ own = [.collapsed])) :
    Serves (tag e) w (w.publish e handlers) := by
  intro hw
  have hw' : Ready w.enter := by
    refine ⟨hw.idle, fun s hs => ?_⟩
    rcases List.mem_cons.mp hs with rfl | hs
    · exact Nat.lt_succ_self _
    · exact (hw.issued s hs).trans (Nat.lt_succ_self _)
  obtain ⟨own, hserved, hdealt⟩ := hh hw'
  obtain ⟨new, ht, hown, hother, happ⟩ := hserved.spec
  have hissued : w.issued + 1 ≤ (handlers w.enter).issued := hserved.issued
  have hhead : w.enter.stack.head?.map Stamp.eventId = some w.issued := rfl
  have hnew : ∀ n, n ≠ w.issued → n < w.issued ∨ (handlers w.enter).issued ≤ n → outcomes n new = [] := by
    intro n hn hr
    refine hother n (by rw [hhead]; exact fun h => hn (Option.some.inj h).symm) ?_
    have he : w.enter.issued = w.issued + 1 := rfl
    omega
  have hone : ∀ n, outcomes n [.event ⟨w.stamp, e⟩] =
      if w.stack.head?.map Stamp.eventId = some n then tag e else [] := by
    intro n
    rw [← outcome_event]
    exact outcomes_one n _
  have hlast : ∀ n, w.issued ≤ n → outcomes n [.event ⟨w.stamp, e⟩] = [] := fun n hn => by
    rw [hone, if_neg fun he => absurd (hw.head_lt he) (Nat.not_lt.mpr hn)]
  refine ⟨?_, ?_, hserved.idle, new ++ [Obs.event ⟨w.stamp, e⟩], ?_, ?_, ?_, ?_⟩
  · exact congrArg List.tail hserved.stack
  · exact (Nat.le_succ _).trans hissued
  · rw [← List.append_assoc]
    exact congrArg (· ++ [Obs.event ⟨w.stamp, e⟩]) ht
  · intro s hs
    have hlt := hw.issued s (List.mem_of_mem_head? hs)
    rw [outcomes_append, hnew _ hlt.ne (.inl hlt), hone, if_pos (by rw [hs]; rfl), List.nil_append]
  · intro n hn hr
    have hr' : n ≠ w.issued ∧ (n < w.issued ∨ (handlers w.enter).issued ≤ n) := by
      have he : (w.publish e handlers).issued = (handlers w.enter).issued := rfl
      omega
    rw [outcomes_append, hnew n hr'.1 hr'.2, hone, if_neg hn, List.nil_append]
  · intro n o ho ha
    rcases List.mem_append.mp ho with ho | ho
    · obtain ⟨hge, hlt, hd⟩ := happ n o ho ha
      have he : w.enter.issued = w.issued + 1 := rfl
      rw [outcomes_append, hlast n (by omega), List.append_nil]
      exact ⟨by omega, hlt, hd⟩
    · obtain rfl := List.mem_singleton.mp ho
      obtain ⟨signal, rfl⟩ : ∃ signal, e = .approved signal := by
        cases e with
        | approved signal => exact ⟨signal, rfl⟩
        | _ => cases ha
      obtain rfl : w.issued = n := of_decide_eq_true ha
      have hmine : outcomes w.issued new = own := hown w.stamp rfl
      rw [outcomes_append, hmine, hlast _ (Nat.le_refl _), List.append_nil]
      exact ⟨Nat.le_refl _, hissued, hdealt ⟨signal, rfl⟩⟩

/-- An event of another component, with handlers that publish further events. -/
private theorem Serves.publish_plain (e : Event) {handlers : World → World}
    (hh : ∀ v, Serves [] v (handlers v)) (hn : ∀ signal, e ≠ .approved signal) :
    Serves (tag e) w (w.publish e handlers) :=
  .publish fun hw' => ⟨[], hh _ hw', fun ⟨signal, he⟩ => absurd he (hn signal)⟩

private theorem emitFill_serves {orderId : String} {intent : OrderIntent} {order : Order} {emitting : Bool} {now : Rat}
    {handlers : World → World} (hh : ∀ v, Serves [] v (handlers v)) (w : World) :
    Serves [] w (emitFill cfg orderId intent order emitting now handlers w) := by
  have hpub : ∀ fill, Serves [] w (w.publish (.filled fill) handlers) := fun fill =>
    Serves.publish_plain (.filled fill) hh (by simp)
  have hemit : ∀ fill v, Serves [] v (if emitting = true then World.emit (.filled fill) v else v) := by
    intro fill v
    split
    · exact .silent rfl rfl (Nat.le_refl _) rfl
    · exact .refl v
  have hbook : ∀ n v, Serves [] v (v.update orderId (·.book n) (.booked orderId n)) :=
    fun n v => .log rfl rfl rfl rfl (fun _ => rfl) fun _ => rfl
  unfold emitFill
  dsimp only
  split
  · exact .refl w
  · next fill _ =>
    split
    · exact (hpub fill).trans (hemit fill _)
    · exact ((hpub fill).trans (hemit fill _)).trans (hbook _ _)

private theorem acknowledge_serves {orderId : String} {intent : OrderIntent} {order : Order} {now : Rat}
    {onAccepted onFilled : World → World} (ha : ∀ v, Serves [] v (onAccepted v))
    (hf : ∀ v, Serves [] v (onFilled v)) (w : World) :
    Serves [.accepted] w (acknowledge cfg orderId intent order now onAccepted onFilled w) := by
  have hpub : Serves [.accepted] w (w.publish (.accepted (acceptance orderId intent)) onAccepted) :=
    Serves.publish_plain (.accepted _) ha (by simp)
  unfold acknowledge
  dsimp only
  split
  · exact hpub.trans (emitFill_serves hf _)
  · have htrack : ∀ v, Serves [] v (v.put orderId (track intent order now) (.tracked orderId (track intent order now))) :=
      fun v => .log rfl rfl rfl rfl (fun _ => rfl) fun _ => rfl
    exact hpub.trans (htrack _)

/-- A placement request, and the venue's acceptance of it: both under the event in dispatch. -/
private theorem accept_serves {intent : OrderIntent} {key : Nat} {answer : Option String} {order : Order} {now : Rat}
    {onAccepted onFilled : World → World} (ha : ∀ v, Serves [] v (onAccepted v)) (hf : ∀ v, Serves [] v (onFilled v))
    (requested : List Obs) (ht : w'.trace = w.trace ++ requested) (hs : w'.stack = w.stack) (hi : w'.issued = w.issued)
    (hr : w'.exec.idem.reserved = [key]) (hq : ∀ n, outcomes n requested = [])
    (hq' : ∀ o ∈ requested, ∀ n, o.approves n = false) :
    Serves [.placed, .accepted] w (accept cfg intent key answer order now onAccepted onFilled w') := by
  unfold accept
  extract_lets seq orderId identified
  have hplace : Serves [.placed] w ((w'.assign orderId seq key).log
      (.placed (w'.stack.head?.map Stamp.eventId) answer orderId intent identified)) := by
    refine fun _ => .write (requested ++ [Obs.placed (w'.stack.head?.map Stamp.eventId) answer orderId intent identified])
      ?_ hs hi ?_ ?_ fun n => ?_
    · rw [← List.append_assoc, ← ht]
      rfl
    · refine (MemoryIdempotencyGuard.recordResult_reserved w'.exec.idem key orderId).trans ?_
      rw [hr]
      simp
    · intro o ho n
      rcases List.mem_append.mp ho with ho | ho
      · exact hq' o ho n
      · obtain rfl := List.mem_singleton.mp ho
        rfl
    · rw [outcomes_append, hq, List.nil_append, ← hs]
      simp only [outcomes_one, Obs.outcome]
      split <;> rfl
  exact hplace.trans (acknowledge_serves ha hf _)

/-- A request that does not get an order releases its key. -/
private theorem release_serves (w' : World) (key : Nat) (requested : List Obs) (ht : w'.trace = w.trace ++ requested)
    (hs : w'.stack = w.stack) (hi : w'.issued = w.issued) (hr : w'.exec.idem.reserved = [key])
    (hq : ∀ n, outcomes n requested = []) (hq' : ∀ o ∈ requested, ∀ n, o.approves n = false) :
    Serves [] w (w'.setIdem (w'.exec.idem.release key)) := by
  refine fun _ => .write requested ht hs hi ?_ hq' fun n => by rw [hq]; split <;> rfl
  simp [World.setIdem, MemoryIdempotencyGuard.release, hr]

/-- What comes of a submit with no key reserved: a rejection to be published, a placement
with its acceptance, or nothing where the guard holds a receipt. -/
private theorem submit_serves (intent : OrderIntent) (key : Nat) (p : Placement) (now : Rat)
    {onAccepted onFilled : World → World} (ha : ∀ v, Serves [] v (onAccepted v)) (hf : ∀ v, Serves [] v (onFilled v))
    (w : World) (hr : w.exec.idem.reserved = []) :
    ∃ own, Serves own w (submit cfg intent key p now onAccepted onFilled w).1 ∧
      ((∃ e, (submit cfg intent key p now onAccepted onFilled w).2 = .ok (some e)) ∧ own = [] ∨
        (submit cfg intent key p now onAccepted onFilled w).2 = .ok none ∧
          (own = [.placed, .accepted] ∨ own = [.collapsed])) := by
  let cause := w.stack.head?.map Stamp.eventId
  cases hi : cfg.brokerBacked intent.symbol with
  | none =>
    have hsub : submit cfg intent key p now onAccepted onFilled w =
        (w, .ok (some (rejection intent "no broker-backed instrument"))) := by simp only [submit, hi]
    rw [hsub]
    exact ⟨[], .refl w, .inl ⟨⟨_, rfl⟩, rfl⟩⟩
  | some instrument =>
    have hidle := MemoryIdempotencyGuard.checkAndReserve_of_idle hr key
    cases hp : w.exec.idem.completed.get key with
    | some orderId =>
      have hsub : submit cfg intent key p now onAccepted onFilled w =
          (w.log (.submitted cause intent key (some orderId)), .ok none) := by
        simp only [submit, hi, World.log_exec, hidle, hp, cause]
      rw [hsub]
      refine ⟨[.collapsed], fun _ => .write [.submitted cause intent key (some orderId)] rfl rfl rfl hr
        (by simp [Obs.approves]) fun n => ?_, .inr ⟨rfl, .inr rfl⟩⟩
      simp only [outcomes_one, Obs.outcome, Option.isSome_some, and_true, cause]
      split <;> rfl
    | none =>
      let w' := (w.log (.submitted cause intent key none)).setIdem { w.exec.idem with reserved := [key] }
      have hsub : submit cfg intent key p now onAccepted onFilled w =
          ((place cfg instrument intent key p now onAccepted onFilled w').1,
            .ok (place cfg instrument intent key p now onAccepted onFilled w').2) := by
        simp only [submit, hi, World.log_exec, hidle, hp, cause, w']
      have hq : ∀ n, outcomes n [.submitted cause intent key none] = [] := by simp [outcomes, Obs.outcome]
      have hq' : ∀ n, outcomes n [.submitted cause intent key none, .ordered intent] = [] := by
        simp [outcomes, Obs.outcome]
      rw [hsub]
      unfold place
      cases request instrument intent with
      | error e =>
        exact ⟨[], release_serves w' key _ rfl rfl rfl rfl hq (by simp [Obs.approves]), .inl ⟨⟨_, rfl⟩, rfl⟩⟩
      | ok order =>
        cases p with
        | failed reason =>
          refine ⟨[], ?_, .inl ⟨⟨_, rfl⟩, rfl⟩⟩
          exact release_serves (w'.log (.ordered intent)) key [.submitted cause intent key none, .ordered intent]
            (by simp [w', World.log, World.setIdem]) rfl rfl rfl hq' (by simp [Obs.approves])
        | placed answer report =>
          refine ⟨[.placed, .accepted], ?_, .inr ⟨rfl, .inl rfl⟩⟩
          exact accept_serves ha hf [.submitted cause intent key none, .ordered intent]
            (by simp [w', World.log, World.setIdem]) rfl rfl rfl hq' (by simp [Obs.approves])

/-- The approved event's own handler deals with it. -/
private theorem onSignalApproved_serves {signal : SignalGenerated} {p : Placement} {now : Rat}
    {onIntent onAccepted onFilled onRejected : World → World} (hi : ∀ v, Serves [] v (onIntent v))
    (ha : ∀ v, Serves [] v (onAccepted v)) (hf : ∀ v, Serves [] v (onFilled v)) (hr : ∀ v, Serves [] v (onRejected v))
    (w : World) (hw : Ready w) :
    ∃ own, Served own w (onSignalApproved cfg signal p now onIntent onAccepted onFilled onRejected w) ∧
      (Answered own ∨ own = [.collapsed]) := by
  unfold onSignalApproved
  extract_lets intent done
  have hpub : Serves [] w (w.publish (.intent intent) onIntent) := Serves.publish_plain (.intent intent) hi (by simp)
  have hw' := (hpub hw).ready hw
  obtain ⟨own, hsub, hres⟩ : ∃ own, Serves own (w.publish (.intent intent) onIntent) done.1 ∧
      ((∃ e, done.2 = .ok (some e)) ∧ own = [] ∨
        done.2 = .ok none ∧ (own = [.placed, .accepted] ∨ own = [.collapsed])) :=
    submit_serves intent w.stamp.correlationId p now ha hf _ hw'.idle
  have hdone : Serves own w done.1 := hpub.trans hsub
  rcases hres with ⟨⟨e, he⟩, rfl⟩ | ⟨hnone, hown⟩
  · rw [he]
    exact ⟨[.rejected], hdone.trans (Serves.publish_plain (.rejected e) hr (by simp)) hw, .inl (.inr rfl)⟩
  · rw [hnone]
    exact ⟨own, hdone hw, hown.imp .inl id⟩

private theorem cancel_serves (orderId : String) (ok : Bool) (w : World) : Serves [] w (cancel orderId ok w) := by
  unfold cancel
  split
  · exact .refl w
  · split
    · exact .log rfl rfl rfl rfl (fun _ => rfl) fun _ => rfl
    · exact .refl w

private theorem tripKillSwitch_serves (mono : Rat) (ok : String → Bool) (w : World) :
    Serves [] w (tripKillSwitch mono ok w) := by
  have hall : ∀ (ids : List String) (v : World), Serves [] v (ids.foldl (fun v id => cancel id (ok id) v) v) := by
    intro ids
    induction ids with
    | nil => exact .refl
    | cons id ids ih => exact fun v => (cancel_serves id (ok id) v).trans (ih _)
  exact (hall _ w).trans (.silent rfl rfl (Nat.le_refl _) rfl)

mutual
private theorem runAct_serves (a : Act) (w : World) : Serves [] w (runAct cfg a w) := by
  match a with
  | .other name handlers => exact Serves.publish_plain (.other name) (runActs_serves handlers) (by simp)
  | .approved signal p now onIntent onAccepted onFilled onRejected =>
    refine Serves.publish (e := .approved signal) fun hw' => ?_
    obtain ⟨own, hserved, hdealt⟩ := onSignalApproved_serves (runActs_serves onIntent) (runActs_serves onAccepted)
      (runActs_serves onFilled) (runActs_serves onRejected) w.enter hw'
    exact ⟨own, hserved, fun _ => hdealt⟩
  | .cancel orderId ok => exact cancel_serves orderId ok w
  | .tripKill mono ok => exact tripKillSwitch_serves mono ok w
  | .executed orderId quantity price => exact .log rfl rfl rfl rfl (fun _ => rfl) fun _ => rfl
  | .cancelTook orderId => exact .log rfl rfl rfl rfl (fun _ => rfl) fun _ => rfl

private theorem runActs_serves (as : List Act) (w : World) : Serves [] w (runActs cfg as w) := by
  match as with
  | [] => exact .refl w
  | a :: as => exact (runAct_serves a w).trans (runActs_serves as _)
end

private def Calls (w w' : World) : Prop := Ready w → ∃ own, Served own w w'

private theorem Serves.calls (h : Serves own w w') : Calls w w' := fun hw => ⟨own, h hw⟩

private theorem Calls.trans (h : Calls w w') (h' : Calls w' w'') : Calls w w'' := by
  intro hw
  obtain ⟨own, h₁⟩ := h hw
  obtain ⟨own', h₂⟩ := h' (h₁.ready hw)
  exact ⟨own ++ own', h₁.trans h₂ hw⟩

private theorem foldl_calls {β : Type} {f : World → β → World} (hf : ∀ v b, Calls v (f v b)) (bs : List β) (w : World) :
    Calls w (bs.foldl f w) := by
  induction bs generalizing w with
  | nil => exact (Serves.refl w).calls
  | cons b bs ih => exact (hf w b).trans (ih (f w b))

private theorem update_serves (orderId : String) (f : Record → Record) {o : Obs} (ha : ∀ n, o.approves n = false)
    (ho : ∀ n, o.outcome n = none) (w : World) : Serves [] w (w.update orderId f o) :=
  .log rfl rfl rfl rfl ha ho

private theorem remove_serves (orderId : String) {o : Obs} (ha : ∀ n, o.approves n = false)
    (ho : ∀ n, o.outcome n = none) (w : World) : Serves [] w (w.remove orderId o) :=
  .log rfl rfl rfl rfl ha ho

private theorem log_serves {o : Obs} (ha : ∀ n, o.approves n = false) (ho : ∀ n, o.outcome n = none) (w : World) :
    Serves [] w (w.log o) :=
  .log rfl rfl rfl rfl ha ho

private theorem setBreaker_serves (b : CircuitBreaker) (w : World) : Serves [] w (w.setBreaker b) :=
  .silent rfl rfl (Nat.le_refl _) rfl

private theorem checkTimeout_calls (orderId : String) (i : PollInput) (w : World) :
    Calls w (checkTimeout cfg orderId i w) := by
  unfold checkTimeout
  split
  · exact (Serves.refl w).calls
  · split
    · exact (Serves.refl w).calls
    · exact (Serves.publish_plain (.timeout _) (runActs_serves i.onTimeout) (by simp)).calls

private theorem checkStatus_calls (orderId : String) (i : PollInput) (w : World) :
    Calls w (checkStatus cfg orderId i w) := by
  unfold checkStatus
  split
  · exact (Serves.refl w).calls
  · split
    · exact (log_serves (fun _ => rfl) (fun _ => rfl) w).calls
    · exact ((update_serves orderId Record.note (fun _ => rfl) (fun _ => rfl) w).trans
        (Serves.publish_plain (.updated _) (runActs_serves i.onUpdated) (by simp))).calls

private theorem checkFill_calls (orderId : String) (i : PollInput) (w : World) :
    Calls w (checkFill cfg orderId i w) := by
  unfold checkFill
  split
  · exact (Serves.refl w).calls
  · exact (emitFill_serves (runActs_serves i.onFilled) w).calls

private theorem rejected_calls (orderId : String) (i : PollInput) (r : Record) (status : OrderStatus) (w : World) :
    Calls w (match Record.rejectionOf orderId r status i.now with
      | none => w
      | some e => (w.emit (.rejected e)).publish (.rejected e) (runActs cfg i.onRejected)) := by
  split
  · exact (Serves.refl w).calls
  · next e _ =>
    have hemit : Serves [] w (w.emit (.rejected e)) := .silent rfl rfl (Nat.le_refl _) rfl
    exact (hemit.trans (Serves.publish_plain (.rejected e) (runActs_serves i.onRejected) (by simp))).calls

private theorem settle_calls (orderId : String) (i : PollInput) (w : World) : Calls w (settle cfg orderId i w) := by
  have hpop : ∀ status v, Calls v (World.remove orderId (.popped orderId status) v) := fun status v =>
    (remove_serves orderId (fun _ => rfl) (fun _ => rfl) v).calls
  unfold settle
  split
  · exact (Serves.refl w).calls
  · dsimp only
    split
    · exact hpop _ w
    · exact (rejected_calls orderId i _ _ w).trans (hpop _ _)
    · exact (rejected_calls orderId i _ _ w).trans (hpop _ _)
    · exact (log_serves (fun _ => rfl) (fun _ => rfl) w).calls
    · exact (log_serves (fun _ => rfl) (fun _ => rfl) w).calls

private theorem advance_calls (orderId : String) (i : PollInput) (w : World) : Calls w (advance cfg orderId i w) :=
  ((checkTimeout_calls orderId i w).trans (checkStatus_calls orderId i _)).trans
    ((checkFill_calls orderId i _).trans (settle_calls orderId i _))

private theorem countStale_calls (orderId : String) (w : World) : Calls w (countStale cfg orderId w) := by
  have hmiss := update_serves orderId Record.miss (o := .missed orderId) (fun _ => rfl) (fun _ => rfl) w
  unfold countStale
  dsimp only
  split
  · exact hmiss.calls
  · split
    · exact (hmiss.trans (remove_serves orderId (fun _ => rfl) (fun _ => rfl) _)).calls
    · exact hmiss.calls

private theorem touch_calls (orderId : String) (status : Option OrderStatus) (w : World) :
    Calls w (touch orderId status w) := by
  unfold touch
  split
  · exact (Serves.refl w).calls
  · exact (update_serves orderId _ (fun _ => rfl) (fun _ => rfl) w).calls

private theorem refresh_calls (orderId : String) (i : PollInput) (w : World) : Calls w (refresh cfg orderId i w) := by
  have hask := (log_serves (o := .asked orderId) (fun _ => rfl) (fun _ => rfl) w).calls
  unfold refresh
  dsimp only
  split
  · exact (hask.trans (setBreaker_serves _ _).calls).trans
      ((update_serves orderId _ (fun _ => rfl) (fun _ => rfl) _).calls.trans (advance_calls orderId i _))
  · exact hask.trans (touch_calls orderId _ _)
  · exact (hask.trans (touch_calls orderId _ _)).trans ((setBreaker_serves _ _).calls.trans (countStale_calls orderId _))

private theorem pollOne_calls (orderId : String) (i : PollInput) (w : World) : Calls w (pollOne cfg orderId i w) := by
  have hstale : Calls w (countStale cfg orderId w) := countStale_calls orderId w
  unfold pollOne
  split
  · exact (Serves.refl w).calls
  · split
    · dsimp only
      split
      · exact hstale
      · split
        · exact (hstale.trans (setBreaker_serves _ _).calls).trans (refresh_calls orderId i _)
        · exact hstale
    · exact refresh_calls orderId i w

private theorem reconcileOpen_calls (book : List OrderBookEntry) (now : Rat) (w : World) :
    Calls w (reconcileOpen cfg book now w) := by
  refine foldl_calls (fun v entry => ?_) book w
  split
  · exact (Serves.refl v).calls
  · split
    · exact (Serves.refl v).calls
    · next r _ =>
      have hadopt : Serves [] v (v.put entry.orderId r (.adopted entry.orderId r)) :=
        .log rfl rfl rfl rfl (fun _ => rfl) fun _ => rfl
      exact hadopt.calls

private theorem step_calls (s : Step) (w : World) : Calls w (step cfg w s) := by
  have hsame : ∀ {v : World}, v.trace = w.trace → v.stack = w.stack → w.issued ≤ v.issued →
      v.exec.idem.reserved = w.exec.idem.reserved → Calls w v := fun ht hs hi hr => (Serves.silent ht hs hi hr).calls
  cases s with
  | act a => exact (runAct_serves a w).calls
  | submit intent correlationId p now onAccepted onFilled =>
    have hissue : Calls w { w with issued := w.issued + 1 } := hsame rfl rfl (Nat.le_succ _) rfl
    refine hissue.trans fun hw => ?_
    obtain ⟨own, h, -⟩ := submit_serves intent (correlationId.getD w.issued) p now (runActs_serves onAccepted)
      (runActs_serves onFilled) { w with issued := w.issued + 1 } hw.idle
    exact ⟨own, h hw⟩
  | poll inputs =>
    have hclear : Calls w { w with emitted := [] } := hsame rfl rfl (Nat.le_refl _) rfl
    exact hclear.trans (foldl_calls (fun v id => pollOne_calls id (inputs id) v) _ _)
  | reconcile book now => exact reconcileOpen_calls book now w
  | breakerSuccess => exact (setBreaker_serves _ w).calls
  | breakerFailure mono => exact (setBreaker_serves _ w).calls

private theorem eq_submitted_of_collapsed {n : Nat} {o : Obs} (h : o.outcome n = some .collapsed) :
    ∃ intent key orderId, o = .submitted (some n) intent key (some orderId) := by
  cases o with
  | submitted cause intent key prior =>
    simp only [Obs.outcome, Option.ite_none_right_eq_some, Option.isSome_iff_exists] at h
    obtain ⟨⟨rfl, orderId, rfl⟩, -⟩ := h
    exact ⟨intent, key, orderId, rfl⟩
  | placed cause answer id intent order => simp [Obs.outcome] at h
  | event e =>
    obtain ⟨stamp, body⟩ := e
    cases body <;> simp [Obs.outcome] at h
  | _ => cases h

/-- An approved signal is answered, by one placement with one acceptance or by one rejection,
exactly when its order finds no receipt under the correlation id of its causal chain. -/
theorem approved_answered_iff (steps : List Step) (eventId : Nat)
    (h : ∃ o ∈ (run cfg steps {}).trace, o.approves eventId = true) :
    Answered (outcomes eventId (run cfg steps {}).trace) ↔ Unreceipted eventId (run cfg steps {}).trace := by
  have hready : Ready {} := ⟨rfl, by simp⟩
  have hrun : Calls {} (run cfg steps {}) := foldl_calls (fun v s => step_calls s v) steps {}
  obtain ⟨own, hserved⟩ := hrun hready
  obtain ⟨new, ht, -, -, happ⟩ := hserved.spec
  obtain rfl : (run cfg steps {}).trace = new := ht
  obtain ⟨o, ho, ha⟩ := h
  obtain ⟨-, -, hd⟩ := happ eventId o ho ha
  constructor
  · rintro hans intent key orderId hm
    have hc : Outcome.collapsed ∈ outcomes eventId (run cfg steps {}).trace :=
      List.mem_filterMap.mpr ⟨_, hm, by simp [Obs.outcome]⟩
    rcases hans with hans | hans <;> simp [hans] at hc
  · intro hun
    refine hd.resolve_right fun hc => ?_
    have hm : Outcome.collapsed ∈ outcomes eventId (run cfg steps {}).trace := by simp [hc]
    obtain ⟨a, hm, ha⟩ := List.mem_filterMap.mp hm
    obtain ⟨intent, key, orderId, rfl⟩ := eq_submitted_of_collapsed ha
    exact hun intent key orderId hm

/-- Two signals approved on one tick: the second order finds the receipt of the first. -/
theorem second_order_of_chain_is_lost :
    let buy : SignalGenerated := { symbol := "TCS", exchange := "NSE", side := "BUY", quantity := 10, strategy := "orb" }
    let sell : SignalGenerated := { symbol := "TCS", exchange := "NSE", side := "SELL", quantity := 5, strategy := "rsi" }
    let t := (run oneStock [.act (.other "TickEvent"
      [.approved buy (.placed (some "V1") ⟨.pending, some 0, some 0⟩) 0 [] [] [] [],
        .approved sell (.placed (some "V2") ⟨.pending, some 0, some 0⟩) 0 [] [] [] []])] {}).trace
    (∃ o ∈ t, o = .event ⟨⟨4, 0, some 0⟩, .approved sell⟩) ∧ outcomes 1 t = [.placed, .accepted] ∧
      outcomes 4 t = [.collapsed] := by
  decide +kernel

/-- On two ticks both are answered, the second by a rejection at the venue. -/
theorem orders_of_two_chains_are_answered :
    let buy : SignalGenerated := { symbol := "TCS", exchange := "NSE", side := "BUY", quantity := 10, strategy := "orb" }
    let t := (run oneStock [.act (.other "TickEvent" [.approved buy (.placed (some "V1") ⟨.pending, some 0, some 0⟩) 0 [] [] [] []]),
      .act (.other "TickEvent" [.approved buy (.failed "margin") 0 [] [] [] []])] {}).trace
    Unreceipted 5 t := by
  intro buy t
  refine (approved_answered_iff _ 5 ?_).mp ?_
  · decide +kernel
  · exact .inr (by decide +kernel)

end NTrade.Execution
