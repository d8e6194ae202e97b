import NTrade.Execution.Refinement

/-! The kill switch. The latch keeps the circuit out of `closed`, but placement does not
look at the circuit and a poll probes an open one once its cooldown has elapsed. -/
namespace NTrade.Execution
open NTrade.Domain NTrade.Events NTrade.Lib

def Obs.reaches : Obs → Bool
  | .ordered _ | .asked _ => true
  | _ => false

def requests (t : List Obs) : List Obs := t.filter Obs.reaches

/-- A call of `submit` or `poll`, or a success or failure recorded on the breaker. -/
def Step.isCall : Step → Bool
  | .submit _ _ _ _ _ _ | .poll _ | .breakerSuccess | .breakerFailure _ => true
  | _ => false

variable (cfg : Config)

/-- A submit is stopped before the broker: no instrument, a key in use, or invalid fields. -/
def Stopped (w : World) (intent : OrderIntent) (key : Nat) : Prop :=
  ∀ instrument, cfg.brokerBacked intent.symbol = some instrument →
    (∀ idem, w.exec.idem.checkAndReserve key ≠ .ok (none, idem)) ∨ ∃ e, request instrument intent = .error e

/-- A poll passes over a tracked order: it is evicted as stale, or the cooldown has not
elapsed. -/
def PassedOver (w : World) (orderId : String) (mono : Rat) : Prop :=
  ∀ r, w.record orderId = some r →
    cfg.staleLimit ≤ r.stale + 1 ∨ w.exec.breaker.shouldAttemptReset mono = false

/-- What a call needs, of the state before it, not to reach the broker. -/
def Quiet (w : World) : Step → Prop
  | .submit intent correlationId _ _ _ _ => Stopped cfg w intent (correlationId.getD w.issued)
  | .poll inputs => ∀ orderId ∈ w.exec.openOrders.keys, PassedOver cfg w orderId (inputs orderId).mono
  | _ => True

/-- Every call of the run is quiet in the state it finds. -/
def QuietRun (w : World) : List Step → Prop
  | [] => True
  | s :: steps => Quiet cfg w s ∧ QuietRun (step cfg w s) steps

variable {cfg} {w w' : World} {orderId : String}

private def Held (b : CircuitBreaker) : Prop := b.killed = true ∧ b.state = .open

private theorem Held.onFailure {b : CircuitBreaker} (h : Held b) (mono : Rat) : Held (b.onFailure mono) := by
  unfold CircuitBreaker.onFailure
  dsimp only
  split
  · exact ⟨h.1, rfl⟩
  · exact h

private theorem Held.onSuccess {b : CircuitBreaker} (h : Held b) : b.onSuccess = b := by
  rw [CircuitBreaker.onSuccess, if_pos h.1]

@[simp] private theorem requests_append (t u : List Obs) : requests (t ++ u) = requests t ++ requests u :=
  List.filter_append _ _

private theorem requests_of_adds (h : Adds w w') : ∃ new, requests w'.trace = requests w.trace ++ new := by
  obtain ⟨new, ht, -⟩ := h
  exact ⟨requests new, by rw [ht, requests_append]⟩

/-- A request that reached the broker stays in the trace. -/
private theorem requests_ne {o : Obs} {v : World} (ho : o.reaches = true) (hv : ∃ new, v.trace = w.trace ++ new ∧ o ∈ new)
    (h : Adds v w') : requests w'.trace ≠ requests w.trace := by
  obtain ⟨new, ht, hm⟩ := hv
  obtain ⟨later, hl⟩ := requests_of_adds h
  rw [hl, ht, requests_append, List.append_assoc]
  intro he
  have hnil := List.append_right_eq_self.mp he
  have hmem : o ∈ requests new := List.mem_filter.mpr ⟨hm, ho⟩
  rw [(List.append_eq_nil_iff.mp hnil).1] at hmem
  cases hmem

/-- What a call that does not reach the broker leaves as it was. -/
private structure Spares (w w' : World) : Prop where
  requests : requests w'.trace = requests w.trace
  breaker : w'.exec.breaker = w.exec.breaker

private theorem Spares.refl (w : World) : Spares w w := ⟨rfl, rfl⟩

private theorem Spares.trans {w'' : World} (h : Spares w w') (h' : Spares w' w'') : Spares w w'' :=
  ⟨h'.requests.trans h.requests, h'.breaker.trans h.breaker⟩

private theorem spares_log {o : Obs} (ho : o.reaches = false) : Spares w (w.log o) :=
  ⟨by simp [World.log, Execution.requests, ho], rfl⟩

private theorem spares_update {f : Record → Record} {o : Obs} (ho : o.reaches = false) :
    Spares w (w.update orderId f o) := ⟨by simp [World.update, World.setOpen, World.log, Execution.requests, ho], rfl⟩

private theorem spares_remove {o : Obs} (ho : o.reaches = false) : Spares w (w.remove orderId o) :=
  ⟨by simp [World.remove, World.setOpen, World.log, Execution.requests, ho], rfl⟩

private theorem countStale_spares (w : World) : Spares w (countStale cfg orderId w) := by
  have hmiss : Spares w (w.update orderId Record.miss (.missed orderId)) := spares_update rfl
  unfold countStale
  dsimp only
  split
  · exact hmiss
  · split
    · exact hmiss.trans (spares_remove rfl)
    · exact hmiss

private theorem countStale_record {j : String} (hj : j ≠ orderId) (w : World) :
    (countStale cfg orderId w).record j = w.record j := by
  have hmiss : (w.update orderId Record.miss (.missed orderId)).record j = w.record j := by
    rw [World.record_update, if_neg hj]
  unfold countStale
  dsimp only
  split
  · exact hmiss
  · split
    · rw [World.record_remove, if_neg hj, hmiss]
    · exact hmiss

private theorem countStale_isNone {r : Record} (hr : w.record orderId = some r) :
    ((countStale cfg orderId w).record orderId).isNone = decide (cfg.staleLimit ≤ r.stale + 1) := by
  have hmiss : (w.update orderId Record.miss (.missed orderId)).record orderId = some r.miss := by
    rw [World.record_update, if_pos rfl, hr, Option.map_some]
  unfold countStale
  dsimp only
  rw [hmiss]
  dsimp only
  split
  · next hs => simpa [World.record_remove] using hs
  · next hs => simpa [hmiss] using Nat.lt_of_not_le hs

private theorem pollOne_quiet {i : PollInput} (hopen : w.exec.breaker.state = .open) (h : PassedOver cfg w orderId i.mono) :
    Spares w (pollOne cfg orderId i w) ∧ ∀ j, j ≠ orderId → (pollOne cfg orderId i w).record j = w.record j := by
  have hskip : Spares w (countStale cfg orderId w) ∧
      ∀ j, j ≠ orderId → (countStale cfg orderId w).record j = w.record j :=
    ⟨countStale_spares w, fun j hj => countStale_record hj w⟩
  unfold pollOne
  cases hr : w.record orderId with
  | none => exact ⟨.refl w, fun _ _ => rfl⟩
  | some r =>
    have hpass := h r hr
    dsimp only
    rw [if_pos hopen]
    split
    · exact hskip
    · next hkept =>
      rw [countStale_isNone hr] at hkept
      have hcool := hpass.resolve_left (by simpa using hkept)
      have hreset : (countStale cfg orderId w).exec.breaker.maybeReset i.mono = (false, w.exec.breaker) := by
        rw [(countStale_spares w).breaker]
        simp [CircuitBreaker.maybeReset, hcool]
      rw [hreset]
      exact hskip

private theorem pollOne_loud {i : PollInput} (hopen : w.exec.breaker.state = .open)
    (h : ¬ PassedOver cfg w orderId i.mono) : requests (pollOne cfg orderId i w).trace ≠ requests w.trace := by
  obtain ⟨r, hr, hstale, hcool⟩ : ∃ r, w.record orderId = some r ∧ ¬ cfg.staleLimit ≤ r.stale + 1 ∧
      w.exec.breaker.shouldAttemptReset i.mono = true := by
    simpa only [PassedOver, not_forall, not_or, exists_prop, Bool.not_eq_false] using h
  have hspares : Spares w (countStale cfg orderId w) := countStale_spares w
  have hreset : (countStale cfg orderId w).exec.breaker.maybeReset i.mono =
      (true, { w.exec.breaker with state := .halfOpen, halfOpenProbes := 0 }) := by
    rw [hspares.breaker]
    simp [CircuitBreaker.maybeReset, hopen, hcool]
  unfold pollOne
  rw [hr]
  dsimp only
  rw [if_pos hopen, countStale_isNone hr, if_neg (by simpa using hstale), hreset, ← hspares.requests]
  exact requests_ne (o := .asked orderId) rfl ⟨_, rfl, by simp⟩ (refresh_asks i _)

private theorem requests_isPrefix (h : Adds w w') : requests w.trace <+: requests w'.trace := by
  obtain ⟨new, hn⟩ := requests_of_adds h
  exact ⟨new, hn.symm⟩

/-- A request that was added cannot be taken back. -/
private theorem requests_stay {v : World} (h : Adds w v) (h' : Adds v w')
    (he : requests w'.trace = requests w.trace) : requests v.trace = requests w.trace :=
  ((requests_isPrefix h).eq_of_length_le (he ▸ (requests_isPrefix h').length_le)).symm

private theorem pollAll_quiet {inputs : String → PollInput} {ids : List String} (hn : ids.Nodup)
    (hopen : w.exec.breaker.state = .open) (h : ∀ id ∈ ids, PassedOver cfg w id (inputs id).mono) :
    Spares w (ids.foldl (fun w id => pollOne cfg id (inputs id) w) w) := by
  induction ids generalizing w with
  | nil => exact .refl w
  | cons id ids ih =>
    obtain ⟨hspares, hother⟩ := pollOne_quiet hopen (h id List.mem_cons_self)
    rw [List.nodup_cons] at hn
    refine hspares.trans (ih hn.2 (hspares.breaker ▸ hopen) fun j hj r hr => ?_)
    have hne : j ≠ id := fun he => hn.1 (he ▸ hj)
    rw [hother j hne] at hr
    rw [hspares.breaker]
    exact h j (List.mem_cons_of_mem _ hj) r hr

private theorem pollAll_loud {inputs : String → PollInput} {ids : List String} (hn : ids.Nodup)
    (hopen : w.exec.breaker.state = .open) (h : ¬ ∀ id ∈ ids, PassedOver cfg w id (inputs id).mono) :
    requests (ids.foldl (fun w id => pollOne cfg id (inputs id) w) w).trace ≠ requests w.trace := by
  induction ids generalizing w with
  | nil => exact absurd (fun _ hid => by cases hid) h
  | cons id ids ih =>
    have hrest : Adds (pollOne cfg id (inputs id) w)
        (ids.foldl (fun w id => pollOne cfg id (inputs id) w) (pollOne cfg id (inputs id) w)) :=
      (foldl_sounds (fun w id => pollOne_sounds id (inputs id) w) ids _).1
    intro he
    have hsame := requests_stay (pollOne_sounds id (inputs id) w).1 hrest he
    by_cases hid : PassedOver cfg w id (inputs id).mono
    · obtain ⟨hspares, hother⟩ := pollOne_quiet hopen hid
      rw [List.nodup_cons] at hn
      refine ih hn.2 (hspares.breaker ▸ hopen) (fun hall => h fun j hj => ?_) (he.trans hsame.symm)
      rcases List.mem_cons.mp hj with rfl | hj
      · exact hid
      · intro r hr
        have hne : j ≠ id := fun he => hn.1 (he ▸ hj)
        rw [← hother j hne] at hr
        have hpass := hall j hj r hr
        rwa [hspares.breaker] at hpass
    · exact pollOne_loud hopen hid hsame

private theorem submit_quiet {intent : OrderIntent} {key : Nat} {p : Placement} {now : Rat}
    {onAccepted onFilled : World → World} (h : Stopped cfg w intent key) :
    Spares w (submit cfg intent key p now onAccepted onFilled w).1 := by
  unfold submit
  split
  · exact .refl w
  · next instrument hi =>
    extract_lets w₁
    have hlog : Spares w w₁ := spares_log rfl
    split
    · exact hlog
    · exact hlog
    · next idem hidem =>
      obtain ⟨e, he⟩ := (h instrument hi).resolve_left fun hn => hn idem hidem
      simp only [place, he]
      exact hlog.trans ⟨rfl, rfl⟩

private theorem submit_loud {intent : OrderIntent} {key : Nat} {p : Placement} {now : Rat}
    {onAccepted onFilled : List Act} (h : ¬ Stopped cfg w intent key) :
    requests (submit cfg intent key p now (runActs cfg onAccepted) (runActs cfg onFilled) w).1.trace ≠
      requests w.trace := by
  obtain ⟨instrument, hi, ⟨idem, hidem⟩, hreq⟩ : ∃ instrument, cfg.brokerBacked intent.symbol = some instrument ∧
      (∃ idem, w.exec.idem.checkAndReserve key = .ok (none, idem)) ∧ ∀ e, request instrument intent ≠ .error e := by
    simpa only [Stopped, not_forall, not_or, exists_prop, not_exists, ne_eq, not_not] using h
  unfold submit
  simp only [hi]
  generalize hw₁ : w.log (.submitted _ intent key _) = w₁
  have hidem' : w₁.exec.idem.checkAndReserve key = .ok (none, idem) := by rw [← hw₁]; exact hidem
  have ht : ∃ o, w₁.trace = w.trace ++ [o] := ⟨_, by rw [← hw₁]; rfl⟩
  obtain ⟨o, ht⟩ := ht
  simp only [hidem', place]
  cases ho : request instrument intent with
  | error e => exact absurd ho (hreq e)
  | ok order =>
    cases p with
    | failed reason =>
      refine requests_ne (o := .ordered intent) rfl ⟨[o, .ordered intent], ?_, by simp⟩ (.silent rfl)
      simp [World.log, World.setIdem, ht]
    | placed answer report =>
      have hplace : cfg.Placeable intent := ⟨by simp [hi], request_side ho⟩
      refine requests_ne (o := .ordered intent) rfl ⟨[o, .ordered intent], ?_, by simp⟩
        (accept_calm hplace (runActs_calm onAccepted) (runActs_calm onFilled) _).ext
      simp [World.log, World.setIdem, ht]

private theorem step_quiet {s : Step} (hc : s.isCall = true) (hw : Held w.exec.breaker) (h : Quiet cfg w s) :
    requests (step cfg w s).trace = requests w.trace ∧ Held (step cfg w s).exec.breaker := by
  cases s with
  | submit intent correlationId p now onAccepted onFilled =>
    have hs : Spares { w with issued := w.issued + 1 }
        (step cfg w (.submit intent correlationId p now onAccepted onFilled)) := submit_quiet h
    exact ⟨hs.requests, hs.breaker ▸ hw⟩
  | poll inputs =>
    have hs : Spares { w with emitted := [] } (step cfg w (.poll inputs)) :=
      pollAll_quiet w.exec.openOrders.keys_nodup hw.2 h
    exact ⟨hs.requests, hs.breaker ▸ hw⟩
  | breakerSuccess =>
    have hsame : (step cfg w .breakerSuccess).exec.breaker = w.exec.breaker := hw.onSuccess
    exact ⟨rfl, hsame ▸ hw⟩
  | breakerFailure mono => exact ⟨rfl, hw.onFailure mono⟩
  | _ => cases hc

private theorem step_loud {s : Step} (hw : Held w.exec.breaker) (h : ¬ Quiet cfg w s) :
    requests (step cfg w s).trace ≠ requests w.trace := by
  cases s with
  | submit intent correlationId p now onAccepted onFilled => exact submit_loud (w := { w with issued := w.issued + 1 }) h
  | poll inputs => exact pollAll_loud (w := { w with emitted := [] }) w.exec.openOrders.keys_nodup hw.2 h
  | _ => exact absurd trivial h

private theorem run_quiet_iff {steps : List Step} (hc : ∀ s ∈ steps, s.isCall = true) (hw : Held w.exec.breaker) :
    requests (run cfg steps w).trace = requests w.trace ↔ QuietRun cfg w steps := by
  induction steps generalizing w with
  | nil => exact ⟨fun _ => trivial, fun _ => rfl⟩
  | cons s steps ih =>
    have hrest := ih (w := step cfg w s) fun s hs => hc s (List.mem_cons_of_mem _ hs)
    have hrun : run cfg (s :: steps) w = run cfg steps (step cfg w s) := rfl
    rw [hrun]
    constructor
    · intro he
      have hsame := requests_stay (step_sounds s w).1 (run_sounds steps (step cfg w s)).1 he
      have hq : Quiet cfg w s := by
        by_contra hq
        exact step_loud hw hq hsame
      obtain ⟨-, hw'⟩ := step_quiet (hc s List.mem_cons_self) hw hq
      exact ⟨hq, (hrest hw').mp (he.trans hsame.symm)⟩
    · rintro ⟨hq, hqs⟩
      obtain ⟨hsame, hw'⟩ := step_quiet (hc s List.mem_cons_self) hw hq
      exact ((hrest hw').mpr hqs).trans hsame

/-- After the kill switch no request reaches the broker exactly when every later call is one
that the switch has no part in stopping: a submit that is stopped before the broker anyway,
a poll that passes over every order. -/
theorem kill_holds_iff (w : World) (mono : Rat) (ok : String → Bool) (steps : List Step)
    (hc : ∀ s ∈ steps, s.isCall = true) :
    requests (run cfg steps (tripKillSwitch mono ok w)).trace = requests (tripKillSwitch mono ok w).trace ↔
      QuietRun cfg (tripKillSwitch mono ok w) steps :=
  run_quiet_iff hc ⟨rfl, rfl⟩

/-- A killed target places the next order, and polls again once the cooldown is over. -/
theorem killed_target_trades :
    let w := tripKillSwitch 0 (fun _ => false)
      (run oneStock [.submit marketBuy none (.placed (some "V1") ⟨.pending, some 0, some 0⟩) 0 [] []] {})
    requests (run oneStock [.submit marketBuy none (.placed (some "V2") ⟨.pending, some 0, some 0⟩) 0 [] []] w).trace =
        requests w.trace ++ [.ordered marketBuy] ∧
      requests (run oneStock [.poll fun _ => { mono := 30, refresh := .ok ⟨.pending, some 0, some 0⟩ }] w).trace =
        requests w.trace ++ [.asked "V1"] := by
  decide +kernel

/-- A poll within the cooldown is quiet, after a failure and a success on the breaker. -/
theorem kill_holds_within_cooldown :
    let w := run oneStock [.submit marketBuy none (.placed (some "V1") ⟨.pending, some 0, some 0⟩) 0 [] []] {}
    QuietRun oneStock (tripKillSwitch 0 (fun _ => false) w) [.breakerFailure 0, .breakerSuccess,
      .poll fun _ => { mono := 29, refresh := .ok ⟨.pending, some 0, some 0⟩ }] := by
  intro w
  refine (kill_holds_iff w 0 (fun _ => false) _ ?_).mp (by decide +kernel)
  decide

end NTrade.Execution
