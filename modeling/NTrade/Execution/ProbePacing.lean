import NTrade.Execution.Breaker

/-! How often a poll reaches the broker while the circuit is not closed. The readings of the
clock are part of a run's inputs; the marks tell when the circuit opened, when a status call
was made in spite of it, and when it closed. -/
namespace NTrade.Execution
open NTrade.Domain NTrade.Events NTrade.Lib

inductive PaceMark where
  | opened (t : Rat)
  /-- A status call while the circuit is not closed. -/
  | called (t : Rat)
  | closed
  deriving DecidableEq

def PaceMark.isCall : PaceMark → Bool
  | .called _ => true
  | _ => false

def calls (ms : List PaceMark) : Nat := ms.countP PaceMark.isCall

/-- A call comes a cooldown period later for every call since the circuit opened, and for itself. -/
def Paced (cooldown : Rat) (pre : List PaceMark) (m : PaceMark) : Prop :=
  ∀ t, m = .called t → ∀ before t₀ mid, pre = before ++ .opened t₀ :: mid → .closed ∉ mid →
    (calls mid + 1 : Nat) * cooldown ≤ t - t₀

def turn (b b' : CircuitBreaker) : List PaceMark :=
  if b.state = .closed then if b'.state = .closed then [] else [.opened b'.openedAt]
  else if b'.state = .closed then [.closed] else []

def reaches (cfg : Config) (orderId : String) (i : PollInput) (w : World) : Bool :=
  match w.record orderId with
  | none => false
  | some _ =>
    if w.exec.breaker.state = .open then
      ((countStale cfg orderId w).record orderId).isSome && (w.exec.breaker.maybeReset i.mono).1
    else true

def afterAnswer (i : PollInput) (b : CircuitBreaker) : CircuitBreaker :=
  match i.refresh with
  | .ok _ => b.onSuccess
  | _ => b

def visitMarks (cfg : Config) (orderId : String) (i : PollInput) (w : World) : List PaceMark :=
  let b := w.exec.breaker
  if reaches cfg orderId i w then
    (if b.state = .closed then [] else [.called i.mono]) ++ turn b (afterAnswer i b) ++
      turn (afterAnswer i b) (pollOne cfg orderId i w).exec.breaker
  else []

/-- The answer to a probe is an error, or a success that no kill latch holds back. -/
def settles (i : PollInput) (b : CircuitBreaker) : Bool :=
  match i.refresh with
  | .ok _ => !b.killed
  | .rateLimited _ => false
  | .error _ _ => true

/-- A call past a circuit that is not closed is answered so that the circuit opens or closes. -/
def conclusive (cfg : Config) (orderId : String) (i : PollInput) (w : World) : Bool :=
  !reaches cfg orderId i w || w.exec.breaker.state = .closed || settles i w.exec.breaker

def PollInput.readings (i : PollInput) : List Rat :=
  i.mono :: (match i.refresh with
    | .error _ mono => [mono]
    | _ => []) ++ i.handlerReadings

section Poll
variable (cfg : Config) (inputs : String → PollInput)

def pollMarks : List String → World → List PaceMark
  | [], _ => []
  | orderId :: ids, w =>
    visitMarks cfg orderId (inputs orderId) w ++ pollMarks ids (pollOne cfg orderId (inputs orderId) w)

def pollConclusive : List String → World → Bool
  | [], _ => true
  | orderId :: ids, w =>
    conclusive cfg orderId (inputs orderId) w && pollConclusive ids (pollOne cfg orderId (inputs orderId) w)

end Poll

section Run
variable (cfg : Config)

def stepMarks (w : World) : Step → List PaceMark
  | .poll inputs => pollMarks cfg inputs w.exec.openOrders.keys { w with emitted := [] }
  | s => turn w.exec.breaker (step cfg w s).exec.breaker

def stepConclusive (w : World) : Step → Bool
  | .poll inputs => pollConclusive cfg inputs w.exec.openOrders.keys { w with emitted := [] }
  | _ => true

def stepReadings (w : World) : Step → List Rat
  | .act a => a.readings
  | .submit _ _ _ _ onAccepted onFilled => actReadings onAccepted ++ actReadings onFilled
  | .poll inputs => w.exec.openOrders.keys.flatMap fun orderId => (inputs orderId).readings
  | .reconcile _ _ => []
  | .breakerSuccess => []
  | .breakerFailure mono => [mono]

def runMarks : List Step → World → List PaceMark
  | [], _ => []
  | s :: steps, w => stepMarks cfg w s ++ runMarks steps (step cfg w s)

def runConclusive : List Step → World → Bool
  | [], _ => true
  | s :: steps, w => stepConclusive cfg w s && runConclusive steps (step cfg w s)

def runReadings : List Step → World → List Rat
  | [], _ => []
  | s :: steps, w => stepReadings w s ++ runReadings steps (step cfg w s)

end Run

/-- What holds of a breaker and the marks so far, where every call was conclusive. -/
structure Pacing (c : CircuitBreakerConfig) (b : CircuitBreaker) (ms : List PaceMark) : Prop where
  config : b.config = c
  resolved : b.state ≠ .halfOpen
  spent : b.state = .open → c.failureThreshold ≤ b.failures
  since : ∀ before t₀ mid, ms = before ++ .opened t₀ :: mid → .closed ∉ mid →
    b.state = .open ∧ calls mid * c.cooldownSeconds ≤ b.openedAt - t₀
  paced : Trace.Each (Paced c.cooldownSeconds) ms

def Behind (b : CircuitBreaker) (t : Rat) : Prop := b.state = .open → b.openedAt ≤ t

section Pacing
variable {c : CircuitBreakerConfig} {b b' : CircuitBreaker} {ms : List PaceMark} {t t' : Rat}

private theorem paced_concat (h : Trace.Each (Paced c.cooldownSeconds) ms) {m : PaceMark} (hm : ∀ t, m ≠ .called t) :
    Trace.Each (Paced c.cooldownSeconds) (ms ++ [m]) :=
  Trace.each_concat.mpr ⟨h, fun t ht => absurd ht (hm t)⟩

/-- The circuit is open from `b'.openedAt` on. -/
theorem Pacing.open (h : Pacing c b ms) (hc : b'.config = c) (hs : b'.state = .open) (hf : c.failureThreshold ≤ b'.failures)
    (ht : Behind b b'.openedAt) : Pacing c b' (ms ++ turn b b') := by
  have hne : b'.state ≠ .closed := by rw [hs]; decide
  by_cases hb : b.state = .closed
  · rw [turn, if_pos hb, if_neg hne]
    refine ⟨hc, by rw [hs]; decide, fun _ => hf, fun before t₀ mid he hm => ⟨hs, ?_⟩, paced_concat h.paced nofun⟩
    rcases Trace.concat_eq_append_cons he with ⟨rfl, -, ho⟩ | ⟨mid', rfl, hms⟩
    · cases ho
      simp [calls]
    · have hcl : PaceMark.closed ∉ mid' := fun hin => hm (List.mem_append_left _ hin)
      have hopen := (h.since before t₀ mid' hms hcl).1
      rw [hb] at hopen
      cases hopen
  · rw [turn, if_neg hb, if_neg hne, List.append_nil]
    refine ⟨hc, by rw [hs]; decide, fun _ => hf, fun before t₀ mid he hm => ⟨hs, ?_⟩, h.paced⟩
    obtain ⟨hopen, hle⟩ := h.since before t₀ mid he hm
    exact hle.trans (sub_le_sub_right (ht hopen) t₀)

/-- The circuit is closed. -/
theorem Pacing.close (h : Pacing c b ms) (hc : b'.config = c) (hs : b'.state = .closed) : Pacing c b' (ms ++ turn b b') := by
  have hclosed : b'.state ≠ .open := by rw [hs]; decide
  by_cases hb : b.state = .closed
  · rw [turn, if_pos hb, if_pos hs, List.append_nil]
    refine ⟨hc, by rw [hs]; decide, fun ho => absurd ho hclosed, fun before t₀ mid he hm => ?_, h.paced⟩
    have hopen := (h.since before t₀ mid he hm).1
    rw [hb] at hopen
    cases hopen
  · rw [turn, if_neg hb, if_pos hs]
    refine ⟨hc, by rw [hs]; decide, fun ho => absurd ho hclosed, fun before t₀ mid he hm => ?_, paced_concat h.paced nofun⟩
    rcases Trace.concat_eq_append_cons he with ⟨-, -, ho⟩ | ⟨mid', rfl, -⟩
    · cases ho
    · exact absurd (List.mem_append_right _ (List.mem_singleton_self _)) hm

theorem Pacing.tripKill (h : Pacing c b ms) (ht : Behind b t) : Pacing c (b.tripKill t) (ms ++ turn b (b.tripKill t)) :=
  h.open h.config rfl (by rw [← h.config]; rfl) ht

theorem Pacing.onSuccess (h : Pacing c b ms) : Pacing c b.onSuccess (ms ++ turn b b.onSuccess) := by
  rw [CircuitBreaker.onSuccess]
  split
  · have hturn : turn b b = [] := by rw [turn]; split <;> rfl
    rw [hturn, List.append_nil]
    exact h
  · exact h.close h.config rfl

theorem Pacing.onFailure (h : Pacing c b ms) (ht : Behind b t) : Pacing c (b.onFailure t) (ms ++ turn b (b.onFailure t)) := by
  rw [CircuitBreaker.onFailure]
  dsimp only
  split
  · next hf => exact h.open h.config rfl (by rw [← h.config]; exact hf) ht
  · next hf =>
    have hclosed : b.state = .closed := by
      cases hs : b.state with
      | closed => rfl
      | halfOpen => exact absurd hs h.resolved
      | «open» =>
        have hsp := h.spent hs
        rw [← h.config] at hsp
        omega
    exact h.close h.config hclosed

/-- A call that the cooldown allows. -/
private theorem Pacing.called (h : Pacing c b ms) (hr : c.cooldownSeconds ≤ t - b.openedAt) :
    Trace.Each (Paced c.cooldownSeconds) (ms ++ [PaceMark.called t]) ∧
      ∀ before t₀ mid, ms ++ [PaceMark.called t] = before ++ .opened t₀ :: mid → .closed ∉ mid →
        calls mid * c.cooldownSeconds ≤ t - t₀ := by
  have hlate (before : List PaceMark) (t₀ : Rat) (mid : List PaceMark) (he : ms = before ++ .opened t₀ :: mid)
      (hm : .closed ∉ mid) : (calls mid + 1 : Nat) * c.cooldownSeconds ≤ t - t₀ := by
    have hle := (h.since before t₀ mid he hm).2
    push_cast
    linarith
  constructor
  · refine Trace.each_concat.mpr ⟨h.paced, ?_⟩
    rintro t' ⟨⟩ before t₀ mid he hm
    exact hlate before t₀ mid he hm
  · intro before t₀ mid he hm
    rcases Trace.concat_eq_append_cons he with ⟨-, -, ho⟩ | ⟨mid', rfl, hms⟩
    · cases ho
    · have hc := hlate before t₀ mid' hms fun hin => hm (List.mem_append_left _ hin)
      rwa [calls, List.countP_append, List.countP_singleton]

private theorem probe_of_ready {b : CircuitBreaker} (hr : (b.maybeReset t).1 = true) :
    b.state = .open ∧ b.config.cooldownSeconds ≤ t - b.openedAt ∧
      (b.maybeReset t).2 = { b with state := .halfOpen, halfOpenProbes := 0 } := by
  unfold CircuitBreaker.maybeReset at hr ⊢
  split at hr
  · next hc => exact ⟨hc.1, of_decide_eq_true hc.2, by rw [if_pos hc]⟩
  · cases hr

/-- A probe that fails opens the circuit again. -/
private theorem Pacing.reopens (h : Pacing c b ms) (hr : (b.maybeReset t).1 = true) (t' : Rat) :
    (b.maybeReset t).2.onFailure t' =
      { b with state := .open, failures := b.failures + 1, openedAt := t', halfOpenProbes := 0 } := by
  obtain ⟨hs, -, hb⟩ := probe_of_ready hr
  have hf : b.config.failureThreshold ≤ b.failures + 1 := by
    rw [h.config]
    exact (h.spent hs).trans (Nat.le_succ _)
  rw [hb, CircuitBreaker.onFailure]
  exact if_pos hf

theorem Pacing.probeFailed (h : Pacing c b ms) (hr : (b.maybeReset t).1 = true) (ht : t ≤ t') :
    Pacing c ((b.maybeReset t).2.onFailure t') (ms ++ [PaceMark.called t]) := by
  obtain ⟨hs, hcool, -⟩ := probe_of_ready hr
  rw [h.config] at hcool
  obtain ⟨hpaced, hsince⟩ := h.called hcool
  rw [h.reopens hr]
  refine ⟨h.config, nofun, fun _ => (h.spent hs).trans (Nat.le_succ _), fun before t₀ mid he hm => ⟨rfl, ?_⟩, hpaced⟩
  exact (hsince before t₀ mid he hm).trans (sub_le_sub_right ht t₀)

/-- A probe that succeeds closes it, where no kill latch holds it open. -/
theorem Pacing.probeSucceeded (h : Pacing c b ms) (hr : (b.maybeReset t).1 = true) (hk : b.killed = false) :
    Pacing c (b.maybeReset t).2.onSuccess (ms ++ [PaceMark.called t] ++ [PaceMark.closed]) := by
  obtain ⟨hs, hcool, hb⟩ := probe_of_ready hr
  rw [h.config] at hcool
  obtain ⟨hpaced, -⟩ := h.called hcool
  rw [hb, CircuitBreaker.onSuccess, if_neg (by simp [hk])]
  refine ⟨h.config, fun hopen => (by cases hopen), fun hspent => (by cases hspent), fun before t₀ mid he hm => ?_,
    paced_concat hpaced fun _ ho => by cases ho⟩
  rcases Trace.concat_eq_append_cons he with ⟨-, -, ho⟩ | ⟨mid', rfl, -⟩
  · cases ho
  · exact absurd (List.mem_append_right _ (List.mem_singleton_self _)) hm

end Pacing

def Keeps (c : CircuitBreakerConfig) (readings : List Rat) (b b' : CircuitBreaker) (us : List PaceMark) : Prop :=
  readings.Pairwise (· ≤ ·) → (∀ t ∈ readings, Behind b t) → ∀ ms, Pacing c b ms →
    Pacing c b' (ms ++ us) ∧ ∀ t, (∀ r ∈ readings, r ≤ t) → Behind b t → Behind b' t

section Keeps
variable {c : CircuitBreakerConfig} {rs rs' : List Rat} {b b' b'' : CircuitBreaker} {us us' : List PaceMark} {t : Rat}

theorem Keeps.refl : Keeps c rs b b [] := by
  intro _ _ ms h
  rw [List.append_nil]
  exact ⟨h, fun t _ ht => ht⟩

theorem Keeps.trans (h : Keeps c rs b b' us) (h' : Keeps c rs' b' b'' us') : Keeps c (rs ++ rs') b b'' (us ++ us') := by
  intro hs hb ms hp
  obtain ⟨hrs, hrs', hle⟩ := List.pairwise_append.mp hs
  obtain ⟨hp', hb'⟩ := h hrs (fun t ht => hb t (List.mem_append_left _ ht)) ms hp
  have hbehind : ∀ t ∈ rs', Behind b' t :=
    fun t ht => hb' t (fun r hr => hle r hr t ht) (hb t (List.mem_append_right _ ht))
  obtain ⟨hp'', hb''⟩ := h' hrs' hbehind _ hp'
  rw [← List.append_assoc]
  refine ⟨hp'', fun t ht hbt => ?_⟩
  exact hb'' t (fun r hr => ht r (List.mem_append_right _ hr)) (hb' t (fun r hr => ht r (List.mem_append_left _ hr)) hbt)

def Struck (rs : List Rat) (b b' : CircuitBreaker) : Prop := b' = b ∨ ∃ t ∈ rs, b' = b.tripKill t

theorem Struck.tripKill (h : Struck rs b b') (ht : t ∈ rs) : Struck rs b (b'.tripKill t) := by
  rcases h with rfl | ⟨u, -, rfl⟩
  · exact .inr ⟨t, ht, rfl⟩
  · exact .inr ⟨t, ht, rfl⟩

theorem Struck.keeps (h : Struck rs b b') : Keeps c rs b b' (turn b b') := by
  rcases h with rfl | ⟨u, hu, rfl⟩
  · have hturn : turn b' b' = [] := by rw [turn]; split <;> rfl
    rw [hturn]
    exact Keeps.refl
  · exact fun _ hb ms hp => ⟨hp.tripKill (hb u hu), fun t ht _ _ => ht u hu⟩

theorem Keeps.success : Keeps c rs b b.onSuccess (turn b b.onSuccess) := by
  refine fun _ _ ms hp => ⟨hp.onSuccess, fun t _ hb => ?_⟩
  rw [CircuitBreaker.onSuccess]
  split
  · exact hb
  · intro hopen
    cases hopen

theorem Keeps.failure (ht : t ∈ rs) : Keeps c rs b (b.onFailure t) (turn b (b.onFailure t)) := by
  refine fun _ hb ms hp => ⟨hp.onFailure (hb t ht), fun u hu hbu => ?_⟩
  rw [CircuitBreaker.onFailure]
  dsimp only
  split
  · exact fun _ => hu t ht
  · exact hbu

private theorem turn_self : turn b b = [] := by
  rw [turn]
  split <;> rfl

private theorem turn_open (hs : b.state = .open) (hs' : b'.state = .open) : turn b b' = [] := by
  rw [turn, hs, hs']
  rfl

end Keeps

section Visit
variable {cfg : Config} {orderId : String} {i : PollInput} {w : World} {c : CircuitBreakerConfig}

/-- An order's share of a poll makes the call, past a breaker that may have been reset, or
leaves the breaker alone. -/
private theorem pollOne_cases (cfg : Config) (orderId : String) (i : PollInput) (w : World) :
    (reaches cfg orderId i w = false ∧ (pollOne cfg orderId i w).exec.breaker = w.exec.breaker) ∨
      (reaches cfg orderId i w = true ∧ (w.exec.breaker.state = .open → (w.exec.breaker.maybeReset i.mono).1 = true) ∧
        ∃ w', pollOne cfg orderId i w = refresh cfg orderId i w' ∧ w'.exec.breaker =
          if w.exec.breaker.state = .open then (w.exec.breaker.maybeReset i.mono).2 else w.exec.breaker) := by
  unfold pollOne reaches
  cases hr : w.record orderId with
  | none => exact .inl ⟨rfl, rfl⟩
  | some r =>
    dsimp only
    by_cases ho : w.exec.breaker.state = .open
    · rw [if_pos ho, if_pos ho, if_pos ho]
      cases hs : (countStale cfg orderId w).record orderId with
      | none => exact .inl ⟨rfl, countStale_breaker w⟩
      | some r' =>
        rw [countStale_breaker]
        cases hm : w.exec.breaker.maybeReset i.mono with
        | mk ready breaker =>
          cases ready with
          | false => exact .inl ⟨rfl, countStale_breaker w⟩
          | true => exact .inr ⟨rfl, fun _ => rfl, _, rfl, rfl⟩
    · rw [if_neg ho, if_neg ho, if_neg ho]
      exact .inr ⟨rfl, fun h => absurd h ho, w, rfl, rfl⟩

private theorem refresh_ok {report : Report} (cfg : Config) (orderId : String) (w : World) (h : i.refresh = .ok report) :
    Struck i.handlerReadings w.exec.breaker.onSuccess (refresh cfg orderId i w).exec.breaker := by
  simp only [refresh, h]
  exact advance_breaker i (fun t ht b hb => hb.tripKill ht) _ (.inl rfl)

private theorem refresh_rateLimited {touched : Option OrderStatus} (h : i.refresh = .rateLimited touched) :
    (refresh cfg orderId i w).exec.breaker = w.exec.breaker := by
  simp only [refresh, h]
  exact touch_breaker _ _

private theorem refresh_error {touched : Option OrderStatus} {mono : Rat} (h : i.refresh = .error touched mono) :
    (refresh cfg orderId i w).exec.breaker = w.exec.breaker.onFailure mono := by
  simp only [refresh, h]
  rw [countStale_breaker]
  show (touch orderId touched _).exec.breaker.onFailure mono = _
  rw [touch_breaker]
  rfl

/-- A call through a closed circuit. -/
private theorem closed_keeps {w' : World} (hb : w'.exec.breaker = w.exec.breaker) :
    Keeps c i.readings w.exec.breaker (refresh cfg orderId i w').exec.breaker
      (turn w.exec.breaker (afterAnswer i w.exec.breaker) ++
        turn (afterAnswer i w.exec.breaker) (refresh cfg orderId i w').exec.breaker) := by
  rw [afterAnswer, PollInput.readings]
  cases hr : i.refresh with
  | ok report =>
    have hstruck := refresh_ok cfg orderId w' hr
    rw [hb] at hstruck
    exact Keeps.trans (Keeps.success : Keeps c [i.mono] _ _ _) hstruck.keeps
  | rateLimited touched =>
    rw [refresh_rateLimited hr, hb, turn_self]
    exact Keeps.refl
  | error touched mono =>
    rw [refresh_error hr, hb, turn_self]
    exact Keeps.failure (by simp)

/-- A call through an open circuit, once the cooldown is over. -/
private theorem probe_keeps {w' : World} (hs : w.exec.breaker.state = .open)
    (hready : (w.exec.breaker.maybeReset i.mono).1 = true) (hb : w'.exec.breaker = (w.exec.breaker.maybeReset i.mono).2)
    (hc : settles i w.exec.breaker = true) :
    Keeps c i.readings w.exec.breaker (refresh cfg orderId i w').exec.breaker
      ([.called i.mono] ++ turn w.exec.breaker (afterAnswer i w.exec.breaker) ++
        turn (afterAnswer i w.exec.breaker) (refresh cfg orderId i w').exec.breaker) := by
  rw [afterAnswer, PollInput.readings]
  cases hr : i.refresh with
  | ok report =>
    have hc : w.exec.breaker.killed = false := by simpa [settles, hr] using hc
    have hstruck := refresh_ok cfg orderId w' hr
    have hsame : w'.exec.breaker.onSuccess = w.exec.breaker.onSuccess := by
      rw [hb, (probe_of_ready hready).2.2]
      simp [CircuitBreaker.onSuccess, hc]
    rw [hsame] at hstruck
    have hprobe : Keeps c [i.mono] w.exec.breaker w.exec.breaker.onSuccess
        ([.called i.mono] ++ turn w.exec.breaker w.exec.breaker.onSuccess) := by
      intro _ _ ms hp
      have hsucc := hp.probeSucceeded hready hc
      rw [← hb, hsame] at hsucc
      have hclosed : w.exec.breaker.onSuccess.state = .closed := by simp [CircuitBreaker.onSuccess, hc]
      refine ⟨?_, fun t _ _ ho => by rw [hclosed] at ho; cases ho⟩
      rw [turn, hs, if_neg (by decide), if_pos hclosed, ← List.append_assoc]
      exact hsucc
    exact hprobe.trans hstruck.keeps
  | rateLimited touched =>
    rw [settles, hr] at hc
    cases hc
  | error touched mono =>
    dsimp only
    rw [refresh_error hr, hb, turn_self]
    intro hsorted _ ms hp
    have hle : i.mono ≤ mono := (List.pairwise_cons.mp hsorted).1 mono (by simp)
    have hfail := hp.probeFailed hready hle
    rw [turn_open hs (by rw [hp.reopens hready]), List.append_nil, List.append_nil]
    refine ⟨hfail, fun t ht _ _ => ?_⟩
    rw [hp.reopens hready]
    exact ht mono (by simp)

theorem visit_keeps (hc : conclusive cfg orderId i w = true) :
    Keeps c i.readings w.exec.breaker (pollOne cfg orderId i w).exec.breaker (visitMarks cfg orderId i w) := by
  rcases pollOne_cases cfg orderId i w with ⟨hr, hb⟩ | ⟨hr, hready, w', hp, hb⟩
  · rw [hb, visitMarks, hr]
    exact Keeps.refl
  · rw [visitMarks, hr, if_pos rfl, hp]
    rw [conclusive, hr] at hc
    cases hs : w.exec.breaker.state with
    | closed =>
      rw [hs, if_neg (by decide)] at hb
      exact closed_keeps hb
    | halfOpen => exact fun _ _ ms hp => absurd hs hp.resolved
    | «open» =>
      rw [hs, if_pos rfl] at hb
      refine probe_keeps hs (hready hs) hb ?_
      simpa [hs] using hc

end Visit

section Run
variable {cfg : Config} {c : CircuitBreakerConfig}

private theorem poll_keeps (inputs : String → PollInput) (ids : List String) (w : World)
    (hc : pollConclusive cfg inputs ids w = true) :
    Keeps c (ids.flatMap fun orderId => (inputs orderId).readings) w.exec.breaker
      (ids.foldl (fun w orderId => pollOne cfg orderId (inputs orderId) w) w).exec.breaker (pollMarks cfg inputs ids w) := by
  induction ids generalizing w with
  | nil => exact Keeps.refl
  | cons orderId ids ih =>
    obtain ⟨hv, hc⟩ := Bool.and_eq_true_iff.mp hc
    exact (visit_keeps hv).trans (ih _ hc)

theorem step_keeps (s : Step) (w : World) (hc : stepConclusive cfg w s = true) :
    Keeps c (stepReadings w s) w.exec.breaker (step cfg w s).exec.breaker (stepMarks cfg w s) := by
  cases s with
  | act a => exact Struck.keeps (runAct_breaker a (fun t ht b hb => hb.tripKill ht) w (.inl rfl))
  | submit intent correlationId p now onAccepted onFilled =>
    exact Struck.keeps (submit_breaker (fun t ht b hb => hb.tripKill ht) { w with issued := w.issued + 1 } (.inl rfl))
  | poll inputs => exact poll_keeps inputs _ _ hc
  | reconcile book now =>
    have hb : (step cfg w (.reconcile book now)).exec.breaker = w.exec.breaker := reconcileOpen_breaker book now w
    have hm : stepMarks cfg w (.reconcile book now) = [] := by
      show turn _ _ = []
      rw [hb, turn_self]
    rw [hm, hb]
    exact Keeps.refl
  | breakerSuccess => exact Keeps.success
  | breakerFailure mono => exact Keeps.failure (List.mem_singleton_self mono)

private theorem run_keeps (steps : List Step) (w : World) (hc : runConclusive cfg steps w = true) :
    Keeps c (runReadings cfg steps w) w.exec.breaker (run cfg steps w).exec.breaker (runMarks cfg steps w) := by
  induction steps generalizing w with
  | nil => exact Keeps.refl
  | cons s steps ih =>
    obtain ⟨hs, hc⟩ := Bool.and_eq_true_iff.mp hc
    exact (step_keeps s w hs).trans (ih _ hc)

/-- From the moment the circuit opens until it closes the polls make one status call for each
cooldown period at most, where every such call is conclusive. -/
theorem probes_paced (cfg : Config) (c : CircuitBreakerConfig) (w : World) (steps : List Step)
    (hclock : (runReadings cfg steps (w.setBreaker { config := c })).Pairwise (· ≤ ·))
    (hc : runConclusive cfg steps (w.setBreaker { config := c }) = true) :
    Trace.Each (Paced c.cooldownSeconds) (runMarks cfg steps (w.setBreaker { config := c })) := by
  have hstart : Pacing c { config := c } [] := ⟨rfl, nofun, nofun, fun before t₀ mid he => by simp at he, Trace.Each.nil _⟩
  exact (run_keeps steps _ hc hclock (fun t _ => nofun) [] hstart).1.paced

end Run

def shortFuse : World := { exec := { breaker := { config := { failureThreshold := 1 } } } }

def pendingOrder : Step :=
  .submit marketBuy none (.placed (some "1") { status := .pending, filledQty := some 0, avgPrice := some 0 }) 0 [] []

def pollAt (mono : Rat) (refresh : Refresh) : Step := .poll fun _ => { mono, refresh }

def outage : List Step :=
  [pendingOrder, pollAt 0 (.error none 0), pollAt 29 (.error none 29), pollAt 30 (.error none 31), pollAt 60 (.error none 60),
    pollAt 61 (.ok { status := .completed, filledQty := some 10, avgPrice := some 100 })]

theorem outage_paced :
    Trace.Each (Paced 30) (runMarks oneStock outage shortFuse) ∧
      runMarks oneStock outage shortFuse = [.opened 0, .called 30, .called 61, .closed] :=
  ⟨probes_paced oneStock { failureThreshold := 1 } {} outage (by decide +kernel) (by decide +kernel), by decide +kernel⟩

def throttled : List Step :=
  [pendingOrder, pollAt 0 (.error none 0), pollAt 30 (.rateLimited none), pollAt 31 (.rateLimited none)]

/-- The second call comes a second after the first. -/
theorem throttled_not_paced :
    ¬ Trace.Each (Paced 30) (runMarks oneStock throttled shortFuse) ∧
      runMarks oneStock throttled shortFuse = [.opened 0, .called 30, .called 31] := by
  have hm : runMarks oneStock throttled shortFuse = [.opened 0, .called 30, .called 31] := by decide +kernel
  refine ⟨fun h => ?_, hm⟩
  rw [hm] at h
  have hp := h [.opened 0, .called 30] (.called 31) [] rfl 31 rfl [] 0 [.called 30] rfl (by decide)
  norm_num [calls, PaceMark.isCall] at hp

end NTrade.Execution
