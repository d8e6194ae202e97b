import NTrade.Execution.Accounts

/-! Cancellation: the adapter marks an order CANCELLED as soon as the cancel request returns,
also in the middle of the poll that has just refreshed it. What the venue executed between
that refresh and the cancellation is never emitted. -/
namespace NTrade.Execution
open NTrade.Domain NTrade.Events NTrade.Lib

def Obs.ends : Obs → Option String
  | .cancelTook orderId => some orderId
  | .status orderId report => if report.status = .cancelled then some orderId else none
  | _ => none

def final (pre : List Obs) : Obs → Bool
  | .executed orderId _ _ => pre.all fun o => o.ends ≠ some orderId
  | _ => true

def Obs.answers (orderId : String) : Obs → Option Bool
  | .status id _ => if id = orderId then some true else none
  | .kept id => if id = orderId then some false else none
  | .popped id _ => if id = orderId then some false else none
  | _ => none

def answered (orderId : String) (t : List Obs) : Bool := (Trace.last (Obs.answers orderId) t).getD false

/-- No cancel has reached an order in the middle of its poll. -/
def Unstruck (orderId : String) (t : List Obs) : Prop :=
  Trace.Always (fun pre o => o ≠ .cancelled orderId || !answered orderId pre) t

instance (orderId : String) (t : List Obs) : Decidable (Unstruck orderId t) :=
  Trace.decidableEach _ t

/-- A cancel in the middle of a poll finds the venue where the refresh left it, and the
venue executes nothing after it. What ends as CANCELLED can be emitted in full. -/
def settled (pre : List Obs) : Obs → Bool
  | .cancelled orderId => !answered orderId pre ||
    executed orderId pre = reported orderId pre && (lastReport orderId pre).all (fillable orderId pre)
  | .executed orderId _ _ => Unstruck orderId pre
  | .status orderId report => report.status ≠ .cancelled || fillable orderId pre report
  | _ => true

/-- An order dropped as CANCELLED had every share emitted that the venue executes in the whole
run, and what is rejected as CANCELLED is the rest of the order. -/
def cancelsExactly (whole pre : List Obs) : Obs → Bool
  | .popped orderId status => status ≠ .cancelled || emitted orderId pre = executed orderId whole
  | .event ⟨_, .rejected e⟩ => e.orderId = "" || e.reason ≠ "order " ++ OrderStatus.cancelled.value ||
    e.quantity + executed e.orderId whole = ordered e.orderId pre
  | _ => true

variable {cfg : Config} {orderId : String} {t : List Obs} {o : Obs}

private def Sealed (orderId : String) (t : List Obs) : Prop :=
  ¬ Unstruck orderId t ∨ ∃ o ∈ t, o.ends = some orderId

private theorem Sealed.concat (h : Sealed orderId t) : Sealed orderId (t ++ [o]) := by
  rcases h with h | ⟨a, ha, he⟩
  · exact .inl fun hu => h (Trace.each_concat.mp hu).1
  · exact .inr ⟨a, List.mem_append_left _ ha, he⟩

private theorem Sealed.executionFor (h : Sealed orderId t) (hf : final t o = true) (hs : settled t o = true) :
    o.executionFor orderId = none := by
  cases o with
  | executed id n price =>
    refine if_neg ?_
    rintro rfl
    rcases h with h | ⟨a, ha, he⟩
    · exact h (by simpa [settled] using hs)
    · exact List.all_eq_true.mp hf a ha |> of_decide_eq_true |> (absurd he ·)
  | _ => rfl

/-- What was executed when the order was sealed is what is ever executed. -/
private theorem Sealed.executed_eq (h : Sealed orderId t) {suf : List Obs} (hf : Trace.Always final (t ++ suf))
    (hs : Trace.Always settled (t ++ suf)) : executed orderId (t ++ suf) = executed orderId t := by
  have hall : ∀ u, u <+: suf → Sealed orderId (t ++ u) ∧ executed orderId (t ++ u) = executed orderId t := by
    intro u
    induction u using List.reverseRecOn with
    | nil => exact fun _ => by simpa using h
    | append_singleton u o ih =>
      intro hu
      obtain ⟨hseal, he⟩ := ih ((List.prefix_append u [o]).trans hu)
      obtain ⟨v, rfl⟩ := hu
      have hft := hf (t ++ u) o v (by simp)
      have hst := hs (t ++ u) o v (by simp)
      rw [← List.append_assoc]
      exact ⟨hseal.concat, (executed_same (hseal.executionFor hft hst)).trans he⟩
  exact (hall suf List.prefix_rfl).2

private structure Strikes (orderId : String) (t : List Obs) (stage : Stage) (r : Record) : Prop where
  polled : stage ≠ .idle → answered orderId t = true
  told : stage ≠ .idle → r.order.status = .cancelled →
    Sealed orderId t ∧ executed orderId t = reported orderId t ∧
      (r.filled + stage.pending = reported orderId t ∨ 0 < fillPrice r.intent r.order.avgPrice)

private def Strike (orderId : String) (t : List Obs) : Life → Prop
  | .tracked stage r => Strikes orderId t stage r
  | _ => True

private theorem answered_same (h : o.answers orderId = none) : answered orderId (t ++ [o]) = answered orderId t := by
  simp [answered, h]

private theorem Strikes.step {stage stage' : Stage} {r r' : Record} (h : Strikes orderId t stage r)
    (ht : Tallies orderId (t ++ [o]) stage' r') (hrep : o.reportFor orderId = none) (hans : o.answers orderId = none)
    (hexe : o.executionFor orderId = none) (hf : stage' ≠ .idle → stage ≠ .idle ∧ r'.order = r.order ∧
      r'.intent = r.intent ∧ r.filled + stage.pending ≤ r'.filled + stage'.pending) :
    Strikes orderId (t ++ [o]) stage' r' := by
  have hle := ht.le
  rw [reported_same hrep] at hle
  constructor
  · intro hs
    rw [answered_same hans]
    exact h.polled (hf hs).1
  · intro hs hc
    obtain ⟨hs, ho, hi, hgrow⟩ := hf hs
    obtain ⟨hseal, he, hd⟩ := h.told hs (ho ▸ hc)
    rw [executed_same hexe, reported_same hrep, ho, hi]
    refine ⟨hseal.concat, he, ?_⟩
    rcases hd with hd | hd
    · exact .inl (by omega)
    · exact .inr hd

private theorem strike_silent (hrep : o.reportFor orderId = none) (hans : o.answers orderId = none)
    (hexe : o.executionFor orderId = none) {l : Life} (hb : Books orderId (t ++ [o]) l) (h : Strike orderId t l) :
    Strike orderId (t ++ [o]) l := by
  cases l with
  | tracked stage r => exact Strikes.step h hb hrep hans hexe fun hs => ⟨hs, rfl, rfl, le_rfl⟩
  | _ => trivial

private theorem Strikes.refresh {r : Record} {report : Report} (ht : Tallies orderId t .idle r)
    (hmono : monotone t (.status orderId report) = true) (htold : sharesTold t (.status orderId report) = true)
    (hset : settled t (.status orderId report) = true) :
    Strikes orderId (t ++ [Obs.status orderId report]) .refreshed (r.refresh report) := by
  constructor
  · intro _
    simp [answered, Obs.answers]
  · intro _ hc
    have hst : report.status = .cancelled := hc
    have hq : toInt report.filledQty = executed orderId t := by simpa [sharesTold] using htold
    have hf : fillable orderId t report = true := by simpa [settled, hst] using hset
    rw [executed_same rfl, reported_status]
    refine ⟨.inr ⟨.status orderId report, by simp, by simp [Obs.ends, hst]⟩, hq.symm, ?_⟩
    simpa [Report.apply] using ht.due_of_fillable hmono hf

/-- A cancel between two polls leaves no trace; one in the middle of a poll must find
everything executed reported. -/
private theorem Strikes.cancel {stage : Stage} {r : Record} (h : Strikes orderId t stage r)
    (ht : Tallies orderId t stage r) (hset : settled t (.cancelled orderId) = true) :
    Strikes orderId (t ++ [Obs.cancelled orderId]) stage r.cancel := by
  constructor
  · intro hs
    rw [answered_same rfl]
    exact h.polled hs
  · intro hs _
    have hans := h.polled hs
    simp only [settled, hans, Bool.not_true, Bool.false_or, Bool.and_eq_true, decide_eq_true_eq] at hset
    obtain ⟨he, hf⟩ := hset
    rw [executed_same rfl, reported_same rfl]
    refine ⟨.inl fun hu => ?_, he, ht.due_of_last hs hf⟩
    have hc := (Trace.each_concat.mp hu).2
    simp [hans] at hc

private theorem Move.strike {l l' : Life} (hm : Move cfg orderId l o l') (hb : Books orderId t l)
    (hb' : Books orderId (t ++ [o]) l') (h : Strike orderId t l) (hmono : monotone t o = true)
    (htold : sharesTold t o = true) (hfin : final t o = true) (hset : settled t o = true) : Strike orderId (t ++ [o]) l' := by
  cases hm with
  | refresh r report => exact Strikes.refresh hb hmono htold hset
  | cancel stage r => exact Strikes.cancel h hb hset
  | execute l n price =>
    cases l with
    | tracked stage r =>
      have hr : Strikes orderId t stage r := h
      refine ⟨fun hs => ?_, fun hs hc => ?_⟩
      · rw [answered_same rfl]
        exact hr.polled hs
      · have hn := (hr.told hs hc).1.executionFor hfin hset
        simp [Obs.executionFor] at hn
    | _ => trivial
  | cancelTake l => exact strike_silent rfl rfl rfl hb' h
  | timeout r stamp e he => exact strike_silent (l := .tracked .refreshed r) rfl rfl rfl hb' h
  | note r hs => exact Strikes.step h hb' rfl rfl rfl (by simp)
  | update r stamp e he hq hs => exact Strikes.step h hb' rfl rfl rfl (by simp)
  | steady r hs => exact Strikes.step h hb' rfl rfl rfl (by simp)
  | fill r stamp fill hf =>
    have hpos := (fillOf_eq_some hf).2.2.1
    exact Strikes.step h hb' rfl rfl rfl (by simp; omega)
  | book r n => exact Strikes.step h hb' rfl rfl rfl (by simp)
  | reject stage r stamp e hc hs he hq hp hr =>
    exact Strikes.step h hb' rfl rfl rfl fun _ => ⟨hc.ne.1, rfl, rfl, by rw [hc.pending_eq]; rfl⟩
  | _ => first | trivial | exact ⟨fun hs => absurd rfl hs, fun hs => absurd rfl hs⟩

private def striking (orderId : String) (pre : List Obs) : Obs → Prop
  | .popped id status => id = orderId → status = .cancelled →
    Sealed orderId pre ∧ emitted orderId pre = executed orderId pre
  | .event ⟨_, .rejected e⟩ => e.orderId = orderId → e.orderId ≠ "" →
    e.reason = "order " ++ OrderStatus.cancelled.value →
    Sealed orderId pre ∧ e.quantity + executed orderId pre = ordered orderId pre
  | _ => True

/-- A CANCELLED order with nothing left to fill has been emitted in full. -/
private theorem Strikes.emitted_eq {stage : Stage} {r : Record} (h : Strikes orderId t stage r)
    (ht : Tallies orderId t stage r) (hc : r.order.status = .cancelled) (hs : stage ≠ .idle)
    (hp : stage.pending = 0) (hor : r.filled = reported orderId t ∨ fillPrice r.intent r.order.avgPrice ≤ 0)
    (hfirst : carried orderId t = 0) :
    Sealed orderId t ∧ emitted orderId t = executed orderId t ∧ r.filled = executed orderId t := by
  obtain ⟨hseal, he, hd⟩ := h.told hs hc
  obtain ⟨hr, hem⟩ := ht.filled_eq hp hd hor
  exact ⟨hseal, by omega, by omega⟩

private theorem Move.striking {l l' : Life} (hm : Move cfg orderId l o l') (hb : Books orderId t l)
    (h : Strike orderId t l) (hfirst : carried orderId t = 0) : striking orderId t o := by
  cases hm with
  | close r status hs hr =>
    intro _ hc
    have ht : Tallies orderId t .rejected r := hb
    obtain ⟨hseal, he, -⟩ := Strikes.emitted_eq h ht (hr hc) (by simp) rfl (ht.rest rfl) hfirst
    exact ⟨hseal, he⟩
  | closeFull stage r hc hs hq =>
    intro _ hst
    have ht : Tallies orderId t stage r := hb
    obtain ⟨hseal, he, -⟩ := Strikes.emitted_eq h ht hst hc.ne.1 hc.pending_eq (ht.of_closing hc) hfirst
    exact ⟨hseal, he⟩
  | reject stage r stamp e hc hs he hq hp hr =>
    intro _ _ hreason
    have ht : Tallies orderId t stage r := hb
    obtain ⟨hseal, -, hf⟩ :=
      Strikes.emitted_eq h ht (hr hreason) hc.ne.1 hc.pending_eq (ht.of_closing hc) hfirst
    refine ⟨hseal, ?_⟩
    rw [ordered_of_intent ht.intent]
    omega
  | refuse stamp e he hn => exact fun _ hne => absurd (he.trans hn) hne
  | complete stage r hc hs => exact fun _ h => by cases h
  | _ => trivial

private theorem striking_of_ne (h : o.orderId ≠ some orderId) : striking orderId t o := by
  cases o with
  | popped id status =>
    rintro rfl
    exact absurd rfl h
  | event e =>
    obtain ⟨stamp, body⟩ := e
    cases body with
    | rejected e => exact fun he => absurd (congrArg some he) h
    | _ => trivial
  | _ => trivial

private theorem answers_of_ne (h : o.orderId ≠ some orderId) : o.answers orderId = none := by
  cases o with
  | status id report => exact if_neg fun he => h (congrArg some he)
  | kept id => exact if_neg fun he => h (congrArg some he)
  | popped id status => exact if_neg fun he => h (congrArg some he)
  | _ => rfl

private theorem executionFor_of_ne (h : o.orderId ≠ some orderId) : o.executionFor orderId = none := by
  cases o with
  | executed id n price => exact if_neg fun he => h (congrArg some he)
  | _ => rfl

private theorem life_strike {l : Life} (hl : (life cfg orderId).Accepts t l) (hnr : ∀ j r, Obs.restored j r ∉ t)
    (hbook : Trace.Always unbooked t) (hmono : Trace.Always monotone t) (htold : Trace.Always sharesTold t)
    (hfin : Trace.Always final t) (hset : Trace.Always settled t) :
    Strike orderId t l ∧ Trace.Each (striking orderId) t := by
  induction hl with
  | nil => exact ⟨trivial, .nil _⟩
  | @concat t l o l' ht ho ih =>
    obtain ⟨hbook, hbk⟩ := Trace.each_concat.mp hbook
    obtain ⟨hmono, hm⟩ := Trace.each_concat.mp hmono
    obtain ⟨htold, hto⟩ := Trace.each_concat.mp htold
    obtain ⟨hfin, hf⟩ := Trace.each_concat.mp hfin
    obtain ⟨hset, hst⟩ := Trace.each_concat.mp hset
    have hnr' : ∀ j r, Obs.restored j r ∉ t := fun j r h => hnr j r (List.mem_append_left _ h)
    obtain ⟨hs, he⟩ := ih hnr' hbook hmono htold hfin hset
    have hfirst : carried orderId t = 0 := carried_eq_zero hnr'
    have hb := life_books ht hmono hbook
    rcases ho with ⟨_, hmove⟩ | ⟨hid, rfl⟩
    · refine ⟨hmove.strike hb (hmove.books hb hm hbk) hs hm hto hf hst, ?_⟩
      exact Trace.each_concat.mpr ⟨he, hmove.striking hb hs hfirst⟩
    · have hsil := Obs.Silent.of_ne hid
      exact ⟨strike_silent hsil.report (answers_of_ne hid) (executionFor_of_ne hid) (books_silent hsil hb) hs,
        Trace.each_concat.mpr ⟨he, striking_of_ne hid⟩⟩

/-- Where nothing executes between a poll's refresh and a cancel in its middle, an order is
dropped as CANCELLED with everything emitted that the venue ever executes, and what is
rejected is what was really cancelled. -/
theorem cancels_conserve (steps : List Step) (hV : VenueIds (run cfg steps {}).trace)
    (hmono : Trace.Always monotone (run cfg steps {}).trace) (hbook : Trace.Always unbooked (run cfg steps {}).trace)
    (htold : Trace.Always sharesTold (run cfg steps {}).trace) (hfin : Trace.Always final (run cfg steps {}).trace)
    (hset : Trace.Always settled (run cfg steps {}).trace) :
    Trace.Always (cancelsExactly (run cfg steps {}).trace) (run cfg steps {}).trace := by
  have hsound := (run_sounds steps {}).2 hV sound_init
  have hstrike : ∀ id, Trace.Each (striking id) (run cfg steps {}).trace := by
    intro id
    obtain ⟨l, hl, _⟩ := hsound.lives id
    exact (life_strike hl.1 (run_not_restored steps) hbook hmono htold hfin hset).2
  generalize (run cfg steps {}).trace = t at *
  rintro pre o suf rfl
  cases o with
  | popped id status =>
    by_cases hc : status = .cancelled
    · obtain ⟨hseal, he⟩ := hstrike id pre _ suf rfl rfl hc
      simp [cancelsExactly, he, hseal.executed_eq hfin hset]
    · simp [cancelsExactly, hc]
  | event e =>
    obtain ⟨stamp, body⟩ := e
    cases body with
    | rejected e =>
      by_cases hne : e.orderId = ""
      · simp [cancelsExactly, hne]
      · by_cases hr : e.reason = "order " ++ OrderStatus.cancelled.value
        · obtain ⟨hseal, he⟩ := hstrike e.orderId pre _ suf rfl rfl hne hr
          simp [cancelsExactly, ← he, hseal.executed_eq hfin hset]
        · simp [cancelsExactly, hr]
    | _ => rfl
  | _ => rfl

/-- Four shares execute after the refresh; the timeout handler then cancels the order, and
the poll drops it without them. -/
theorem timeout_cancel_loses_fill :
    let steps := [Step.submit marketBuy none (.placed (some "V1") ⟨.pending, some 0, some 0⟩) 0 [] [],
      .poll fun _ => { now := 301, refresh := .ok ⟨.pending, some 0, some 0⟩,
                       onTimeout := [.executed "V1" 4 100, .cancelTook "V1", .cancel "V1" true] }]
    let t := (run oneStock steps {}).trace
    VenueIds t ∧ Trace.Always monotone t ∧ Trace.Always sharesTold t ∧ Trace.Always moneyTold t ∧
      Trace.Always final t ∧ ¬ Trace.Always (cancelsExactly t) t := by
  decide +kernel

/-- Shares executed before the refresh are emitted before the order is dropped. -/
theorem timeout_cancel_keeps_fill :
    let t := (run oneStock
      [.submit marketBuy none (.placed (some "V1") ⟨.pending, some 0, some 0⟩) 0 [] [],
        .act (.executed "V1" 4 100),
        .poll fun _ => { now := 301, refresh := .ok ⟨.pending, some 4, some 100⟩,
                         onTimeout := [.cancelTook "V1", .cancel "V1" true] }] {}).trace
    Trace.Always (cancelsExactly t) t :=
  cancels_conserve _ (by decide +kernel) (by decide +kernel) (by decide +kernel) (by decide +kernel)
    (by decide +kernel) (by decide +kernel)

end NTrade.Execution
