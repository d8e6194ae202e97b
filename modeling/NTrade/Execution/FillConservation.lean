import NTrade.Execution.Remainders

/-! Fill conservation: the fills emitted for an order never exceed what the broker has
reported, and an order that a poll drops has been emitted and rejected in full. -/
namespace NTrade.Execution
open NTrade.Domain NTrade.Events NTrade.Lib

def bounded (pre : List Obs) : Obs → Bool
  | .placed _ _ _ intent order => toInt order.filledQty ≤ intent.quantity
  | .adopted _ r => 0 ≤ r.intent.quantity
  | .status orderId report => toInt report.filledQty ≤ ordered orderId pre
  | _ => true

/-- What ends an order can be emitted in full, a completed order was filled in full, and
only an order that was never tracked is adopted. -/
def conserves (pre : List Obs) : Obs → Bool
  | .status orderId report =>
    !report.status.isTerminal || fillable orderId pre report &&
      (report.status ≠ .completed || toInt report.filledQty = ordered orderId pre)
  | .cancelled orderId => (lastReport orderId pre).all (fillable orderId pre)
  | .adopted orderId _ => pre.all fun o => o.opens ≠ some orderId
  | _ => true

def dropsExactly (pre : List Obs) : Obs → Bool
  | .popped orderId _ =>
    emitted orderId pre = reported orderId pre && emitted orderId pre + rejected orderId pre = ordered orderId pre
  | _ => true

variable {cfg : Config} {orderId : String} {t : List Obs}

private structure Squares (orderId : String) (t : List Obs) (stage : Stage) (r : Record) : Prop where
  le : reported orderId t ≤ r.intent.quantity
  full : stage ≠ .idle → r.order.status = .completed → reported orderId t = r.intent.quantity

private def Square (orderId : String) (t : List Obs) : Life → Prop
  | .tracked stage r => Squares orderId t stage r
  | .accepting intent _ | .accepted intent _ => reported orderId t ≤ intent.quantity
  | .unknown | .gone => True

private theorem square_silent {o : Obs} (hrep : o.reportFor orderId = none) {l : Life} (h : Square orderId t l) :
    Square orderId (t ++ [o]) l := by
  cases l with
  | tracked stage r =>
    have hr : Squares orderId t stage r := h
    refine ⟨?_, ?_⟩
    · rw [reported_same hrep]
      exact hr.le
    · rw [reported_same hrep]
      exact hr.full
  | unknown => trivial
  | gone => trivial
  | _ => simpa only [Square, reported_same hrep] using h

/-- Steps that do not report. -/
private theorem Squares.step {o : Obs} {stage stage' : Stage} {r r' : Record} (h : Squares orderId t stage r)
    (hi : r'.intent = r.intent) (hrep : o.reportFor orderId = none := by rfl)
    (hf : stage' ≠ .idle → r'.order.status = .completed → stage ≠ .idle ∧ r.order.status = .completed) :
    Squares orderId (t ++ [o]) stage' r' := by
  refine ⟨?_, fun hidle hc => ?_⟩
  · rw [reported_same hrep, hi]
    exact h.le
  · obtain ⟨hidle', hc'⟩ := hf hidle hc
    rw [reported_same hrep, hi]
    exact h.full hidle' hc'

/-- A refresh that meets the conditions squares the order. -/
private theorem Squares.refresh {r : Record} {report : Report} (ht : Tallies orderId t .idle r)
    (hbound : bounded t (.status orderId report) = true) (hcons : conserves t (.status orderId report) = true) :
    Squares orderId (t ++ [Obs.status orderId report]) .refreshed (r.refresh report) := by
  have hrep := reported_status orderId t report
  have hb : toInt report.filledQty ≤ ordered orderId t := by simpa [bounded] using hbound
  have hq := ordered_of_intent ht.intent
  simp only [conserves, Bool.or_eq_true, Bool.not_eq_true', Bool.and_eq_true, decide_eq_true_eq] at hcons
  refine ⟨?_, fun _ hc => ?_⟩
  · rw [hrep, Record.refresh_intent, ← hq]
    exact hb
  · have hst : report.status = .completed := hc
    obtain ⟨-, hfull⟩ := hcons.resolve_left (by rw [hst]; decide)
    rw [hrep, Record.refresh_intent, ← hq]
    exact hfull.resolve_left (by simp [hst])

private theorem Move.square {l l' : Life} {o : Obs} (hm : Move cfg orderId l o l') (hb : Books orderId t l)
    (h : Square orderId t l) (hbound : bounded t o = true) (hcons : conserves t o = true)
    (hnew : (∀ a ∈ t, a.opens ≠ some orderId) → l = .unknown) (hnr : ∀ j r, o ≠ .restored j r) :
    Square orderId (t ++ [o]) l' := by
  cases hm with
  | place cause answer intent order hp =>
    simpa [Square, reported, lastReport_concat, Obs.reportFor, bounded] using hbound
  | refuse stamp e he hn => trivial
  | adopt l r hl hr =>
    have hun : ∀ a ∈ t, a.opens ≠ some orderId := by simpa [conserves] using hcons
    obtain rfl := hnew hun
    have hrep : reported orderId t = 0 := hb.2.2
    have hq : 0 ≤ r.intent.quantity := by simpa [bounded] using hbound
    exact ⟨by rw [reported_same rfl, hrep]; exact hq, by simp⟩
  | restore l r hl hr => exact absurd rfl (hnr orderId r)
  | track intent order now hf =>
    have hle : reported orderId t ≤ intent.quantity := h
    exact ⟨by rw [reported_same rfl]; exact hle, by simp⟩
  | refresh r report => exact Squares.refresh hb hbound hcons
  | cancel stage r => exact Squares.step h rfl rfl fun _ hcomp => by cases hcomp
  | reject stage r stamp e hc hs he hq hp hr => exact Squares.step h rfl rfl fun _ hcomp => ⟨hc.ne.1, hcomp⟩
  | evict r => trivial
  | complete stage r hc hs => trivial
  | close r status hs hr => trivial
  | closeFull stage r hc hs hq => trivial
  | fillAtOnce intent order stamp fill hf hfill => trivial
  | accept intent order stamp => exact square_silent (l := .accepting intent order) rfl h
  | touch r status => exact Squares.step h rfl rfl (by simp)
  | miss r => exact Squares.step h rfl rfl (by simp)
  | note r hs => exact Squares.step h rfl rfl (by simp)
  | update r stamp e he hq hs => exact Squares.step h rfl rfl (by simp)
  | steady r hs => exact Squares.step h rfl rfl (by simp)
  | fill r stamp fill hf => exact Squares.step h rfl rfl (by simp)
  | book r n => exact Squares.step h rfl rfl (by simp)
  | keep stage r hc ht => exact Squares.step h rfl rfl (by simp)
  | ask r => exact square_silent (l := .tracked .idle r) rfl h
  | timeout r stamp e he => exact square_silent (l := .tracked .refreshed r) rfl h
  | execute l n price => exact square_silent rfl h
  | cancelTake l => exact square_silent rfl h

/-- What a dropped order was reported to have filled: all of it, if it completed. -/
private theorem Move.reported_le {l l' : Life} {status : OrderStatus} (hm : Move cfg orderId l (.popped orderId status) l')
    (hb : Books orderId t l) (h : Square orderId t l) :
    reported orderId t ≤ ordered orderId t ∧ (status = .completed → reported orderId t = ordered orderId t) := by
  cases hm with
  | complete stage r hc hs =>
    have ht : Tallies orderId t stage r := hb
    have hr : Squares orderId t stage r := h
    rw [ordered_of_intent ht.intent]
    exact ⟨hr.le, fun _ => hr.full hc.ne.1 hs⟩
  | close r status hs hr =>
    have ht : Tallies orderId t .rejected r := hb
    have hr : Squares orderId t .rejected r := h
    rw [ordered_of_intent ht.intent]
    refine ⟨hr.le, ?_⟩
    rintro rfl
    rcases hs with hs | hs <;> nomatch hs
  | closeFull stage r hc hs hq =>
    have ht : Tallies orderId t stage r := hb
    have hr : Squares orderId t stage r := h
    rw [ordered_of_intent ht.intent]
    exact ⟨hr.le, fun hcomp => hr.full hc.ne.1 hcomp⟩

/-- An order that is dropped within its quantity, and filled if it completed, was emitted and rejected in full. -/
private theorem dropsExactly_of_dropped {status : OrderStatus} (h : Dropped orderId t status)
    (hle : reported orderId t ≤ ordered orderId t) (hfull : status = .completed → reported orderId t = ordered orderId t) :
    dropsExactly t (.popped orderId status) = true := by
  have he := h.emitted
  have hsum : emitted orderId t + rejected orderId t = ordered orderId t := by
    rw [rejected_eq_sum, h.rejections]
    split_ifs with hc
    · simp
    · rw [List.sum_nil, add_zero, he]
      by_cases hs : status = .completed
      · exact hfull hs
      · have hlt := not_and.mp hc hs
        omega
  simp [dropsExactly, he, ← hsum]

private theorem life_square {l : Life} (hl : (life cfg orderId).Accepts t l) (hnr : ∀ j r, Obs.restored j r ∉ t)
    (hbook : Trace.Always unbooked t) (hmono : Trace.Always monotone t) (hbound : Trace.Always bounded t)
    (hcons : Trace.Always conserves t) : Square orderId t l ∧
      Trace.Each (fun pre o => ∀ status, o = .popped orderId status → reported orderId pre ≤ ordered orderId pre ∧
        (status = .completed → reported orderId pre = ordered orderId pre)) t := by
  induction hl with
  | nil => exact ⟨trivial, .nil _⟩
  | @concat t l o l' ht ho ih =>
    obtain ⟨hbook, hbk⟩ := Trace.each_concat.mp hbook
    obtain ⟨hmono, hm⟩ := Trace.each_concat.mp hmono
    obtain ⟨hbound, hbd⟩ := Trace.each_concat.mp hbound
    obtain ⟨hcons, hc⟩ := Trace.each_concat.mp hcons
    have hnr' : ∀ j r, Obs.restored j r ∉ t := fun j r h => hnr j r (List.mem_append_left _ h)
    have hno : ∀ j r, o ≠ .restored j r := fun j r h => hnr j r (by simp [h])
    obtain ⟨hs, he⟩ := ih hnr' hbook hmono hbound hcons
    have hb := life_books ht hmono hbook
    rw [Trace.each_concat]
    rcases ho with ⟨hid, hmove⟩ | ⟨hid, rfl⟩
    · refine ⟨hmove.square hb hs hbd hc (unknown_of_not_opened ht) hno, he, ?_⟩
      rintro status rfl
      exact hmove.reported_le hb hs
    · refine ⟨square_silent (Obs.Silent.of_ne hid).report hs, he, ?_⟩
      rintro status rfl
      exact absurd rfl hid

/-- The conditions on what ends an order are among those that conserve it. -/
private theorem ends_of_conserves (hcons : Trace.Always conserves t) :
    Trace.Always endsFillable t ∧ Trace.Always adoptsNew t := by
  constructor
  · intro pre o suf he
    have hc := hcons pre o suf he
    cases o with
    | status orderId report =>
      simp only [conserves, Bool.or_eq_true, Bool.and_eq_true] at hc
      simp only [endsFillable, Bool.or_eq_true]
      exact hc.imp_right And.left
    | cancelled orderId => exact hc
    | _ => rfl
  · intro pre o suf he
    have hc := hcons pre o suf he
    cases o with
    | adopted orderId r => exact hc
    | _ => rfl

/-- In every run whose reports meet the conditions, the fills of an order stay within what
the broker has reported, and every order that a poll drops was filled and rejected in full. -/
theorem fills_conserved (steps : List Step) (hV : VenueIds (run cfg steps {}).trace)
    (hmono : Trace.Always monotone (run cfg steps {}).trace) (hbound : Trace.Always bounded (run cfg steps {}).trace)
    (hcons : Trace.Always conserves (run cfg steps {}).trace) :
    (∀ orderId pre, pre <+: (run cfg steps {}).trace → emitted orderId pre ≤ reported orderId pre) ∧
      Trace.Always dropsExactly (run cfg steps {}).trace := by
  have hsound := (run_sounds steps {}).2 hV sound_init
  have hnr : ∀ j r, Obs.restored j r ∉ (run cfg steps {}).trace := run_not_restored steps
  have hl : ∀ id, ∃ l, (life cfg id).Accepts (run cfg steps {}).trace l := by
    intro id
    obtain ⟨l, hl, _⟩ := hsound.lives id
    exact ⟨l, hl.1⟩
  obtain ⟨hends, hnew⟩ := ends_of_conserves hcons
  have hbook := unbooked_of_adoptsNew hl hnr hnew
  constructor
  · intro orderId pre hpre
    exact emitted_le_reported orderId steps hV hmono hbook hpre
  · intro pre o suf he
    cases o with
    | popped orderId status =>
      obtain ⟨l, hl⟩ := hl orderId
      obtain ⟨hle, hfull⟩ := (life_square hl hnr hbook hmono hbound hcons).2 pre _ suf he status rfl
      exact dropsExactly_of_dropped (run_dropped steps hV hmono hends hnew he) hle hfull
    | _ => rfl

/-- A market order that completes without an average price is dropped with its shares lost. -/
theorem completed_without_price_loses_fill :
    let steps := [Step.submit marketBuy none (.placed (some "V1") ⟨.pending, some 0, some 0⟩) 0 [] [],
      .poll fun _ => { refresh := .ok ⟨.completed, some 10, none⟩ }]
    VenueIds (run oneStock steps {}).trace ∧ Trace.Always monotone (run oneStock steps {}).trace ∧
      Trace.Always bounded (run oneStock steps {}).trace ∧
      ¬ Trace.Always dropsExactly (run oneStock steps {}).trace := by
  decide +kernel

/-- The conditions hold of an order that is filled in two parts, both with a price. -/
theorem fills_conserved_partly_then_completed :
    let steps := [Step.submit marketBuy none (.placed (some "V1") ⟨.pending, some 0, some 0⟩) 0 [] [],
      .poll fun _ => { refresh := .ok ⟨.partiallyFilled, some 4, some 100⟩ },
      .poll fun _ => { refresh := .ok ⟨.completed, some 10, some 101⟩ }]
    (∀ orderId pre, pre <+: (run oneStock steps {}).trace → emitted orderId pre ≤ reported orderId pre) ∧
      Trace.Always dropsExactly (run oneStock steps {}).trace :=
  fills_conserved _ (by decide +kernel) (by decide +kernel) (by decide +kernel) (by decide +kernel)

end NTrade.Execution
