import NTrade.Execution.Accounts

/-! What is left of an order that a poll drops: what was reported has been emitted, and what
its intent asked for beyond that is rejected, once, unless the order completed. -/
namespace NTrade.Execution
open NTrade.Domain NTrade.Events NTrade.Lib

def adoptsNew (pre : List Obs) : Obs → Bool
  | .adopted orderId _ => pre.all fun o => o.opens ≠ some orderId
  | _ => true

def endsFillable (pre : List Obs) : Obs → Bool
  | .status orderId report => !report.status.isTerminal || fillable orderId pre report
  | .cancelled orderId => (lastReport orderId pre).all (fillable orderId pre)
  | _ => true

def rejectionsOf (orderId : String) (t : List Obs) : List OrderRejected := t.filterMap (Obs.rejectionFor orderId)

variable {cfg : Config} {orderId : String} {t : List Obs}

theorem rejectionFor_of_ne {o : Obs} (h : o.orderId ≠ some orderId) : o.rejectionFor orderId = none := by
  cases o with
  | event e =>
    obtain ⟨stamp, body⟩ := e
    cases body with
    | rejected e => exact if_neg fun he => h (congrArg some he)
    | _ => rfl
  | _ => rfl

theorem rejectionsOf_concat (t : List Obs) (o : Obs) :
    rejectionsOf orderId (t ++ [o]) = rejectionsOf orderId t ++ (o.rejectionFor orderId).toList := by
  rw [rejectionsOf, List.filterMap_append]
  cases ho : o.rejectionFor orderId <;> simp [rejectionsOf, ho]

theorem rejectionsOf_same {o : Obs} (h : o.rejectionFor orderId = none) :
    rejectionsOf orderId (t ++ [o]) = rejectionsOf orderId t := by
  rw [rejectionsOf_concat, h]
  exact List.append_nil _

theorem rejected_eq_sum (orderId : String) (t : List Obs) :
    rejected orderId t = ((rejectionsOf orderId t).map OrderRejected.quantity).sum := by
  induction t using List.reverseRecOn with
  | nil => rfl
  | append_singleton t o ih =>
    rw [rejected_concat, rejectionsOf_concat, ih, List.map_append, List.sum_append]
    cases o.rejectionFor orderId <;> simp

structure Rests (orderId : String) (t : List Obs) (stage : Stage) (r : Record) : Prop where
  rejections : (rejectionsOf orderId t).map OrderRejected.quantity =
    if stage = .rejected then [r.intent.quantity - r.filled] else []
  due : stage ≠ .idle → r.order.status.isTerminal = true →
    r.filled + stage.pending = reported orderId t ∨ 0 < fillPrice r.intent r.order.avgPrice
  ended : stage = .rejected → r.order.status.isTerminal = true ∧ r.filled < r.intent.quantity

def Rest (orderId : String) (t : List Obs) : Life → Prop
  | .tracked stage r => Rests orderId t stage r
  | .accepting _ _ | .accepted _ _ => rejectionsOf orderId t = []
  | .unknown => orderId ≠ "" → rejectionsOf orderId t = []
  | .gone => True

theorem rest_silent {o : Obs} (hrep : o.reportFor orderId = none) (hrej : o.rejectionFor orderId = none)
    {l : Life} (h : Rest orderId t l) : Rest orderId (t ++ [o]) l := by
  cases l with
  | tracked stage r =>
    have hr : Rests orderId t stage r := h
    refine ⟨?_, ?_, hr.ended⟩
    · rw [rejectionsOf_same hrej]
      exact hr.rejections
    · rw [reported_same hrep]
      exact hr.due
  | gone => trivial
  | _ => simpa only [Rest, rejectionsOf_same hrej] using h

/-- Steps that neither report nor reject: what was due is emitted or still due. -/
private theorem Rests.step {o : Obs} {stage stage' : Stage} {r r' : Record} (h : Rests orderId t stage r)
    (ht : Tallies orderId (t ++ [o]) stage' r') (hi : r'.intent = r.intent)
    (hrep : o.reportFor orderId = none := by rfl) (hrej : o.rejectionFor orderId = none := by rfl)
    (hs : stage ≠ .rejected ∧ stage' ≠ .rejected)
    (hf : stage' ≠ .idle → stage ≠ .idle ∧ r'.order = r.order ∧
      r.filled + stage.pending ≤ r'.filled + stage'.pending) : Rests orderId (t ++ [o]) stage' r' := by
  have hle := ht.le
  rw [reported_same hrep] at hle
  refine ⟨?_, fun hidle hterm => ?_, fun h => absurd h hs.2⟩
  · rw [rejectionsOf_same hrej, h.rejections, if_neg hs.1, if_neg hs.2]
  · obtain ⟨hidle', ho, hgrow⟩ := hf hidle
    rw [reported_same hrep, hi, ho]
    rcases h.due hidle' (ho ▸ hterm) with hd | hd
    · exact .inl (by omega)
    · exact .inr hd

/-- A terminal order with nothing left to fill has been emitted in full. -/
private theorem Rests.emitted_eq {stage : Stage} {r : Record} (h : Rests orderId t stage r)
    (ht : Tallies orderId t stage r) (hterm : r.order.status.isTerminal = true) (hs : stage ≠ .idle)
    (hp : stage.pending = 0) (hor : r.filled = reported orderId t ∨ fillPrice r.intent r.order.avgPrice ≤ 0)
    (hfirst : carried orderId t = 0) : r.filled = reported orderId t ∧ emitted orderId t = reported orderId t := by
  obtain ⟨hr, he⟩ := ht.filled_eq hp (h.due hs hterm) hor
  exact ⟨hr, by omega⟩

private theorem Rests.refresh {r : Record} {report : Report} (h : Rests orderId t .idle r) (ht : Tallies orderId t .idle r)
    (hmono : monotone t (.status orderId report) = true) (hends : endsFillable t (.status orderId report) = true) :
    Rests orderId (t ++ [Obs.status orderId report]) .refreshed (r.refresh report) := by
  simp only [endsFillable, Bool.or_eq_true, Bool.not_eq_true'] at hends
  refine ⟨?_, fun _ hterm => ?_, by simp⟩
  · rw [rejectionsOf_same rfl, h.rejections]
    simp
  · have hf := hends.resolve_left (by rw [show report.status.isTerminal = true from hterm]; simp)
    rw [reported_status orderId t report]
    simpa [Report.apply] using ht.due_of_fillable hmono hf

/-- One move keeps what is left of an order. -/
theorem Move.rest {l l' : Life} {o : Obs} (hm : Move cfg orderId l o l') (hb : Books orderId t l)
    (hb' : Books orderId (t ++ [o]) l') (h : Rest orderId t l) (hmono : monotone t o = true)
    (hends : endsFillable t o = true) (hnew : adoptsNew t o = true)
    (hun : (∀ a ∈ t, a.opens ≠ some orderId) → l = .unknown) (hnamed : o.opens ≠ some "")
    (hnr : ∀ j r, o ≠ .restored j r) : Rest orderId (t ++ [o]) l' := by
  cases hm with
  | place cause answer intent order hp => exact (rejectionsOf_same rfl).trans (h fun he => hnamed (congrArg some he))
  | refuse stamp e he hn => exact fun hne => absurd hn hne
  | adopt l r hl hr =>
    have hopen : ∀ a ∈ t, a.opens ≠ some orderId := by simpa [adoptsNew] using hnew
    obtain rfl := hun hopen
    have hrej : rejectionsOf orderId t = [] := h fun he => hnamed (congrArg some he)
    exact ⟨by rw [rejectionsOf_same rfl, hrej]; simp, by simp, by simp⟩
  | restore l r hl hr => exact absurd rfl (hnr orderId r)
  | track intent order now hf =>
    have hrej : rejectionsOf orderId t = [] := h
    exact ⟨by rw [rejectionsOf_same rfl, hrej]; simp, by simp, by simp⟩
  | refresh r report => exact Rests.refresh h hb hmono hends
  | cancel stage r =>
    have hr : Rests orderId t stage r := h
    have ht : Tallies orderId t stage r := hb
    refine ⟨?_, fun hidle _ => ?_, fun hs => ⟨rfl, (hr.ended hs).2⟩⟩
    · rw [rejectionsOf_same rfl]
      exact hr.rejections
    · rw [reported_same rfl]
      exact ht.due_of_last hidle hends
  | reject stage r stamp e hc hs he hq hp hr =>
    have hr : Rests orderId t stage r := h
    have hp0 := hc.pending_eq
    obtain ⟨hidle, hnrej⟩ := hc.ne
    have hrep : reported orderId (t ++ [Obs.event ⟨stamp, .rejected e⟩]) = reported orderId t := reported_same rfl
    have hterm : r.order.status.isTerminal = true := (OrderStatus.isTerminal_iff _).mpr (.inr hs)
    refine ⟨?_, fun _ ht => ?_, fun _ => ⟨hterm, by omega⟩⟩
    · simp [rejectionsOf_concat, hr.rejections, hnrej, Obs.rejectionFor, he, hq]
    · rw [hrep]
      have hd := hr.due hidle ht
      rwa [hp0] at hd
  | evict r => trivial
  | complete stage r hc hs => trivial
  | close r status hs hr => trivial
  | closeFull stage r hc hs hq => trivial
  | fillAtOnce intent order stamp fill hf hfill => trivial
  | accept intent order stamp => exact rest_silent (l := .accepting intent order) rfl rfl h
  | touch r status => exact Rests.step h hb' rfl rfl rfl (by simp) (by simp)
  | miss r => exact Rests.step h hb' rfl rfl rfl (by simp) (by simp)
  | note r hs => exact Rests.step h hb' rfl rfl rfl (by simp) (by simp)
  | update r stamp e he hq hs => exact Rests.step h hb' rfl rfl rfl (by simp) (by simp)
  | steady r hs => exact Rests.step h hb' rfl rfl rfl (by simp) (by simp)
  | fill r stamp fill hf =>
    have hpos := (fillOf_eq_some hf).2.2.1
    exact Rests.step h hb' rfl rfl rfl (by simp) (by simp; omega)
  | book r n => exact Rests.step h hb' rfl rfl rfl (by simp) (by simp)
  | keep stage r hc ht => exact Rests.step h hb' rfl rfl rfl (by simp [hc.ne.2]) (by simp)
  | ask r => exact rest_silent (l := .tracked .idle r) rfl rfl h
  | timeout r stamp e he => exact rest_silent (l := .tracked .refreshed r) rfl rfl h
  | execute l n price => exact rest_silent rfl rfl h
  | cancelTake l => exact rest_silent rfl rfl h

structure Dropped (orderId : String) (t : List Obs) (status : OrderStatus) : Prop where
  emitted : emitted orderId t = reported orderId t
  rejections : (rejectionsOf orderId t).map OrderRejected.quantity =
    if status ≠ .completed ∧ Execution.emitted orderId t < ordered orderId t
      then [ordered orderId t - Execution.emitted orderId t] else []

theorem Move.dropped {l l' : Life} {status : OrderStatus} (hm : Move cfg orderId l (.popped orderId status) l')
    (hb : Books orderId t l) (h : Rest orderId t l) (hfirst : carried orderId t = 0) : Dropped orderId t status := by
  cases hm with
  | complete stage r hc hs =>
    have ht : Tallies orderId t stage r := hb
    have hr : Rests orderId t stage r := h
    obtain ⟨hidle, hnrej⟩ := hc.ne
    obtain ⟨-, he⟩ := hr.emitted_eq ht (by rw [hs]; rfl) hidle hc.pending_eq (ht.of_closing hc) hfirst
    exact ⟨he, by rw [hr.rejections, if_neg hnrej, if_neg (fun h => h.1 rfl)]⟩
  | close r status hs hr =>
    have ht : Tallies orderId t .rejected r := hb
    have hr : Rests orderId t .rejected r := h
    obtain ⟨hterm, hlt⟩ := hr.ended rfl
    obtain ⟨hfr, he⟩ := hr.emitted_eq ht hterm (by simp) rfl (ht.rest rfl) hfirst
    have hq := ordered_of_intent ht.intent
    refine ⟨he, ?_⟩
    rw [hr.rejections, if_pos rfl, he, ← hfr, hq, if_pos]
    refine ⟨?_, hlt⟩
    rcases hs with rfl | rfl <;> nofun
  | closeFull stage r hc hs hq =>
    have ht : Tallies orderId t stage r := hb
    have hr : Rests orderId t stage r := h
    obtain ⟨hidle, hnrej⟩ := hc.ne
    have hterm : r.order.status.isTerminal = true := (OrderStatus.isTerminal_iff _).mpr (.inr hs)
    obtain ⟨hfr, he⟩ := hr.emitted_eq ht hterm hidle hc.pending_eq (ht.of_closing hc) hfirst
    refine ⟨he, ?_⟩
    rw [hr.rejections, if_neg hnrej, he, ← hfr, ordered_of_intent ht.intent, if_neg (fun h => not_lt.mpr hq h.2)]

private theorem life_rest {l : Life} (hl : (life cfg orderId).Accepts t l) (hnamed : ∀ o ∈ t, o.opens ≠ some "")
    (hnr : ∀ j r, Obs.restored j r ∉ t) (hbook : Trace.Always unbooked t) (hmono : Trace.Always monotone t)
    (hends : Trace.Always endsFillable t) (hnew : Trace.Always adoptsNew t) : Rest orderId t l ∧
      Trace.Each (fun pre o => ∀ status, o = .popped orderId status → Dropped orderId pre status) t := by
  induction hl with
  | nil => exact ⟨fun _ => rfl, .nil _⟩
  | @concat t l o l' ht ho ih =>
    obtain ⟨hbook, hbk⟩ := Trace.each_concat.mp hbook
    obtain ⟨hmono, hm⟩ := Trace.each_concat.mp hmono
    obtain ⟨hends, he⟩ := Trace.each_concat.mp hends
    obtain ⟨hnew, hn⟩ := Trace.each_concat.mp hnew
    have hnr' : ∀ j r, Obs.restored j r ∉ t := fun j r h => hnr j r (List.mem_append_left _ h)
    have hno : ∀ j r, o ≠ .restored j r := fun j r h => hnr j r (by simp [h])
    obtain ⟨hs, hd⟩ := ih (fun o ho => hnamed o (List.mem_append_left _ ho)) hnr' hbook hmono hends hnew
    have hb := life_books ht hmono hbook
    rw [Trace.each_concat]
    rcases ho with ⟨hid, hmove⟩ | ⟨hid, rfl⟩
    · refine ⟨hmove.rest hb (hmove.books hb hm hbk) hs hm he hn (unknown_of_not_opened ht) (hnamed o (by simp)) hno, hd, ?_⟩
      rintro status rfl
      exact hmove.dropped hb hs (carried_eq_zero hnr')
    · refine ⟨rest_silent (Obs.Silent.of_ne hid).report (rejectionFor_of_ne hid) hs, hd, ?_⟩
      rintro status rfl
      exact absurd rfl hid

/-- An order that is adopted anew has no shares booked. -/
theorem unbooked_of_adoptsNew (hl : ∀ id, ∃ l, (life cfg id).Accepts t l) (hnr : ∀ j r, Obs.restored j r ∉ t)
    (hnew : Trace.Always adoptsNew t) : Trace.Always unbooked t := by
  rintro pre o suf rfl
  have hn := hnew pre o suf rfl
  cases o with
  | adopted id r =>
    obtain ⟨l, hl⟩ := hl id
    obtain ⟨l', hl'⟩ := hl.of_isPrefix (List.prefix_append pre _)
    have hopen : ∀ a ∈ pre, a.opens ≠ some id := by simpa [adoptsNew] using hn
    obtain ⟨h1, h2⟩ := books_unopened hl' hopen
    simp [unbooked, h1, h2]
  | restored j r => exact absurd (by simp) (hnr j r)
  | _ => rfl

/-- In every run whose reports go forward, can be emitted where they end an order, and do not bring an order back, an
order is dropped with what was reported emitted and the rest of its intent rejected. -/
theorem run_dropped (steps : List Step) (hV : VenueIds (run cfg steps {}).trace)
    (hmono : Trace.Always monotone (run cfg steps {}).trace) (hends : Trace.Always endsFillable (run cfg steps {}).trace)
    (hnew : Trace.Always adoptsNew (run cfg steps {}).trace) {pre suf : List Obs} {status : OrderStatus}
    (he : (run cfg steps {}).trace = pre ++ .popped orderId status :: suf) : Dropped orderId pre status := by
  have hsound := (run_sounds steps {}).2 hV sound_init
  have hnr : ∀ j r, Obs.restored j r ∉ (run cfg steps {}).trace := run_not_restored steps
  have hl : ∀ id, ∃ l, (life cfg id).Accepts (run cfg steps {}).trace l := by
    intro id
    obtain ⟨l, hl, _⟩ := hsound.lives id
    exact ⟨l, hl.1⟩
  have hbook := unbooked_of_adoptsNew hl hnr hnew
  obtain ⟨l, hl⟩ := hl orderId
  exact (life_rest hl hsound.ids.named hnr hbook hmono hends hnew).2 pre _ suf he status rfl

end NTrade.Execution
