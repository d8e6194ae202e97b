import NTrade.Storage.EventStore
import NTrade.Execution.Accounts

/-! Crash recovery: the walk over the event log against the tracker it is to rebuild. An
update event sets the filled shares of an order and the fill event behind it adds them
again, so the two agree only where an update brings no shares. -/
namespace NTrade.Storage
open NTrade.Domain NTrade.Events NTrade.Execution NTrade.Lib

def recorded : Obs → Option Event
  | .event e => some e.body
  | _ => none

def log (t : List Obs) : List Event := t.filterMap recorded

def notes (orderId : String) : Obs → Option OrderStatus
  | .placed _ _ id _ order => if id = orderId then some order.status else none
  | .noted id status => if id = orderId then some status else none
  | _ => none

/-- The status that the tracker has noted for an order. -/
def notedStatus (orderId : String) (t : List Obs) : Option OrderStatus := Trace.last (notes orderId) t

/-- What the log tells of an order is what the tracker knows: an order that completes at
once is filled in full, one that stays open has shares left to fill, and a report that
changes its status without ending it brings no new shares. No order is evicted or adopted. -/
def recoverable (pre : List Obs) : Obs → Bool
  | .placed _ _ _ intent order => 0 < intent.quantity &&
    (!order.isFilled || intent.quantity ≤ toInt order.filledQty && 0 < fillPrice intent order.avgPrice)
  | .status orderId report => report.status.isTerminal || toInt report.filledQty < ordered orderId pre &&
    (notedStatus orderId pre = some report.status || toInt report.filledQty ≤ emitted orderId pre)
  | .evicted _ => false
  | .adopted _ _ => false
  | _ => true

/-- A later report brings no share that is not emitted yet, or a price to emit it at. -/
def fillableReport (pre : List Obs) : Obs → Bool
  | .status orderId report => fillable orderId pre report
  | _ => true

/-- The observation ends a poll of the order. -/
def pollEnd (orderId : String) : Obs → Bool
  | .kept id => id = orderId
  | .popped id _ => id = orderId
  | _ => false

/-- A poll that is done with an order has emitted what the broker reports beyond `before`. -/
def caughtUp (orderId : String) (before : Int) (pre : List Obs) (o : Obs) : Bool :=
  !pollEnd orderId o || before + emitted orderId pre = reported orderId pre

def recover (cfg : Config) (w : World) : World := (restoreOpen cfg (openOrderDeltas (log w.trace)) {}).2

variable {cfg : Config} {orderId : String} {t : List Obs} {o : Obs}

private def entryOf (orderId : String) (t : List Obs) : Option OpenOrder := (walk (log t)).get orderId

private theorem entryOf_event (e : Stamped) :
    entryOf orderId (t ++ [Obs.event e]) = entryStep orderId (entryOf orderId t) e.body := by
  have hl : log (t ++ [Obs.event e]) = log t ++ [e.body] := by simp [log, recorded]
  rw [entryOf, hl]
  exact get_walk_concat _ _ _

private theorem entryOf_same (h : recorded o = none) : entryOf orderId (t ++ [o]) = entryOf orderId t := by
  have hl : log (t ++ [o]) = log t := by simp [log, h]
  rw [entryOf, hl, entryOf]

private theorem entryOf_of_ne (h : o.orderId ≠ some orderId) : entryOf orderId (t ++ [o]) = entryOf orderId t := by
  cases o with
  | event e => exact (entryOf_event e).trans (entryStep_of_ne h _)
  | _ => exact entryOf_same rfl

private theorem notedStatus_same (h : notes orderId o = none) : notedStatus orderId (t ++ [o]) = notedStatus orderId t := by
  simp [notedStatus, h]

private theorem notes_of_ne (h : o.orderId ≠ some orderId) : notes orderId o = none := by
  cases o with
  | placed cause answer id intent order => exact if_neg fun he => h (congrArg some he)
  | noted id status => exact if_neg fun he => h (congrArg some he)
  | _ => rfl

/-- The order's change of status is in the log: as terminal it is over in both books, and
otherwise both have the same shares. -/
private def Late (r : Record) (s : OrderStatus) (filled pending : Int) : Prop :=
  (r.order.status = r.status ∨ r.order.status = .cancelled) ∧
    (s.isTerminal = true ∧ r.order.status.isTerminal = true ∨
      s.isTerminal = false ∧ filled = r.filled + pending ∧ r.order.status ≠ .completed)

/-- Where the entry of a tracked order stands at each stage; `s` is its status in the log. -/
private def Agrees (r : Record) (s : OrderStatus) (filled : Int) : Stage → Prop
  | .idle => s.isTerminal = false ∧ filled = r.filled ∧ r.filled < r.intent.quantity ∧ r.status ≠ .completed
  | .refreshed => s.isTerminal = false ∧ filled = r.filled ∧ r.status ≠ .completed ∧
    (r.order.status.isTerminal = true ∨ r.order.status = r.status ∨ toInt r.order.filledQty ≤ r.filled)
  | .noted => filled = r.filled ∧ (r.order.status = r.status ∨ r.order.status = .cancelled) ∧
    (r.status.isTerminal = true ∨ toInt r.order.filledQty ≤ r.filled)
  | .checked => Late r s filled 0
  | .filled n => Late r s filled n
  | .booked => Late r s filled 0
  | .rejected => s.isTerminal = true

private structure Logs (cfg : Config) (orderId : String) (t : List Obs) (stage : Stage) (r : Record)
    (entry : OpenOrder) : Prop where
  placeable : cfg.Placeable r.intent
  quantity : entry.quantity = r.intent.quantity
  symbol : entry.symbol = r.intent.symbol
  side : entry.side = r.intent.side
  noted : notedStatus orderId t = some r.status
  room : stage ≠ .idle → r.order.status.isTerminal = false → toInt r.order.filledQty < r.intent.quantity
  agrees : ∃ s : OrderStatus, entry.status = s.value ∧ Agrees r s entry.filled stage

private def Logged (cfg : Config) (orderId : String) (t : List Obs) : Life → Prop
  | .unknown => entryOf orderId t = none
  | .accepting intent order => entryOf orderId t = none ∧ cfg.Placeable intent ∧ 0 < intent.quantity ∧
    notedStatus orderId t = some order.status ∧
    (order.isFilled = true → intent.quantity ≤ toInt order.filledQty ∧ 0 < fillPrice intent order.avgPrice)
  | .accepted intent order => entryOf orderId t = some (.ofAccepted (acceptance orderId intent)) ∧
    cfg.Placeable intent ∧ 0 < intent.quantity ∧ notedStatus orderId t = some order.status ∧
    (order.isFilled = true → intent.quantity ≤ toInt order.filledQty ∧ 0 < fillPrice intent order.avgPrice)
  | .tracked stage r => ∃ entry, entryOf orderId t = some entry ∧ Logs cfg orderId t stage r entry
  | .gone => ∀ entry, entryOf orderId t = some entry → entry.isOpen = false

private theorem isOpen_of_terminal {entry : OpenOrder} {s : OrderStatus} (hs : entry.status = s.value)
    (ht : s.isTerminal = true) : entry.isOpen = false := by
  have hm : s.value ∈ OrderStatus.TERMINAL := by simpa [OrderStatus.isTerminal] using ht
  simp [OpenOrder.isOpen, hs, hm]

private theorem isOpen_of_full {entry : OpenOrder} (h : entry.quantity ≤ entry.filled) : entry.isOpen = false := by
  simp only [OpenOrder.isOpen, Bool.and_eq_false_iff, decide_eq_false_iff_not]
  exact .inr (by omega)

private theorem isOpen_of_nonterminal {entry : OpenOrder} {s : OrderStatus} (hs : entry.status = s.value)
    (ht : s.isTerminal = false) (hq : entry.filled < entry.quantity) : entry.isOpen = true := by
  have hm : s.value ∉ OrderStatus.TERMINAL := by simpa [OrderStatus.isTerminal] using ht
  simp only [OpenOrder.isOpen, hs, Bool.and_eq_true, decide_eq_true_eq]
  exact ⟨hm, by omega⟩

private theorem logged_silent (hl : entryOf orderId (t ++ [o]) = entryOf orderId t) (hn : notes orderId o = none)
    {l : Life} (h : Logged cfg orderId t l) : Logged cfg orderId (t ++ [o]) l := by
  have hnoted := notedStatus_same (t := t) hn
  cases l with
  | tracked stage r =>
    obtain ⟨entry, he, hr⟩ := h
    exact ⟨entry, hl.trans he, { hr with noted := hnoted.trans hr.noted }⟩
  | unknown => exact hl.trans h
  | gone => exact fun entry he => h entry (hl.symm.trans he)
  | _ => simpa only [Logged, hl, hnoted] using h

/-- A step of a tracked order that the log does not see. -/
private theorem Logs.unseen {stage stage' : Stage} {r r' : Record} {entry : OpenOrder}
    (h : Logs cfg orderId t stage r entry) (hn : notedStatus orderId (t ++ [o]) = some r'.status)
    (hi : r'.intent = r.intent)
    (hroom : stage' ≠ .idle → r'.order.status.isTerminal = false → toInt r'.order.filledQty < r'.intent.quantity)
    (ha : ∀ s, Agrees r s entry.filled stage → Agrees r' s entry.filled stage') :
    Logs cfg orderId (t ++ [o]) stage' r' entry := by
  obtain ⟨s, hs, hag⟩ := h.agrees
  refine ⟨hi ▸ h.placeable, hi ▸ h.quantity, hi ▸ h.symbol, hi ▸ h.side, hn, hroom, s, hs, ha s hag⟩

private theorem Logs.cancel {stage : Stage} {r : Record} {entry : OpenOrder} (h : Logs cfg orderId t stage r entry) :
    Logs cfg orderId (t ++ [Obs.cancelled orderId]) stage r.cancel entry := by
  refine h.unseen ((notedStatus_same rfl).trans h.noted) rfl (fun _ ht => ?_) fun s hs => ?_
  · cases ht
  · cases stage with
    | idle => exact hs
    | refreshed => exact ⟨hs.1, hs.2.1, hs.2.2.1, .inl rfl⟩
    | noted => exact ⟨hs.1, .inr rfl, hs.2.2⟩
    | rejected => exact hs
    | _ =>
      refine ⟨.inr rfl, hs.2.imp (fun h => ⟨h.1, rfl⟩) fun h => ⟨h.1, h.2.1, ?_⟩⟩
      intro hc
      cases hc

private theorem Logs.refresh {r : Record} {entry : OpenOrder} {report : Report}
    (h : Logs cfg orderId t .idle r entry) (ht : Tallies orderId t .idle r)
    (hrec : recoverable t (.status orderId report) = true) (hfirst : carried orderId t = 0) :
    Logs cfg orderId (t ++ [Obs.status orderId report]) .refreshed (r.refresh report) entry := by
  have hfill := ht.filled
  simp only [Stage.pending, Int.add_zero] at hfill
  simp only [recoverable, Bool.or_eq_true, Bool.and_eq_true, decide_eq_true_eq, h.noted, Option.some.injEq,
    ordered_of_intent ht.intent] at hrec
  refine h.unseen ((notedStatus_same rfl).trans h.noted) rfl (fun _ hterm => ?_) ?_
  · have hst : report.status.isTerminal = false := hterm
    rw [hst] at hrec
    exact (hrec.resolve_left Bool.false_ne_true).1
  · rintro s ⟨hs, hf, -, hc⟩
    refine ⟨hs, hf, hc, hrec.imp id fun h => h.2.imp Eq.symm fun hq => ?_⟩
    have hq' : toInt report.filledQty ≤ emitted orderId t := hq
    simp only [Record.refresh_order, Record.refresh_filled, Report.apply]
    omega

/-- The update event of a status that stays open changes nothing but the status. -/
private theorem Logs.update {r : Record} {entry : OpenOrder} {stamp : Stamp} {e : OrderUpdated}
    (h : Logs cfg orderId t .noted r entry) (hq : e.filledQty = toInt r.order.filledQty)
    (hs : e.status = r.status.value) :
    Logs cfg orderId (t ++ [Obs.event ⟨stamp, .updated e⟩]) .checked r (entry.update e) := by
  obtain ⟨s, -, hf, hst, hnew⟩ := h.agrees
  refine ⟨h.placeable, h.quantity, h.symbol, h.side, (notedStatus_same rfl).trans h.noted,
    fun _ => h.room (by simp), r.status, hs, hst, ?_⟩
  cases hterm : r.status.isTerminal with
  | true =>
    refine .inl ⟨rfl, ?_⟩
    rcases hst with hst | hst
    · rw [hst, hterm]
    · rw [hst]
      rfl
  | false =>
    have hle := hnew.resolve_left (by simp [hterm])
    refine .inr ⟨rfl, ?_, ?_⟩
    · have hnl : ¬ r.filled < toInt r.order.filledQty := by omega
      simp only [OpenOrder.update, hq, hf, if_neg hnl, Int.add_zero]
    · rintro hc
      rcases hst with hst | hst
      · rw [← hst, hc] at hterm
        cases hterm
      · rw [hc] at hst
        cases hst

private theorem Late.nonterminal {r : Record} {s : OrderStatus} {filled pending : Int} (h : Late r s filled pending)
    (ht : r.order.status.isTerminal = false) :
    r.order.status = r.status ∧ s.isTerminal = false ∧ filled = r.filled + pending := by
  obtain ⟨hst, hl⟩ := h
  refine ⟨hst.resolve_right fun hc => ?_, ?_⟩
  · rw [hc] at ht
    cases ht
  · rcases hl with ⟨-, hr⟩ | ⟨hs, hf, -⟩
    · rw [hr] at ht
      cases ht
    · exact ⟨hs, hf⟩

/-- A poll that has nothing more to fill has its change of status in the log. -/
private theorem Logs.late {stage : Stage} {r : Record} {entry : OpenOrder} (h : Logs cfg orderId t stage r entry)
    (hc : stage.closing cfg orderId r) : ∃ s : OrderStatus, entry.status = s.value ∧ Late r s entry.filled 0 := by
  obtain ⟨s, hs, ha⟩ := h.agrees
  refine ⟨s, hs, ?_⟩
  rcases hc with rfl | ⟨rfl, -⟩ <;> exact ha

private theorem Logs.closed {stage : Stage} {r : Record} {entry : OpenOrder} (h : Logs cfg orderId t stage r entry)
    (hc : stage.closing cfg orderId r) (hend : r.order.status = .completed ∨ r.intent.quantity ≤ r.filled) :
    entry.isOpen = false := by
  obtain ⟨s, hs, -, ⟨hterm, -⟩ | ⟨-, hf, hne⟩⟩ := h.late hc
  · exact isOpen_of_terminal hs hterm
  · refine isOpen_of_full ?_
    rw [h.quantity, hf]
    have := hend.resolve_left hne
    omega

private theorem Logs.keep {stage : Stage} {r : Record} {entry : OpenOrder} (h : Logs cfg orderId t stage r entry)
    (hb : Tallies orderId t stage r) (hc : stage.closing cfg orderId r) (ht : r.order.status.isTerminal = false) :
    Logs cfg orderId (t ++ [Obs.kept orderId]) .idle r entry := by
  obtain ⟨s, hs, hlate⟩ := h.late hc
  obtain ⟨hst, hsn, hf⟩ := hlate.nonterminal ht
  have hroom := h.room hc.ne.1 ht
  have hle := hb.le
  rw [hb.reported_eq hc.ne.1, hc.pending_eq] at hle
  refine ⟨h.placeable, h.quantity, h.symbol, h.side, (notedStatus_same rfl).trans h.noted, fun hs => absurd rfl hs,
    s, hs, hsn, by omega, by omega, ?_⟩
  rintro hcomp
  rw [hst, hcomp] at ht
  cases ht

private theorem entryStep_filled {entry : OpenOrder} {fill : OrderFilled} (hid : fill.orderId = orderId) :
    entryStep orderId (some entry) (.filled fill) = some (entry.fill fill.quantity) := if_pos hid

private theorem Logs.fill {r : Record} {entry : OpenOrder} {stamp : Stamp} {fill : OrderFilled}
    (h : Logs cfg orderId t .checked r entry) :
    Logs cfg orderId (t ++ [Obs.event ⟨stamp, .filled fill⟩]) (.filled fill.quantity) r (entry.fill fill.quantity) := by
  obtain ⟨s, hs, hst, hl⟩ := h.agrees
  refine ⟨h.placeable, h.quantity, h.symbol, h.side, (notedStatus_same rfl).trans h.noted,
    fun _ => h.room (by simp), s, hs, hst, hl.imp id fun h => ⟨h.1, ?_, h.2.2⟩⟩
  have hf := h.2.1
  simp only [OpenOrder.fill]
  omega

/-- A tracked order goes on with its entry as it is. -/
private theorem logged_tracked {stage stage' : Stage} {r r' : Record} (h : Logged cfg orderId t (.tracked stage r))
    (hl : entryOf orderId (t ++ [o]) = entryOf orderId t)
    (hs : ∀ entry, Logs cfg orderId t stage r entry → Logs cfg orderId (t ++ [o]) stage' r' entry) :
    Logged cfg orderId (t ++ [o]) (.tracked stage' r') := by
  obtain ⟨entry, he, hr⟩ := h
  exact ⟨entry, hl.trans he, hs entry hr⟩

/-- A tracked order is dropped with its entry closed. -/
private theorem logged_gone {stage : Stage} {r : Record} (h : Logged cfg orderId t (.tracked stage r))
    (hl : entryOf orderId (t ++ [o]) = entryOf orderId t)
    (hs : ∀ entry, Logs cfg orderId t stage r entry → entry.isOpen = false) : Logged cfg orderId (t ++ [o]) .gone := by
  obtain ⟨entry, he, hr⟩ := h
  intro entry' he'
  rw [hl, he] at he'
  exact (Option.some.inj he') ▸ hs entry hr

/-- One move keeps the log and the tracker in agreement. -/
private theorem logged_move {l l' : Life} (hm : Move cfg orderId l o l') (hb : Books orderId t l)
    (h : Logged cfg orderId t l) (hrec : recoverable t o = true) (hfirst : carried orderId t = 0)
    (hnr : ∀ j r, o ≠ .restored j r) : Logged cfg orderId (t ++ [o]) l' := by
  cases hm with
  | place cause answer intent order hp =>
    have hrec' : 0 < intent.quantity ∧ (order.isFilled = false ∨
        intent.quantity ≤ toInt order.filledQty ∧ 0 < fillPrice intent order.avgPrice) := by
      simpa [recoverable] using hrec
    refine ⟨(entryOf_same rfl).trans h, hp, hrec'.1, by simp [notedStatus, notes], fun hf => ?_⟩
    exact hrec'.2.resolve_left (by simp [hf])
  | refuse stamp e he hn =>
    have hun : entryOf orderId t = none := h
    refine (entryOf_event _).trans ?_
    simp [entryStep, hun]
  | accept intent order stamp =>
    obtain ⟨-, hp, hq, hn, hf⟩ := h
    exact ⟨(entryOf_event _).trans (if_pos rfl), hp, hq, (notedStatus_same rfl).trans hn, hf⟩
  | fillAtOnce intent order stamp fill hf hfill =>
    obtain ⟨he, -, -, -, hfull⟩ := h
    obtain ⟨hid, -, -, hq, -⟩ := fillOf_eq_some hfill
    intro entry hentry
    rw [entryOf_event, he, entryStep_filled hid] at hentry
    obtain rfl := Option.some.inj hentry
    refine isOpen_of_full ?_
    have hle := (hfull hf).1
    simp only [OpenOrder.fill, OpenOrder.ofAccepted, acceptance]
    omega
  | track intent order now hf =>
    obtain ⟨he, hp, hq, hn, -⟩ := h
    refine ⟨_, (entryOf_same rfl).trans he, hp, rfl, rfl, rfl, (notedStatus_same rfl).trans hn,
      fun hs => absurd rfl hs, .pending, rfl, rfl, rfl, hq, ?_⟩
    have hne : order.status ≠ .completed := by simpa [Order.isFilled] using hf
    exact hne
  | adopt l r hl hr => cases hrec
  | evict r => cases hrec
  | restore l r hl hr => exact absurd rfl (hnr orderId r)
  | refresh r report =>
    exact logged_tracked h (entryOf_same rfl) fun entry hr => hr.refresh hb hrec hfirst
  | touch r status =>
    refine logged_tracked h (entryOf_same rfl) fun entry hr => ?_
    exact hr.unseen ((notedStatus_same rfl).trans hr.noted) rfl (fun hs => absurd rfl hs) fun _ ha => ha
  | miss r =>
    refine logged_tracked h (entryOf_same rfl) fun entry hr => ?_
    exact hr.unseen ((notedStatus_same rfl).trans hr.noted) rfl (fun hs => absurd rfl hs) fun _ ha => ha
  | cancel stage r =>
    exact logged_tracked h (entryOf_same rfl) fun entry hr => hr.cancel
  | timeout r stamp e he =>
    exact logged_silent (l := .tracked .refreshed r) ((entryOf_event _).trans rfl) rfl h
  | note r hs =>
    refine logged_tracked h (entryOf_same rfl) fun entry hr => ?_
    refine hr.unseen (by simp [notedStatus, notes, Record.note]) rfl (fun _ => hr.room (by simp)) ?_
    rintro s ⟨-, hf, -, hnew⟩
    exact ⟨hf, .inl rfl, hnew.imp id fun h => h.resolve_left hs⟩
  | update r stamp e he hq hs =>
    obtain ⟨entry, hentry, hr⟩ := h
    refine ⟨entry.update e, (entryOf_event _).trans ?_, hr.update hq hs⟩
    simp [entryStep, he, hentry]
  | steady r hs =>
    refine logged_tracked h (entryOf_same rfl) fun entry hr => ?_
    refine hr.unseen ((notedStatus_same rfl).trans hr.noted) rfl (fun _ => hr.room (by simp)) ?_
    rintro s ⟨hst, hf, hc, -⟩
    exact ⟨.inl hs, .inr ⟨hst, by omega, hs ▸ hc⟩⟩
  | fill r stamp fill hf =>
    obtain ⟨entry, he, hr⟩ := h
    refine ⟨entry.fill fill.quantity, (entryOf_event _).trans ?_, hr.fill⟩
    rw [he]
    exact entryStep_filled (fillOf_eq_some hf).1
  | book r n =>
    refine logged_tracked h (entryOf_same rfl) fun entry hr => ?_
    refine hr.unseen ((notedStatus_same rfl).trans hr.noted) rfl (fun _ => hr.room (by simp)) ?_
    rintro s ⟨hst, hl⟩
    refine ⟨hst, hl.imp id fun h => ⟨h.1, ?_, h.2.2⟩⟩
    have hf := h.2.1
    simp only [Record.book_filled]
    omega
  | keep stage r hc ht =>
    exact logged_tracked h (entryOf_same rfl) fun entry hr => hr.keep hb hc ht
  | complete stage r hc hs =>
    exact logged_gone h (entryOf_same rfl) fun entry hr => hr.closed hc (.inl hs)
  | closeFull stage r hc hs hq =>
    exact logged_gone h (entryOf_same rfl) fun entry hr => hr.closed hc (.inr hq)
  | reject stage r stamp e hc hs he hq hp hr =>
    obtain ⟨entry, hentry, hr⟩ := h
    refine ⟨entry.reject, (entryOf_event _).trans ?_, hr.placeable, hr.quantity, hr.symbol, hr.side,
      (notedStatus_same rfl).trans hr.noted, fun _ => hr.room hc.ne.1, .rejected, rfl, rfl⟩
    simp [entryStep, he, hentry]
  | close r status hs hr =>
    refine logged_gone h (entryOf_same rfl) fun entry hr => ?_
    obtain ⟨s, hs, hterm⟩ := hr.agrees
    exact isOpen_of_terminal hs hterm
  | ask r => exact logged_silent (l := .tracked .idle r) (entryOf_same rfl) rfl h
  | execute l n price => exact logged_silent (entryOf_same rfl) rfl h
  | cancelTake l => exact logged_silent (entryOf_same rfl) rfl h

private theorem life_logged {l : Life} (hl : (life cfg orderId).Accepts t l) (hnr : ∀ j r, Obs.restored j r ∉ t)
    (hmono : Trace.Always monotone t) (hbook : Trace.Always unbooked t) (hrec : Trace.Always recoverable t) :
    Logged cfg orderId t l := by
  induction hl with
  | nil => exact rfl
  | @concat t l o l' ht ho ih =>
    obtain ⟨hmono, -⟩ := Trace.each_concat.mp hmono
    obtain ⟨hbook, -⟩ := Trace.each_concat.mp hbook
    obtain ⟨hrec, hr⟩ := Trace.each_concat.mp hrec
    have hnr' : ∀ j r, Obs.restored j r ∉ t := fun j r h => hnr j r (List.mem_append_left _ h)
    have hs := ih hnr' hmono hbook hrec
    rcases ho with ⟨_, hmove⟩ | ⟨hid, rfl⟩
    · exact logged_move hmove (life_books ht hmono hbook) hs hr (carried_eq_zero hnr') fun j r h => hnr j r (by simp [h])
    · exact logged_silent (entryOf_of_ne hid) (notes_of_ne hid) hs

private theorem unbooked_of_recoverable (hnr : ∀ j r, Obs.restored j r ∉ t) (hrec : Trace.Always recoverable t) :
    Trace.Always unbooked t := by
  rintro pre o suf rfl
  have hr := hrec pre o suf rfl
  cases o with
  | adopted id r => cases hr
  | restored id r => exact absurd (by simp) (hnr id r)
  | _ => rfl

/-- Between calls an order is listed exactly when it is tracked, with the shares booked. -/
private theorem listed_at_rest {l : Life} (h : Logged cfg orderId t l) (hb : Books orderId t l) (hrest : l.Resting)
    (hfirst : carried orderId t = 0) {entry : OpenOrder} (he : entryOf orderId t = some entry) :
    entry.isOpen = true → ∃ r, l.record = some r ∧ entry.filled = r.filled ∧ emitted orderId t = r.filled ∧
      cfg.Placeable r.intent ∧ entry.symbol = r.intent.symbol ∧ entry.side = r.intent.side ∧
      ∃ s : OrderStatus, entry.status = s.value := by
  intro ho
  cases l with
  | unknown =>
    have hn : entryOf orderId t = none := h
    rw [hn] at he
    cases he
  | accepting intent order => exact hrest.elim
  | accepted intent order =>
    obtain ⟨hf, hnone⟩ := hrest
    obtain ⟨-, -, hq, -, hfull⟩ := h
    obtain ⟨hle, hp⟩ := hfull hf
    rcases hnone with hn | hn
    · omega
    · exact absurd hp (not_lt.mpr hn)
  | tracked stage r =>
    obtain rfl : stage = .idle := hrest
    obtain ⟨entry', he', hl⟩ := h
    obtain rfl : entry = entry' := Option.some.inj (he.symm.trans he')
    obtain ⟨s, hs, -, hf, -⟩ := hl.agrees
    have hfill := Tallies.filled hb
    simp only [Stage.pending, Int.add_zero] at hfill
    exact ⟨r, rfl, hf, by omega, hl.placeable, hl.symbol, hl.side, s, hs⟩
  | gone =>
    rw [h entry he] at ho
    cases ho

private theorem tracked_listed {l : Life} (h : Logged cfg orderId t l) (hrest : l.Resting) {r : Record}
    (hr : l.record = some r) : ∃ entry, entryOf orderId t = some entry ∧ entry.isOpen = true := by
  cases l with
  | tracked stage r' =>
    obtain rfl : stage = .idle := hrest
    obtain ⟨entry, he, hl⟩ := h
    obtain ⟨s, hs, hterm, hf, hlt, -⟩ := hl.agrees
    refine ⟨entry, he, isOpen_of_nonterminal hs hterm ?_⟩
    rw [hf, hl.quantity]
    exact hlt
  | _ => cases hr

section Restore

theorem rehydrate_ok {delta : Delta} {side : OrderSide} {status : OrderStatus}
    (hside : OrderSide.ofValue delta.side.toUpper = .ok side) (hstatus : delta.status = status.value) :
    ∃ r, rehydrate orderId delta = .ok r ∧ r.filled = delta.filled := by
  cases h : rehydrate orderId delta with
  | error e => simp [rehydrate, hside, hstatus, bind, Except.bind, pure, Except.pure] at h
  | ok r =>
    simp only [rehydrate, hside, hstatus, OrderStatus.ofValue_value, bind, Except.bind, pure, Except.pure,
      Except.ok.injEq] at h
    exact ⟨r, rfl, h ▸ rfl⟩

/-- What restoring a list of deltas leaves in the trace. -/
private theorem restoreOpen_spec (deltas : List (String × Delta)) (hn : (deltas.map Prod.fst).Nodup)
    (hall : ∀ d ∈ deltas, cfg.instrument d.2.symbol ≠ none ∧ ∃ r, rehydrate d.1 d.2 = .ok r ∧ r.filled = d.2.filled)
    (w : World) (hfresh : ∀ d ∈ deltas, d.1 ∉ w.exec.openOrders.keys) :
    ∃ new, (restoreOpen cfg deltas w).2.trace = w.trace ++ new ∧
      (∀ o ∈ new, ∃ j r, o = .restored j r ∧ j ∈ deltas.map Prod.fst) ∧
      ∀ id d, (id, d) ∈ deltas → Trace.last (Obs.carriedFor id) new = some d.filled := by
  induction deltas generalizing w with
  | nil => exact ⟨[], by simp [restoreOpen], by simp, by simp⟩
  | cons d deltas ih =>
    obtain ⟨orderId, delta⟩ := d
    rw [List.map_cons, List.nodup_cons] at hn
    obtain ⟨hinst, r, hr, hfilled⟩ := hall _ List.mem_cons_self
    have hnot : ¬ (orderId ∈ w.exec.openOrders.keys ∨ cfg.instrument delta.symbol = none) := by
      rintro (h | h)
      · exact hfresh _ List.mem_cons_self h
      · exact hinst h
    have hfresh' : ∀ d ∈ deltas, d.1 ∉ (w.exec.openOrders.set orderId r).keys := by
      intro d hd hk
      rcases (Dict.mem_keys_set _ _ _ _).mp hk with hk | hk
      · exact hn.1 (List.mem_map.mpr ⟨d, hd, hk⟩)
      · exact hfresh d (List.mem_cons_of_mem _ hd) hk
    obtain ⟨new, ht, hres, hmem⟩ := ih hn.2 (fun d hd => hall d (List.mem_cons_of_mem _ hd))
      { w.put orderId r (.restored orderId r) with
        exec := { (w.put orderId r (.restored orderId r)).exec with seq := bumpSeq w.exec.seq orderId } } hfresh'
    refine ⟨.restored orderId r :: new, ?_, ?_, ?_⟩
    · rw [restoreOpen, if_neg hnot, hr]
      simpa [World.put, World.log, World.setOpen] using ht
    · intro o ho
      rcases List.mem_cons.mp ho with rfl | ho
      · exact ⟨orderId, r, rfl, by simp⟩
      · obtain ⟨j, r', rfl, hj⟩ := hres o ho
        exact ⟨j, r', rfl, List.mem_cons_of_mem _ hj⟩
    · intro id d hd
      rw [show Obs.restored orderId r :: new = [.restored orderId r] ++ new from rfl, Trace.last_append]
      rcases List.mem_cons.mp hd with hd | hd
      · obtain ⟨rfl, rfl⟩ := Prod.mk.inj hd
        have hnone : Trace.last (Obs.carriedFor id) new = none := by
          refine Trace.last_eq_none fun o ho => ?_
          obtain ⟨j, r', rfl, hj⟩ := hres o ho
          exact if_neg fun he : j = id => hn.1 (he ▸ hj)
        rw [hnone, Option.none_or]
        simp [Trace.last, Obs.carriedFor, hfilled]
      · rw [hmem id d hd, Option.some_or]

end Restore

private def Due (orderId : String) (t : List Obs) : Life → Prop
  | .tracked stage r => stage ≠ .idle →
    r.filled + stage.pending = reported orderId t ∨ 0 < fillPrice r.intent r.order.avgPrice
  | _ => True

private theorem due_silent (hrep : o.reportFor orderId = none) {l : Life} (h : Due orderId t l) :
    Due orderId (t ++ [o]) l := by
  cases l with
  | tracked stage r =>
    intro hs
    rw [reported_same hrep]
    exact h hs
  | _ => trivial

private theorem due_step {stage stage' : Stage} {r r' : Record} (h : Due orderId t (.tracked stage r))
    (hb : Tallies orderId (t ++ [o]) stage' r') (hrep : o.reportFor orderId = none) (hs : stage ≠ .idle)
    (hi : r'.intent = r.intent) (ha : r'.order.avgPrice = r.order.avgPrice)
    (hf : r.filled + stage.pending ≤ r'.filled + stage'.pending) : Due orderId (t ++ [o]) (.tracked stage' r') := by
  intro _
  have hle := hb.le
  rw [reported_same hrep] at hle ⊢
  rw [hi, ha]
  exact (h hs).imp (fun h => by omega) id

private theorem due_move {l l' : Life} (hm : Move cfg orderId l o l') (hb : Books orderId t l)
    (hb' : Books orderId (t ++ [o]) l') (h : Due orderId t l) (hmono : monotone t o = true)
    (hfill : fillableReport t o = true) : Due orderId (t ++ [o]) l' := by
  cases hm with
  | refresh r report =>
    intro _
    rw [reported_status]
    simpa [Report.apply] using Tallies.due_of_fillable hb hmono hfill
  | cancel stage r => exact due_silent (l := .tracked stage r) rfl h
  | timeout r stamp e he => exact due_silent (l := .tracked .refreshed r) rfl h
  | note r hs => exact due_step h hb' rfl (by simp) rfl rfl (by simp)
  | update r stamp e he hq hs => exact due_step h hb' rfl (by simp) rfl rfl (by simp)
  | steady r hs => exact due_step h hb' rfl (by simp) rfl rfl (by simp)
  | fill r stamp fill hf =>
    have hpos := (fillOf_eq_some hf).2.2.1
    exact due_step h hb' rfl (by simp) rfl rfl (by simp; omega)
  | book r n => exact due_step h hb' rfl (by simp) rfl rfl (by simp)
  | reject stage r stamp e hc hs he hq hp hr =>
    exact due_step h hb' rfl hc.ne.1 rfl rfl (by rw [hc.pending_eq]; rfl)
  | execute l n price => exact due_silent rfl h
  | cancelTake l => exact due_silent rfl h
  | _ => first | trivial | exact fun hs => absurd rfl hs

/-- A poll of an order ends with everything emitted that was reported. -/
private theorem pollEnd_move {l l' : Life} (hm : Move cfg orderId l o l') (hb : Books orderId t l)
    (h : Due orderId t l) (ho : pollEnd orderId o = true) :
    carried orderId t + emitted orderId t = reported orderId t := by
  have hclose : ∀ {stage r}, l = .tracked stage r → stage.closing cfg orderId r →
      carried orderId t + emitted orderId t = reported orderId t := by
    rintro stage r rfl hc
    have ht : Tallies orderId t stage r := hb
    exact (ht.filled_eq hc.pending_eq (h hc.ne.1) (ht.of_closing hc)).2
  cases hm with
  | keep stage r hc ht => exact hclose rfl hc
  | complete stage r hc hs => exact hclose rfl hc
  | closeFull stage r hc hs hq => exact hclose rfl hc
  | close r status hs hr =>
    have ht : Tallies orderId t .rejected r := hb
    exact (ht.filled_eq rfl (h (by simp)) (ht.rest rfl)).2
  | _ => cases ho

private theorem pollEnd_of_ne (h : o.orderId ≠ some orderId) : pollEnd orderId o = false := by
  cases o with
  | kept id => exact decide_eq_false fun he => h (congrArg some he)
  | popped id status => exact decide_eq_false fun he => h (congrArg some he)
  | _ => rfl

private theorem life_due {l : Life} (hl : (life cfg orderId).Accepts t l) (hmono : Trace.Always monotone t)
    (hbook : Trace.Always unbooked t) (hfill : Trace.Always fillableReport t) :
    Due orderId t l ∧ Trace.Each (fun pre o => pollEnd orderId o = true →
      carried orderId pre + emitted orderId pre = reported orderId pre) t := by
  induction hl with
  | nil => exact ⟨trivial, .nil _⟩
  | @concat t l o l' ht ho ih =>
    obtain ⟨hmono, hm⟩ := Trace.each_concat.mp hmono
    obtain ⟨hbook, hbk⟩ := Trace.each_concat.mp hbook
    obtain ⟨hfill, hf⟩ := Trace.each_concat.mp hfill
    obtain ⟨hs, he⟩ := ih hmono hbook hfill
    have hb := life_books ht hmono hbook
    rcases ho with ⟨_, hmove⟩ | ⟨hid, rfl⟩
    · exact ⟨due_move hmove hb (hmove.books hb hm hbk) hs hm hf,
        Trace.each_concat.mpr ⟨he, pollEnd_move hmove hb hs⟩⟩
    · refine ⟨due_silent (Obs.Silent.of_ne hid).report hs, Trace.each_concat.mpr ⟨he, fun ho => ?_⟩⟩
      rw [pollEnd_of_ne hid] at ho
      cases ho

private theorem carried_append {new : List Obs} (hnew : ∀ o ∈ new, ∀ j r, o ≠ .restored j r) :
    carried orderId (t ++ new) = carried orderId t := by
  have hnone : Trace.last (Obs.carriedFor orderId) new = none := by
    refine Trace.last_eq_none fun o ho => ?_
    cases o with
    | restored j r => exact absurd rfl (hnew _ ho j r)
    | _ => rfl
  rw [carried, Trace.last_append, hnone, Option.none_or, carried]

/-- A poll ends after the recovery. -/
private theorem split_after_restored {restored new pre suf : List Obs} {keys : List String}
    (hres : ∀ o ∈ restored, ∃ j r, o = .restored j r ∧ j ∈ keys) (h : restored ++ new = pre ++ o :: suf)
    (ho : pollEnd orderId o = true) : ∃ new', pre = restored ++ new' ∧ new' ⊆ new := by
  rcases List.append_eq_append_iff.mp h with ⟨new', rfl, rfl⟩ | ⟨rest, rfl, hrest⟩
  · exact ⟨new', rfl, List.subset_append_left _ _⟩
  · cases rest with
    | nil => exact ⟨[], by simp, List.nil_subset _⟩
    | cons a rest =>
      obtain ⟨j, r, rfl, -⟩ := hres a (by simp)
      obtain ⟨rfl, -⟩ := List.cons.inj hrest
      cases ho

/-- A crashed session at rest: every listed order is tracked, with the shares booked so far,
and can be restored. -/
private structure Restorable (cfg : Config) (w : World) (orderId : String) (d : Delta) : Prop where
  named : orderId ≠ ""
  tracked : ∃ r, w.record orderId = some r ∧ d.filled = r.filled
  emitted : emitted orderId w.trace = d.filled
  instrument : cfg.instrument d.symbol ≠ none
  rehydrates : ∃ r, rehydrate orderId d = .ok r ∧ r.filled = d.filled

private theorem restorable {w : World} (hw : Sound cfg w) (hnr : ∀ j r, Obs.restored j r ∉ w.trace)
    (hmono : Trace.Always monotone w.trace) (hrec : Trace.Always recoverable w.trace) {d : Delta}
    (hd : (orderId, d) ∈ openOrderDeltas (log w.trace)) : Restorable cfg w orderId d := by
  obtain ⟨entry, he, hopen, rfl⟩ := mem_openOrderDeltas.mp hd
  obtain ⟨l, hl, hrest⟩ := hw.lives orderId
  have hbook := unbooked_of_recoverable hnr hrec
  have hlog := life_logged hl.1 hnr hmono hbook hrec
  obtain ⟨r, hr, hf, hem, ⟨hinst, side, hside⟩, hsym, hsid, s, hs⟩ :=
    listed_at_rest hlog (life_books hl.1 hmono hbook) hrest (carried_eq_zero hnr) he hopen
  refine ⟨?_, ⟨r, hl.2.trans hr, hf⟩, hem.trans hf.symm, ?_, rehydrate_ok (hsid ▸ hside) hs⟩
  · rintro rfl
    obtain rfl := unknown_of_not_opened hl.1 hw.ids.named
    cases hr
  · intro hn
    refine hinst ?_
    rw [Config.brokerBacked, show cfg.instrument r.intent.symbol = none from hsym ▸ hn]
    rfl

/-- Recovery of a session whose reports meet the conditions: the log lists exactly the
tracked orders, with their filled counters; and in a later session each poll that is done
with a recovered order has brought the fills of both up to the broker's. -/
theorem recovery_exact (steps : List Step) (hV : VenueIds (run cfg steps {}).trace)
    (hmono : Trace.Always monotone (run cfg steps {}).trace)
    (hrec : Trace.Always recoverable (run cfg steps {}).trace) :
    let w := run cfg steps {}
    let deltas := openOrderDeltas (log w.trace)
    (∀ id, (∃ d, (id, d) ∈ deltas) ↔ id ∈ w.exec.openOrders.keys) ∧
      (∀ id d, (id, d) ∈ deltas → ∃ r, w.record id = some r ∧ d.filled = r.filled) ∧
      ∀ steps', let t := (run cfg steps' (recover cfg w)).trace
        VenueIds t → Trace.Always monotone t → Trace.Always unbooked t → Trace.Always fillableReport t →
          ∀ id d, (id, d) ∈ deltas → Trace.Always (caughtUp id (emitted id w.trace)) t := by
  have hnr : ∀ j r, Obs.restored j r ∉ (run cfg steps {}).trace := run_not_restored steps
  have hw : Sound cfg (run cfg steps {}) := (run_sounds steps {}).2 hV sound_init
  intro w deltas
  have hall : ∀ id d, (id, d) ∈ deltas → Restorable cfg w id d := fun id d hd => restorable hw hnr hmono hrec hd
  refine ⟨fun id => ⟨?_, fun hk => ?_⟩, fun id d hd => (hall id d hd).tracked, ?_⟩
  · rintro ⟨d, hd⟩
    obtain ⟨r, hr, -⟩ := (hall id d hd).tracked
    exact (Dict.mem_keys_iff _ _).mpr ⟨r, hr⟩
  · obtain ⟨r, hr⟩ := (Dict.mem_keys_iff _ _).mp hk
    obtain ⟨l, hl, hrest⟩ := hw.lives id
    have hlog := life_logged hl.1 hnr hmono (unbooked_of_recoverable hnr hrec) hrec
    obtain ⟨entry, he, hopen⟩ := tracked_listed hlog hrest (hl.2.symm.trans hr)
    exact ⟨_, mem_openOrderDeltas.mpr ⟨entry, he, hopen, rfl⟩⟩
  · intro steps' t hV' hmono' hbook' hfill' id d hd pre o suf hsplit
    obtain ⟨restored, hres, honly, hcarried⟩ := restoreOpen_spec deltas (openOrderDeltas_nodup _)
      (fun d hd => ⟨(hall d.1 d.2 hd).instrument, (hall d.1 d.2 hd).rehydrates⟩) {} fun _ _ h => by cases h
    obtain ⟨new, hnew, hfresh⟩ : Adds (recover cfg w) (run cfg steps' (recover cfg w)) :=
      (run_sounds steps' (recover cfg w)).1
    have hsound := (run_sounds steps' (recover cfg w)).2 hV'
      (restoreOpen_sound deltas (fun d hd => (hall d.1 d.2 hd).named) {} sound_init)
    cases ho : pollEnd id o with
    | false => simp [caughtUp, ho]
    | true =>
      obtain ⟨l, hl, -⟩ := hsound.lives id
      have hdue := (life_due hl.1 hmono' hbook' hfill').2 pre o suf hsplit ho
      have hcar : carried id pre = d.filled := by
        have ht : restored ++ new = pre ++ o :: suf := by
          have ht : t = ({} : World).trace ++ restored ++ new := hnew.trans (congrArg (· ++ new) hres)
          rw [← hsplit, ht]
          rfl
        obtain ⟨new', rfl, hsub⟩ := split_after_restored honly ht ho
        rw [carried_append fun o ho => hfresh o (hsub ho), carried, hcarried id d hd, Option.getD_some]
      have hem := (hall id d hd).emitted
      simp only [caughtUp, ho, Bool.not_true, Bool.false_or, decide_eq_true_eq]
      omega

/-- A session that fills four shares of ten and crashes, and one that sees the order
complete: the log counts the four shares twice, and four are never emitted. -/
theorem update_then_fill_counts_twice :
    let w := run oneStock [.submit marketBuy none (.placed (some "V1") ⟨.pending, some 0, some 0⟩) 0 [] [],
      .poll fun _ => { refresh := .ok ⟨.partiallyFilled, some 4, some 100⟩ }] {}
    let t := (run oneStock [.poll fun _ => { refresh := .ok ⟨.completed, some 10, some 100⟩ }]
      (recover oneStock w)).trace
    (VenueIds w.trace ∧ Trace.Always monotone w.trace ∧ Trace.Always fillableReport w.trace) ∧
      (VenueIds t ∧ Trace.Always monotone t ∧ Trace.Always fillableReport t) ∧
      (openOrderDeltas (log w.trace)).map (fun d => (d.1, d.2.filled)) = [("V1", 8)] ∧
      (w.record "V1").map Record.filled = some 4 ∧
      emitted "V1" w.trace + emitted "V1" t = 6 ∧ reported "V1" t = 10 := by
  decide +kernel

/-- A partial fill that leaves the status as it is, a crash, and the rest. -/
theorem recovery_exact_of_steady_fill :
    let w := run oneStock [.submit marketBuy none (.placed (some "V1") ⟨.pending, some 0, some 0⟩) 0 [] [],
      .poll fun _ => { refresh := .ok ⟨.pending, some 4, some 100⟩ }] {}
    Trace.Always (caughtUp "V1" (emitted "V1" w.trace))
      (run oneStock [.poll fun _ => { refresh := .ok ⟨.completed, some 10, some 100⟩ }] (recover oneStock w)).trace := by
  intro w
  have hV : VenueIds w.trace := by decide +kernel
  have hmono : Trace.Always monotone w.trace := by decide +kernel
  have hrec : Trace.Always recoverable w.trace := by decide +kernel
  obtain ⟨hlisted, -, hlater⟩ := recovery_exact _ hV hmono hrec
  obtain ⟨d, hd⟩ := (hlisted "V1").mpr (by decide +kernel)
  exact hlater _ (by decide +kernel) (by decide +kernel) (by decide +kernel) (by decide +kernel) "V1" d hd

end NTrade.Storage
