import NTrade.Execution.Refinement

/-! What a trace says about one order: the shares the broker has reported, the shares and
the money of the fills emitted for it, and the shares rejected. -/
namespace NTrade.Execution
open NTrade.Domain NTrade.Events NTrade.Lib

def Obs.fillFor (orderId : String) : Obs → Option OrderFilled
  | .event e =>
    match e.body with
    | .filled fill => if fill.orderId = orderId then some fill else none
    | _ => none
  | _ => none

def Obs.rejectionFor (orderId : String) : Obs → Option OrderRejected
  | .event e =>
    match e.body with
    | .rejected e => if e.orderId = orderId then some e else none
    | _ => none
  | _ => none

def Obs.reportFor (orderId : String) : Obs → Option Report
  | .placed _ _ id _ order => if id = orderId then some ⟨order.status, order.filledQty, order.avgPrice⟩ else none
  | .status id report => if id = orderId then some report else none
  | .restored id r => if id = orderId then some ⟨r.order.status, r.order.filledQty, r.order.avgPrice⟩ else none
  | _ => none

def Obs.intentFor (orderId : String) : Obs → Option OrderIntent
  | .placed _ _ id intent _ => if id = orderId then some intent else none
  | .adopted id r => if id = orderId then some r.intent else none
  | .restored id r => if id = orderId then some r.intent else none
  | _ => none

def Obs.carriedFor (orderId : String) : Obs → Option Int
  | .restored id r => if id = orderId then some r.filled else none
  | _ => none

def Obs.executionFor (orderId : String) : Obs → Option (Int × Rat)
  | .executed id quantity price => if id = orderId then some (quantity, price) else none
  | _ => none

variable (orderId : String) (t : List Obs)

def emitted : Int := Trace.total (fun o => ((o.fillFor orderId).map OrderFilled.quantity).getD 0) t

def notional : Rat := Trace.total (fun o => ((o.fillFor orderId).map OrderFilled.notional).getD 0) t

def rejected : Int := Trace.total (fun o => ((o.rejectionFor orderId).map OrderRejected.quantity).getD 0) t

def executed : Int := Trace.total (fun o => ((o.executionFor orderId).map Prod.fst).getD 0) t

def executedNotional : Rat := Trace.total (fun o => ((o.executionFor orderId).map fun e => (e.1 : Rat) * e.2).getD 0) t

def lastReport : Option Report := Trace.last (Obs.reportFor orderId) t

def reported : Int := ((lastReport orderId t).map fun report => toInt report.filledQty).getD 0

def intentOf : Option OrderIntent := Trace.last (Obs.intentFor orderId) t

def ordered : Int := ((intentOf orderId t).map OrderIntent.quantity).getD 0

def carried : Int := (Trace.last (Obs.carriedFor orderId) t).getD 0

variable {orderId t}

section Concat
variable {o : Obs}

theorem emitted_concat : emitted orderId (t ++ [o]) =
    emitted orderId t + ((o.fillFor orderId).map OrderFilled.quantity).getD 0 := Trace.total_concat _ t o

theorem notional_concat : notional orderId (t ++ [o]) =
    notional orderId t + ((o.fillFor orderId).map OrderFilled.notional).getD 0 :=
  Trace.total_concat _ t o

theorem rejected_concat : rejected orderId (t ++ [o]) =
    rejected orderId t + ((o.rejectionFor orderId).map OrderRejected.quantity).getD 0 := Trace.total_concat _ t o

theorem lastReport_concat : lastReport orderId (t ++ [o]) = (o.reportFor orderId).or (lastReport orderId t) :=
  Trace.last_concat _ t o

theorem intentOf_concat : intentOf orderId (t ++ [o]) = (o.intentFor orderId).or (intentOf orderId t) :=
  Trace.last_concat _ t o

theorem carried_concat : carried orderId (t ++ [o]) = (o.carriedFor orderId).getD (carried orderId t) := by
  cases h : o.carriedFor orderId <;> simp [carried, h]

theorem reported_same (h : o.reportFor orderId = none) : reported orderId (t ++ [o]) = reported orderId t := by
  simp [reported, lastReport_concat, h]

theorem executed_same (h : o.executionFor orderId = none) : executed orderId (t ++ [o]) = executed orderId t := by
  simp [executed, h]

theorem notional_same (h : o.fillFor orderId = none) : notional orderId (t ++ [o]) = notional orderId t := by
  simp [notional_concat, h]

theorem reported_status (orderId : String) (t : List Obs) (report : Report) :
    reported orderId (t ++ [Obs.status orderId report]) = toInt report.filledQty := by
  simp [reported, lastReport_concat, Obs.reportFor]

end Concat

theorem ordered_of_intent {intent : OrderIntent} (h : intentOf orderId t = some intent) :
    ordered orderId t = intent.quantity := by
  simp [ordered, h]

/-- The broker's fill progress goes forward. -/
def monotone (pre : List Obs) : Obs → Bool
  | .placed _ _ _ _ order => 0 ≤ toInt order.filledQty
  | .status orderId report => reported orderId pre ≤ toInt report.filledQty
  | _ => true

/-- An order that is taken up with an empty record has no shares booked. -/
def unbooked (pre : List Obs) : Obs → Bool
  | .adopted orderId _ => carried orderId pre + emitted orderId pre = 0
  | .restored orderId _ => emitted orderId pre = 0
  | _ => true

/-- A report brings no share that is not yet emitted, or a price to emit it at. -/
def fillable (orderId : String) (pre : List Obs) (report : Report) : Bool :=
  toInt report.filledQty ≤ carried orderId pre + emitted orderId pre ||
    0 < ((intentOf orderId pre).map fun intent => fillPrice intent report.avgPrice).getD 0

/-- A report tells the shares the venue has executed. -/
def sharesTold (pre : List Obs) : Obs → Bool
  | .status orderId report => toInt report.filledQty = executed orderId pre
  | _ => true

/-- A report tells the average price of the shares the venue has executed. -/
def moneyTold (pre : List Obs) : Obs → Bool
  | .status orderId report => executed orderId pre * toFloat report.avgPrice = executedNotional orderId pre
  | _ => true

/-- A fill that was published and is not yet in the record. -/
@[simp] def Stage.pending : Stage → Int
  | .filled n => n
  | .idle | .refreshed | .noted | .checked | .booked | .rejected => 0

@[simp] def Stage.emitted : Stage → Bool
  | .filled _ | .booked => true
  | .idle | .refreshed | .noted | .checked | .rejected => false

structure Tallies (orderId : String) (t : List Obs) (stage : Stage) (r : Record) : Prop where
  intent : intentOf orderId t = some r.intent
  filled : carried orderId t + emitted orderId t = r.filled + stage.pending
  le : r.filled + stage.pending ≤ reported orderId t
  report : stage ≠ .idle → ∃ status, lastReport orderId t = some ⟨status, r.order.filledQty, r.order.avgPrice⟩
  full : stage.emitted = true → r.filled + stage.pending = reported orderId t
  rest : stage = .rejected → r.filled = reported orderId t ∨ fillPrice r.intent r.order.avgPrice ≤ 0

def Books (orderId : String) (t : List Obs) : Life → Prop
  | .unknown => carried orderId t = 0 ∧ emitted orderId t = 0 ∧ reported orderId t = 0
  | .accepting intent order | .accepted intent order =>
    carried orderId t = 0 ∧ emitted orderId t = 0 ∧ 0 ≤ reported orderId t ∧
      reported orderId t = toInt order.filledQty ∧ intentOf orderId t = some intent
  | .tracked stage r => Tallies orderId t stage r
  | .gone => carried orderId t + emitted orderId t ≤ reported orderId t

theorem Tallies.reported_eq {stage : Stage} {r : Record} (h : Tallies orderId t stage r) (hs : stage ≠ .idle) :
    reported orderId t = toInt r.order.filledQty := by
  obtain ⟨status, hr⟩ := h.report hs
  simp [reported, hr]

theorem Books.le {l : Life} (h : Books orderId t l) : carried orderId t + emitted orderId t ≤ reported orderId t := by
  cases l with
  | unknown => obtain ⟨h1, h2, h3⟩ := h; omega
  | accepting intent order => obtain ⟨h1, h2, h3, -⟩ := h; omega
  | accepted intent order => obtain ⟨h1, h2, h3, -⟩ := h; omega
  | tracked stage r =>
    have hr : Tallies orderId t stage r := h
    exact hr.filled ▸ hr.le
  | gone => exact h

structure Obs.Silent (orderId : String) (o : Obs) : Prop where
  fill : o.fillFor orderId = none := by rfl
  report : o.reportFor orderId = none := by rfl
  intent : o.intentFor orderId = none := by rfl
  carry : o.carriedFor orderId = none := by rfl

theorem Obs.Silent.of_ne {o : Obs} (h : o.orderId ≠ some orderId) : o.Silent orderId := by
  have hne : ∀ {id : String}, o.orderId = some id → id ≠ orderId := by
    rintro id ho rfl
    exact h ho
  cases o with
  | event e =>
    refine ⟨?_, rfl, rfl, rfl⟩
    obtain ⟨stamp, body⟩ := e
    cases body with
    | filled fill => exact if_neg (hne rfl)
    | _ => rfl
  | placed => exact ⟨rfl, if_neg (hne rfl), if_neg (hne rfl), rfl⟩
  | status => exact ⟨rfl, if_neg (hne rfl), rfl, rfl⟩
  | adopted => exact ⟨rfl, rfl, if_neg (hne rfl), rfl⟩
  | restored => exact ⟨rfl, if_neg (hne rfl), if_neg (hne rfl), if_neg (hne rfl)⟩
  | _ => exact ⟨rfl, rfl, rfl, rfl⟩

private theorem measures_silent {o : Obs} (h : o.Silent orderId) :
    emitted orderId (t ++ [o]) = emitted orderId t ∧ lastReport orderId (t ++ [o]) = lastReport orderId t ∧
      intentOf orderId (t ++ [o]) = intentOf orderId t ∧ carried orderId (t ++ [o]) = carried orderId t := by
  refine ⟨?_, ?_, ?_, ?_⟩
  · simp [emitted_concat, h.fill]
  · simp [lastReport_concat, h.report]
  · simp [intentOf_concat, h.intent]
  · simp [carried_concat, h.carry]

private theorem reported_congr {t u : List Obs} (h : lastReport orderId u = lastReport orderId t) :
    reported orderId u = reported orderId t := by
  rw [reported, h, reported]

/-- Steps between records that agree on what the books read. -/
theorem Tallies.silent {o : Obs} {stage stage' : Stage} {r r' : Record} (h : Tallies orderId t stage r)
    (ho : o.Silent orderId) (hq : r'.intent = r.intent)
    (hf : r'.filled + stage'.pending = r.filled + stage.pending)
    (hr : stage' ≠ .idle → stage ≠ .idle ∧ r'.order.filledQty = r.order.filledQty ∧
      r'.order.avgPrice = r.order.avgPrice)
    (hfull : stage'.emitted = true → stage.emitted = true)
    (hrest : stage' = .rejected → r'.filled = reported orderId t ∨ fillPrice r'.intent r'.order.avgPrice ≤ 0) :
    Tallies orderId (t ++ [o]) stage' r' := by
  obtain ⟨he, hlast, hint, hcar⟩ := measures_silent (t := t) ho
  have hrep := reported_congr hlast
  refine ⟨?_, ?_, ?_, fun hs => ?_, fun hs => ?_, fun hs => ?_⟩
  · rw [hint, h.intent, hq]
  · rw [hcar, he, h.filled, hf]
  · rw [hf, hrep]
    exact h.le
  · obtain ⟨hs, hqty, havg⟩ := hr hs
    rw [hlast, hqty, havg]
    exact h.report hs
  · rw [hf, hrep]
    exact h.full (hfull hs)
  · rw [hrep]
    exact hrest hs

theorem books_silent {o : Obs} (h : o.Silent orderId) {l : Life} (hb : Books orderId t l) :
    Books orderId (t ++ [o]) l := by
  obtain ⟨he, hlast, hint, hcar⟩ := measures_silent (t := t) h
  cases l with
  | tracked stage r =>
    have ht : Tallies orderId t stage r := hb
    exact ht.silent h rfl rfl (fun hs => ⟨hs, rfl, rfl⟩) id ht.rest
  | _ => simpa only [Books, he, reported_congr hlast, hint, hcar] using hb

private theorem tallies_idle {r : Record} (hq : intentOf orderId t = some r.intent)
    (hf : carried orderId t + emitted orderId t = r.filled) (hle : r.filled ≤ reported orderId t) :
    Tallies orderId t .idle r :=
  ⟨hq, by simpa using hf, by simpa using hle, by simp, by simp, by simp⟩

/-- What a poll has nothing more to fill of is emitted, unless it has no price. -/
theorem Tallies.of_closing {cfg : Config} {stage : Stage} {r : Record} (h : Tallies orderId t stage r)
    (hc : stage.closing cfg orderId r) :
    r.filled = reported orderId t ∨ fillPrice r.intent r.order.avgPrice ≤ 0 := by
  rcases hc with rfl | ⟨rfl, hf⟩
  · exact .inl (by simpa using h.full rfl)
  · rcases fillOf_eq_none_iff.mp hf with hq | hp
    · have hle := h.le
      have hrep := h.reported_eq (by simp)
      simp only [Stage.pending] at hle
      exact .inl (by omega)
    · exact .inr hp

theorem Stage.closing.pending_eq {cfg : Config} {stage : Stage} {r : Record} (hc : stage.closing cfg orderId r) :
    stage.pending = 0 := by
  rcases hc with rfl | ⟨rfl, -⟩ <;> rfl

theorem Stage.closing.ne {cfg : Config} {stage : Stage} {r : Record} (hc : stage.closing cfg orderId r) :
    stage ≠ .idle ∧ stage ≠ .rejected := by
  rcases hc with rfl | ⟨rfl, -⟩ <;> simp

/-- A refresh whose shares can be emitted leaves them due. -/
theorem Tallies.due_of_fillable {r : Record} {report : Report} (h : Tallies orderId t .idle r)
    (hmono : monotone t (.status orderId report) = true) (hf : fillable orderId t report = true) :
    r.filled = toInt report.filledQty ∨ 0 < fillPrice r.intent report.avgPrice := by
  have hm : reported orderId t ≤ toInt report.filledQty := by simpa [monotone] using hmono
  have hfill := h.filled
  have hle := h.le
  simp only [Stage.pending, Int.add_zero] at hfill hle
  simp only [fillable, Bool.or_eq_true, decide_eq_true_eq, h.intent, Option.map_some, Option.getD_some] at hf
  rcases hf with hf | hf
  · exact .inl (by omega)
  · exact .inr hf

theorem Tallies.due_of_last {stage : Stage} {r : Record} (h : Tallies orderId t stage r) (hs : stage ≠ .idle)
    (hf : (lastReport orderId t).all (fillable orderId t) = true) :
    r.filled + stage.pending = reported orderId t ∨ 0 < fillPrice r.intent r.order.avgPrice := by
  obtain ⟨status, hrep⟩ := h.report hs
  have hq := h.reported_eq hs
  have hfill := h.filled
  have hle := h.le
  simp only [hrep, Option.all_some, fillable, Bool.or_eq_true, decide_eq_true_eq, h.intent, Option.map_some,
    Option.getD_some] at hf
  rcases hf with hf | hf
  · exact .inl (by omega)
  · exact .inr hf

/-- Where a poll has nothing more to fill, what was due is emitted. -/
theorem Tallies.filled_eq {stage : Stage} {r : Record} (h : Tallies orderId t stage r) (hp : stage.pending = 0)
    (hdue : r.filled + stage.pending = reported orderId t ∨ 0 < fillPrice r.intent r.order.avgPrice)
    (hor : r.filled = reported orderId t ∨ fillPrice r.intent r.order.avgPrice ≤ 0) :
    r.filled = reported orderId t ∧ carried orderId t + emitted orderId t = reported orderId t := by
  have hfill := h.filled
  have hr : r.filled = reported orderId t := by
    rcases hdue with hd | hd
    · omega
    · exact hor.resolve_right (not_le_of_gt hd)
  exact ⟨hr, by omega⟩

/-- One move keeps the books. -/
theorem Move.books {cfg : Config} {l l' : Life} {o : Obs} (hm : Move cfg orderId l o l') (h : Books orderId t l)
    (hmono : monotone t o = true) (hbook : unbooked t o = true) : Books orderId (t ++ [o]) l' := by
  have hle := h.le
  cases hm with
  | place cause answer intent order hp =>
    obtain ⟨hc, he, -⟩ := h
    have h0 : 0 ≤ toInt order.filledQty := by simpa [monotone] using hmono
    simp [Books, emitted_concat, reported, lastReport_concat, intentOf_concat, carried_concat, Obs.fillFor,
      Obs.reportFor, Obs.intentFor, Obs.carriedFor, hc, he, h0]
  | fillAtOnce intent order stamp fill hf hfill =>
    obtain ⟨hc, he, -, hr, -⟩ := h
    obtain ⟨hid, -, -, hq, -⟩ := fillOf_eq_some hfill
    have hrep : reported orderId (t ++ [Obs.event ⟨stamp, .filled fill⟩]) = reported orderId t :=
      reported_congr (by simp [lastReport_concat, Obs.reportFor])
    simp [Books, emitted_concat, carried_concat, Obs.fillFor, Obs.carriedFor, hrep, hc, he, hr, hid]
    omega
  | track intent order now hf =>
    obtain ⟨hc, he, h0, hr, ho⟩ := h
    have ht : Tallies orderId t .idle (Execution.track intent order now) :=
      tallies_idle ho (by rw [hc, he]; rfl) h0
    exact books_silent ⟨rfl, rfl, rfl, rfl⟩ (l := .tracked .idle _) ht
  | adopt l r hl hr =>
    have hb : carried orderId t + emitted orderId t = 0 := by simpa [unbooked] using hbook
    have hrep : reported orderId (t ++ [Obs.adopted orderId r]) = reported orderId t :=
      reported_congr (by simp [lastReport_concat, Obs.reportFor])
    refine tallies_idle ?_ ?_ ?_
    · simp [intentOf_concat, Obs.intentFor]
    · simpa [emitted_concat, carried_concat, Obs.fillFor, Obs.carriedFor, hr.1] using hb
    · rw [hrep, hr.1]
      omega
  | restore l r hl hr =>
    have hb : emitted orderId t = 0 := by simpa [unbooked] using hbook
    refine tallies_idle ?_ ?_ ?_
    · simp [intentOf_concat, Obs.intentFor]
    · simp [emitted_concat, carried_concat, Obs.fillFor, Obs.carriedFor, hb]
    · simp [reported, lastReport_concat, Obs.reportFor, hr]
  | refresh r report =>
    have hr : Tallies orderId t .idle r := h
    have hmono' : reported orderId t ≤ toInt report.filledQty := by simpa [monotone] using hmono
    have hlast : lastReport orderId (t ++ [Obs.status orderId report]) = some report := by
      simp [lastReport_concat, Obs.reportFor]
    have hrep : reported orderId (t ++ [Obs.status orderId report]) = toInt report.filledQty := by
      simp [reported, hlast]
    refine ⟨?_, ?_, hrep ▸ hr.le.trans hmono', fun _ => ⟨report.status, hlast⟩, by simp, by simp⟩
    · simpa [intentOf_concat, Obs.intentFor] using hr.intent
    · simpa [emitted_concat, carried_concat, Obs.fillFor, Obs.carriedFor] using hr.filled
  | fill r stamp fill hf =>
    have hr : Tallies orderId t .checked r := h
    obtain ⟨hid, -, -, hq, -⟩ := fillOf_eq_some hf
    have hlast : lastReport orderId (t ++ [Obs.event ⟨stamp, .filled fill⟩]) = lastReport orderId t := by
      simp [lastReport_concat, Obs.reportFor]
    have hfilled := hr.filled
    have hfull : r.filled + fill.quantity = reported orderId (t ++ [Obs.event ⟨stamp, .filled fill⟩]) := by
      rw [reported_congr hlast, hr.reported_eq (by simp), hq]
    refine ⟨?_, ?_, hfull.le, fun _ => hlast ▸ hr.report (by simp), fun _ => hfull, by simp⟩
    · simpa [intentOf_concat, Obs.intentFor] using hr.intent
    · simp only [Stage.pending] at hfilled ⊢
      simp [emitted_concat, carried_concat, Obs.fillFor, Obs.carriedFor, hid]
      omega
  | evict r => exact books_silent ⟨rfl, rfl, rfl, rfl⟩ (l := .gone) hle
  | complete stage r hc hs => exact books_silent ⟨rfl, rfl, rfl, rfl⟩ (l := .gone) hle
  | close r status hs hr => exact books_silent ⟨rfl, rfl, rfl, rfl⟩ (l := .gone) hle
  | closeFull stage r hc hs hq => exact books_silent ⟨rfl, rfl, rfl, rfl⟩ (l := .gone) hle
  | touch r status =>
    have hr : Tallies orderId t .idle r := h
    exact hr.silent ⟨rfl, rfl, rfl, rfl⟩ rfl rfl (by simp) id (by simp)
  | miss r =>
    have hr : Tallies orderId t .idle r := h
    exact hr.silent ⟨rfl, rfl, rfl, rfl⟩ rfl rfl (by simp) id (by simp)
  | cancel stage r =>
    have hr : Tallies orderId t stage r := h
    exact hr.silent ⟨rfl, rfl, rfl, rfl⟩ rfl rfl (fun hs => ⟨hs, rfl, rfl⟩) id hr.rest
  | note r hs =>
    have hr : Tallies orderId t .refreshed r := h
    exact hr.silent ⟨rfl, rfl, rfl, rfl⟩ rfl rfl (by simp) (by simp) (by simp)
  | update r stamp e he hq hs =>
    have hr : Tallies orderId t .noted r := h
    exact hr.silent ⟨rfl, rfl, rfl, rfl⟩ rfl rfl (by simp) (by simp) (by simp)
  | steady r hs =>
    have hr : Tallies orderId t .refreshed r := h
    exact hr.silent ⟨rfl, rfl, rfl, rfl⟩ rfl rfl (by simp) (by simp) (by simp)
  | book r n =>
    have hr : Tallies orderId t (.filled n) r := h
    exact hr.silent ⟨rfl, rfl, rfl, rfl⟩ rfl (by simp) (by simp) (by simp) (by simp)
  | keep stage r hc ht =>
    have hr : Tallies orderId t stage r := h
    exact hr.silent ⟨rfl, rfl, rfl, rfl⟩ rfl (by rw [hc.pending_eq]; rfl) (by simp) (by simp) (by simp)
  | reject stage r stamp e hc hs he hq hp hr =>
    have hr : Tallies orderId t stage r := h
    exact hr.silent ⟨rfl, rfl, rfl, rfl⟩ rfl (by rw [hc.pending_eq]; rfl) (fun _ => ⟨hc.ne.1, rfl, rfl⟩)
      (by simp) fun _ => hr.of_closing hc
  | _ => exact books_silent ⟨rfl, rfl, rfl, rfl⟩ h

/-- The books of every order are kept over a whole life. -/
theorem life_books {cfg : Config} {l : Life} (hl : (life cfg orderId).Accepts t l)
    (hmono : Trace.Always monotone t)
    (hbook : Trace.Always unbooked t) : Books orderId t l := by
  refine hl.invariant (A := fun pre o => monotone pre o = true ∧ unbooked pre o = true) ⟨rfl, rfl, rfl⟩ ?_
    (fun pre o suf he => ⟨hmono pre o suf he, hbook pre o suf he⟩)
  rintro t l o l' hb ⟨hmono, hbook⟩ (⟨_, hm⟩ | ⟨ho, rfl⟩)
  · exact hm.books hb hmono hbook
  · exact books_silent (.of_ne ho) hb

theorem carried_eq_zero (h : ∀ j r, Obs.restored j r ∉ t) : carried orderId t = 0 := by
  rw [carried, Trace.last_eq_none, Option.getD_none]
  intro o ho
  cases o with
  | restored j r => exact absurd ho (h j r)
  | _ => rfl

/-- Nothing is emitted for an order before it is opened. -/
theorem books_unopened {cfg : Config} {l : Life} (hl : (life cfg orderId).Accepts t l)
    (hn : ∀ o ∈ t, o.opens ≠ some orderId) : carried orderId t = 0 ∧ emitted orderId t = 0 := by
  induction hl with
  | nil => exact ⟨rfl, rfl⟩
  | @concat t l o l' ht ho ih =>
    have hn' : ∀ o ∈ t, o.opens ≠ some orderId := fun o ho => hn o (List.mem_append_left _ ho)
    have hlast : o.opens ≠ some orderId := hn o (by simp)
    obtain ⟨hc, he⟩ := ih hn'
    obtain rfl := unknown_of_not_opened ht hn'
    have hs : o.Silent orderId := by
      rcases ho with ⟨_, hm⟩ | ⟨hid, _⟩
      · cases hm with
        | place | adopt | restore => exact absurd rfl hlast
        | _ => exact ⟨rfl, rfl, rfl, rfl⟩
      · exact .of_ne hid
    simp [carried_concat, emitted_concat, hs.carry, hs.fill, hc, he]

/-- In every run the books of every order are kept, at every point. -/
theorem run_books {cfg : Config} (orderId : String) (steps : List Step) (hV : VenueIds (run cfg steps {}).trace)
    (hmono : Trace.Always monotone (run cfg steps {}).trace) (hbook : Trace.Always unbooked (run cfg steps {}).trace)
    (hpre : t <+: (run cfg steps {}).trace) : ∃ l, (life cfg orderId).Accepts t l ∧ Books orderId t l := by
  obtain ⟨l, hl, _⟩ := ((run_sounds steps {}).2 hV sound_init).lives orderId
  obtain ⟨l', hl'⟩ := hl.1.of_isPrefix hpre
  exact ⟨l', hl', life_books hl' (hmono.of_isPrefix hpre) (hbook.of_isPrefix hpre)⟩

/-- What an order of this session had filled before it. -/
theorem run_carried {cfg : Config} (steps : List Step) (hpre : t <+: (run cfg steps {}).trace) :
    carried orderId t = 0 :=
  carried_eq_zero fun j r h => run_not_restored steps j r (hpre.subset h)

/-- The fills of an order stay within what the broker has reported of it. -/
theorem emitted_le_reported {cfg : Config} (orderId : String) (steps : List Step) (hV : VenueIds (run cfg steps {}).trace)
    (hmono : Trace.Always monotone (run cfg steps {}).trace) (hbook : Trace.Always unbooked (run cfg steps {}).trace)
    (hpre : t <+: (run cfg steps {}).trace) : emitted orderId t ≤ reported orderId t := by
  obtain ⟨l, _, hb⟩ := run_books orderId steps hV hmono hbook hpre
  have hle := hb.le
  rw [run_carried steps hpre] at hle
  omega

end NTrade.Execution
