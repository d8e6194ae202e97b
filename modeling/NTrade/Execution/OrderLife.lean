import NTrade.Execution.BrokerExecutor
import NTrade.Lib.Monitor

/-! The life of one order, abstracted from the tracker and from every other order: which
observations may follow which, and the tracking record they leave behind. -/
namespace NTrade.Execution
open NTrade.Domain NTrade.Events NTrade.Lib

/-- How far the poll iteration that handles an order has come. -/
inductive Stage where
  | idle
  /-- The broker has answered. -/
  | refreshed
  /-- The record has the new status; the update event is in dispatch. -/
  | noted
  /-- The change of status is dealt with. -/
  | checked
  /-- A fill of `n` was published and is to be booked. -/
  | filled (n : Int)
  | booked
  /-- The unfilled rest was rejected. -/
  | rejected
  deriving DecidableEq

inductive Life where
  | unknown
  /-- The venue has accepted; the accepted event is in dispatch. -/
  | accepting (intent : OrderIntent) (order : Order)
  | accepted (intent : OrderIntent) (order : Order)
  | tracked (stage : Stage) (record : Record)
  | gone

def Life.record : Life → Option Record
  | .tracked _ r => some r
  | _ => none

def Life.Resting : Life → Prop
  | .unknown | .gone => True
  | .accepting _ _ => False
  | .accepted intent order =>
    order.isFilled = true ∧ (toInt order.filledQty ≤ 0 ∨ fillPrice intent order.avgPrice ≤ 0)
  | .tracked stage _ => stage = .idle

def Stage.closing (cfg : Config) (orderId : String) (r : Record) (stage : Stage) : Prop :=
  stage = .booked ∨ stage = .checked ∧ r.fillOf cfg orderId 0 = none

instance (cfg : Config) (orderId : String) (r : Record) (stage : Stage) :
    Decidable (stage.closing cfg orderId r) := inferInstanceAs (Decidable (_ ∨ _))

def Life.Disturbed : Life → Life → Prop
  | .unknown, l => l.Resting
  | .tracked stage r, l => l = .tracked stage r ∨ l = .tracked stage r.cancel
  | l, l' => l' = l

/-- An order for a registered instrument with a broker adapter, and with a valid side. -/
def Config.Placeable (cfg : Config) (intent : OrderIntent) : Prop :=
  cfg.brokerBacked intent.symbol ≠ none ∧ ∃ side, OrderSide.ofValue intent.side.toUpper = .ok side

variable (cfg : Config) (orderId : String)

/-- One observation in the life of an order. -/
inductive Move : Life → Obs → Life → Prop where
  | place (cause answer intent order) (hp : cfg.Placeable intent) :
      Move .unknown (.placed cause answer orderId intent order) (.accepting intent order)
  | refuse (stamp e) (he : e.orderId = orderId) (hn : orderId = "") :
      Move .unknown (.event ⟨stamp, .rejected e⟩) .unknown
  | accept (intent order stamp) :
      Move (.accepting intent order) (.event ⟨stamp, .accepted (acceptance orderId intent)⟩)
        (.accepted intent order)
  | fillAtOnce (intent order stamp fill) (hf : order.isFilled = true)
      (h : fillOf cfg orderId intent order 0 fill.ts = some fill) :
      Move (.accepted intent order) (.event ⟨stamp, .filled fill⟩) .gone
  | track (intent order now) (hf : order.isFilled = false) :
      Move (.accepted intent order) (.tracked orderId (track intent order now))
        (.tracked .idle (track intent order now))
  | adopt (l r) (hl : l.Resting) (hr : r.filled = 0 ∧ toInt r.order.filledQty = 0) :
      Move l (.adopted orderId r) (.tracked .idle r)
  | restore (l r) (hl : l.Resting) (hr : toInt r.order.filledQty = r.filled) : Move l (.restored orderId r) (.tracked .idle r)
  | ask (r) : Move (.tracked .idle r) (.asked orderId) (.tracked .idle r)
  | refresh (r report) :
      Move (.tracked .idle r) (.status orderId report) (.tracked .refreshed (r.refresh report))
  | touch (r status) : Move (.tracked .idle r) (.touched orderId status) (.tracked .idle (r.touch status))
  | miss (r) : Move (.tracked .idle r) (.missed orderId) (.tracked .idle r.miss)
  | evict (r) : Move (.tracked .idle r) (.evicted orderId) .gone
  | cancel (stage r) : Move (.tracked stage r) (.cancelled orderId) (.tracked stage r.cancel)
  | timeout (r stamp e) (he : e.orderId = orderId) :
      Move (.tracked .refreshed r) (.event ⟨stamp, .timeout e⟩) (.tracked .refreshed r)
  | note (r) (h : r.order.status ≠ r.status) :
      Move (.tracked .refreshed r) (.noted orderId r.order.status) (.tracked .noted r.note)
  | update (r stamp e) (he : e.orderId = orderId) (hq : e.filledQty = toInt r.order.filledQty)
      (hs : e.status = r.status.value) :
      Move (.tracked .noted r) (.event ⟨stamp, .updated e⟩) (.tracked .checked r)
  | steady (r) (h : r.order.status = r.status) :
      Move (.tracked .refreshed r) (.steady orderId) (.tracked .checked r)
  | fill (r stamp fill) (h : r.fillOf cfg orderId fill.ts = some fill) :
      Move (.tracked .checked r) (.event ⟨stamp, .filled fill⟩) (.tracked (.filled fill.quantity) r)
  | book (r n) : Move (.tracked (.filled n) r) (.booked orderId n) (.tracked .booked (r.book n))
  | keep (stage r) (hc : stage.closing cfg orderId r) (ht : r.order.status.isTerminal = false) :
      Move (.tracked stage r) (.kept orderId) (.tracked .idle r)
  | complete (stage r) (hc : stage.closing cfg orderId r) (hs : r.order.status = .completed) :
      Move (.tracked stage r) (.popped orderId .completed) .gone
  | reject (stage r stamp e) (hc : stage.closing cfg orderId r)
      (hs : r.order.status = .rejected ∨ r.order.status = .cancelled) (he : e.orderId = orderId)
      (hq : e.quantity = r.intent.quantity - r.filled) (hp : 0 < e.quantity)
      (hr : e.reason = "order " ++ OrderStatus.cancelled.value → r.order.status = .cancelled) :
      Move (.tracked stage r) (.event ⟨stamp, .rejected e⟩) (.tracked .rejected r)
  | close (r status) (hs : status = .rejected ∨ status = .cancelled)
      (hc : status = .cancelled → r.order.status = .cancelled) :
      Move (.tracked .rejected r) (.popped orderId status) .gone
  | closeFull (stage r) (hc : stage.closing cfg orderId r)
      (hs : r.order.status = .rejected ∨ r.order.status = .cancelled)
      (hq : r.intent.quantity ≤ r.filled) :
      Move (.tracked stage r) (.popped orderId r.order.status) .gone
  | execute (l n price) : Move l (.executed orderId n price) l
  | cancelTake (l) : Move l (.cancelTook orderId) l

/-- The monitor of an order: it reads what is about the order and passes over the rest. -/
def life : Monitor Life Obs where
  init := .unknown
  step l o l' := o.orderId = some orderId ∧ Move cfg orderId l o l' ∨ o.orderId ≠ some orderId ∧ l' = l

def Obs.opens : Obs → Option String
  | .placed _ _ orderId _ _ => some orderId
  | .adopted orderId _ => some orderId
  | .restored orderId _ => some orderId
  | _ => none

variable {cfg orderId}

/-- Nothing happens to an order before it is opened. -/
theorem unknown_of_not_opened {t : List Obs} {l : Life} (h : (life cfg orderId).Accepts t l)
    (hn : ∀ o ∈ t, o.opens ≠ some orderId) : l = .unknown := by
  induction h with
  | nil => rfl
  | @concat t l o l' _ ho ih =>
    have hl := ih fun o ho => hn o (List.mem_append_left _ ho)
    have ho' := hn o (by simp)
    subst hl
    rcases ho with ⟨_, ho⟩ | ⟨_, rfl⟩
    · cases ho <;> first | rfl | exact absurd rfl ho'
    · rfl

theorem Life.Resting.of_disturbed {l l' : Life} (h : l.Disturbed l') (hl : l.Resting) : l'.Resting := by
  cases l with
  | unknown => exact h
  | tracked stage r => rcases h with rfl | rfl <;> exact hl
  | _ => cases h; exact hl

theorem Life.Disturbed.refl (l : Life) : l.Disturbed l := by
  cases l with
  | tracked stage r => exact .inl rfl
  | unknown => trivial
  | _ => rfl

theorem Life.Disturbed.trans {l l' l'' : Life} (h : l.Disturbed l') (h' : l'.Disturbed l'') :
    l.Disturbed l'' := by
  cases l with
  | unknown => exact h.of_disturbed h'
  | tracked stage r =>
    rcases h with rfl | rfl
    · exact h'
    · rcases h' with rfl | rfl
      · exact .inr rfl
      · exact .inr rfl
  | _ => cases h; exact h'

end NTrade.Execution
