import NTrade.Execution.Threads
import NTrade.Execution.BrokerExecutor

/-! Submission against reconciliation. A submitted order has one record, with the intent it
was submitted for, as long as reconciliation does not take it for an orphan: its row is in
the order book before its record is in the tracker. -/
namespace NTrade.Execution
open NTrade.Domain NTrade.Events NTrade.Lib

/-- The addresses of records that the runner thread works on for an order. -/
def RunnerPhase.refs (orderId : String) : RunnerPhase → List Nat
  | .holding _ o ref | .asking _ o ref | .refreshed _ o ref | .noted _ o ref | .settling _ o ref =>
    if o = orderId then [ref] else []
  | .emitted _ o ref target _ => if o = orderId then ref :: target.toList else []
  | _ => []

/-- What is emitted of an order and not yet booked on its record. -/
def RunnerPhase.inFlight (orderId : String) : RunnerPhase → Int
  | .emitted _ o _ _ n => if o = orderId then n else 0
  | _ => 0

namespace Threads
variable (t : Threads) (orderId : String)

def refs : List Nat := (t.openOrders.get orderId).toList ++ t.runner.refs orderId

def counter : Option Int := (t.tracked orderId).map Record.filled

end Threads

variable (cfg : Config)

/-- Whether a move adopts an order that `submit` has placed. -/
def adoptsPlaced (t : Threads) : ThreadMove → Bool
  | .runner i =>
    match t.runner with
    | .adopting existing (entry :: _) =>
      entry.orderId ≠ "" ∧ entry.orderId ∉ existing ∧ (adopt cfg entry i.now).isSome ∧ entry.orderId ∈ t.placed.keys
    | _ => false
  | _ => false

/-- When the runner thread takes its snapshot of the tracker, the tracker has every order that `submit` has placed and
that is open in the order book which was read before. -/
def Threads.CaughtUp (t : Threads) : ThreadMove → Prop
  | .runner _ =>
    match t.runner with
    | .fetched book => ∀ entry ∈ book, entry.status ∉ OrderStatus.TERMINAL → entry.orderId ∈ t.placed.keys →
        entry.orderId ∈ t.openOrders.keys
    | _ => True
  | _ => True

instance (t : Threads) : (m : ThreadMove) → Decidable (t.CaughtUp m)
  | .runner _ =>
    match h : t.runner with
    | .fetched book =>
      decidable_of_iff (∀ entry ∈ book, entry.status ∉ OrderStatus.TERMINAL → entry.orderId ∈ t.placed.keys →
        entry.orderId ∈ t.openOrders.keys) (by simp only [Threads.CaughtUp, h])
    | .idle | .adopting _ _ | .polling _ | .holding _ _ _ | .asking _ _ _ | .refreshed _ _ _ | .noted _ _ _
    | .emitted _ _ _ _ _ | .settling _ _ _ => isTrue (by simp only [Threads.CaughtUp, h])
  | .feed _ | .execute _ _ => isTrue trivial

/-- A submitted order has one record, its fills carry the intent's strategy, and they stay
within what the venue has executed. -/
structure WellTracked (t : Threads) (orderId : String) (intent : OrderIntent) : Prop where
  single : ∀ ref ∈ t.refs orderId, ∀ ref' ∈ t.refs orderId, ref = ref'
  strategy : ∀ e ∈ t.fills, e.orderId = orderId → e.strategy = intent.strategy
  bounded : t.emitted orderId ≤ t.broker orderId

section
variable {cfg} {t : Threads} {feed : FeedPhase} {runner : RunnerPhase} {orderId : String} {ref : Nat}

private def Owns (t : Threads) (orderId : String) (ref : Nat) : Prop :=
  ∃ r, t.record ref = some r ∧ r.order.orderId = some orderId

private def FeedPhase.submits : FeedPhase → Option (String × OrderIntent)
  | .sent orderId intent _ | .accepted orderId intent _ | .announced orderId intent _ => some (orderId, intent)
  | _ => none

/-- A placed order whose record, if there is one, counts what was emitted. -/
private structure Placed (runner : RunnerPhase) (t : Threads) (orderId : String) (intent : OrderIntent) : Prop where
  unique : ∀ j j', Owns t orderId j → Owns t orderId j' → j = j'
  counted : ∀ j r, t.record j = some r → r.order.orderId = some orderId →
    r.intent.strategy = intent.strategy ∧ r.filled + runner.inFlight orderId = t.emitted orderId ∧
      toInt r.order.filledQty ≤ t.broker orderId
  strategy : ∀ e ∈ t.fills, e.orderId = orderId → e.strategy = intent.strategy
  bounded : t.emitted orderId ≤ t.broker orderId

private structure InvAt (feed : FeedPhase) (runner : RunnerPhase) (t : Threads) : Prop where
  opened : ∀ id ref, t.openOrders.get id = some ref → Owns t id ref
  running : ∀ id, ∀ ref ∈ runner.refs id, Owns t id ref
  held : ∀ id, runner.refs id ≠ [] → (t.openOrders.get id).isSome
  booking : ∀ ids id ref target n, runner = .emitted ids id ref target n → target.isSome ∧ 0 < n
  known : ∀ e ∈ t.fills, (t.placed.get e.orderId).isSome ∨ ∃ j, Owns t e.orderId j
  feeding : ∀ target n, feed = .emitted target n → target = none
  submitting : ∀ id intent, feed.submits = some (id, intent) →
    t.placed.get id = some intent ∧ (∀ j, ¬ Owns t id j) ∧ t.emitted id = 0
  answered : ∀ id intent order, feed = .accepted id intent order ∨ feed = .announced id intent order →
    order.orderId = some id ∧ toInt order.filledQty ≤ t.broker id
  placed : ∀ id intent, t.placed.get id = some intent → Placed runner t id intent

/-- The invariant of a state, at the phases it is in. -/
private theorem InvAt.enter (h : InvAt feed runner t) : InvAt feed runner { t with feed, runner } :=
  ⟨h.opened, h.running, h.held, h.booking, h.known, h.feeding, h.submitting, h.answered,
    fun id intent hp => ⟨(h.placed id intent hp).unique, (h.placed id intent hp).counted,
      (h.placed id intent hp).strategy, (h.placed id intent hp).bounded⟩⟩

private def Harmless (t : Threads) (ref : Nat) (f : Record → Record) : Prop :=
  ∀ r, t.record ref = some r → (f r).order.orderId = r.order.orderId ∧ (f r).intent = r.intent ∧
    (f r).filled = r.filled ∧ ∀ id, r.order.orderId = some id → toInt r.order.filledQty ≤ t.broker id →
      toInt (f r).order.filledQty ≤ t.broker id

private theorem owns_update {f : Record → Record} (hf : Harmless t ref f) {id : String} {j : Nat} :
    Owns (t.update ref f) id j ↔ Owns t id j := by
  unfold Owns
  rw [Threads.record_update]
  cases hr : t.record j with
  | none => simp
  | some r =>
    by_cases hj : ref = j
    · subst hj
      simp [(hf r hr).1]
    · simp [hj]

private theorem InvAt.update {f : Record → Record} (h : InvAt feed runner t) (hf : Harmless t ref f) :
    InvAt feed runner (t.update ref f) where
  opened id ref h' := (owns_update hf).mpr (h.opened id ref h')
  running id ref h' := (owns_update hf).mpr (h.running id ref h')
  held := h.held
  booking := h.booking
  known e he := (h.known e he).imp_right fun ⟨j, hj⟩ => ⟨j, (owns_update hf).mpr hj⟩
  feeding := h.feeding
  submitting id intent hs := by
    obtain ⟨hp, ho, he⟩ := h.submitting id intent hs
    exact ⟨hp, fun j hj => ho j ((owns_update hf).mp hj), he⟩
  answered := h.answered
  placed id intent hp := by
    have hq := h.placed id intent hp
    refine ⟨fun j j' hj hj' => ?_, fun j r hr ho => ?_, hq.strategy, hq.bounded⟩
    · exact hq.unique j j' ((owns_update hf).mp hj) ((owns_update hf).mp hj')
    · rw [Threads.record_update] at hr
      obtain ⟨r₀, hr₀, rfl⟩ := Option.map_eq_some_iff.mp hr
      by_cases hj : ref = j
      · subst hj
        rw [if_pos rfl] at ho ⊢
        obtain ⟨hid, hintent, hfilled, hqty⟩ := hf r₀ hr₀
        rw [hid] at ho
        obtain ⟨h₁, h₂, h₃⟩ := hq.counted ref r₀ hr₀ ho
        rw [hintent, hfilled]
        exact ⟨h₁, h₂, hqty id ho h₃⟩
      · rw [if_neg hj] at ho ⊢
        exact hq.counted j r₀ hr₀ ho

private theorem harmless_touch (status : OrderStatus) : Harmless t ref (·.touch status) :=
  fun _ _ => ⟨rfl, rfl, rfl, fun _ _ h => h⟩

private theorem harmless_miss : Harmless t ref Record.miss := fun _ _ => ⟨rfl, rfl, rfl, fun _ _ h => h⟩

private theorem harmless_note : Harmless t ref Record.note := fun _ _ => ⟨rfl, rfl, rfl, fun _ _ h => h⟩

private theorem harmless_refresh {status : OrderStatus} {avgPrice : Wire} (ho : Owns t orderId ref) :
    Harmless t ref (·.refresh ⟨status, some (t.broker orderId : Rat), avgPrice⟩) := by
  intro r hr
  obtain ⟨r', hr', hid⟩ := ho
  obtain rfl := Option.some.inj (hr.symm.trans hr')
  refine ⟨rfl, rfl, rfl, fun id h _ => ?_⟩
  rw [hid] at h
  obtain rfl := Option.some.inj h
  have hq := toInt_intCast (t.broker orderId : Int)
  simp only [Int.cast_natCast] at hq
  exact hq.le

/-- An order without a record has nothing in flight. -/
private theorem InvAt.inFlight_of_unowned (h : InvAt feed runner t) (ho : ∀ j, ¬ Owns t orderId j) :
    runner.inFlight orderId = 0 := by
  cases runner with
  | emitted ids o ref target n =>
    have hne : o ≠ orderId := by
      rintro rfl
      exact ho ref (h.running o ref (by simp [RunnerPhase.refs]))
    simp [RunnerPhase.inFlight, hne]
  | _ => rfl

/-- The runner goes on, with records it had or that the tracker has. -/
private theorem InvAt.goes (runner' : RunnerPhase) (h : InvAt feed runner t)
    (hr : ∀ id, ∀ ref ∈ runner'.refs id, ref ∈ runner.refs id ∨ t.openOrders.get id = some ref)
    (hn : ∀ id, runner'.inFlight id = runner.inFlight id)
    (hb : ∀ ids id ref target n, runner' = .emitted ids id ref target n → target.isSome ∧ 0 < n) :
    InvAt feed runner' t where
  opened := h.opened
  running id ref hm := (hr id ref hm).elim (h.running id ref) (h.opened id ref)
  held id hne := by
    obtain ⟨ref, hm⟩ := List.exists_mem_of_ne_nil _ hne
    rcases hr id ref hm with hm | hm
    · exact h.held id (List.ne_nil_of_mem hm)
    · rw [hm]
      rfl
  booking := hb
  known := h.known
  feeding := h.feeding
  submitting := h.submitting
  answered := h.answered
  placed id intent hp := by
    have hq := h.placed id intent hp
    refine ⟨hq.unique, fun j r hr ho => ?_, hq.strategy, hq.bounded⟩
    rw [hn]
    exact hq.counted j r hr ho

/-- The runner goes on with the record in its hands. -/
private theorem InvAt.holding (runner' : RunnerPhase) (h : InvAt feed runner t)
    (hr : ∀ id, runner'.refs id = runner.refs id) (hn : ∀ id, runner'.inFlight id = runner.inFlight id)
    (hb : ∀ ids id ref target n, runner' ≠ .emitted ids id ref target n) : InvAt feed runner' t := by
  apply h.goes runner' _ hn
  · intro ids id ref target n he
    exact absurd he (hb ids id ref target n)
  · intro id ref hm
    rw [hr id] at hm
    exact .inl hm

private theorem InvAt.drop (h : InvAt feed runner t) (hr : ∀ id, runner.refs id = []) :
    InvAt feed runner (t.drop orderId) where
  opened id ref h' := by
    refine h.opened id ref ?_
    have hg := (Dict.get_pop t.openOrders orderId id).symm.trans h'
    split at hg
    · cases hg
    · exact hg
  running := h.running
  held id hne := absurd (hr id) hne
  booking := h.booking
  known := h.known
  feeding := h.feeding
  submitting := h.submitting
  answered := h.answered
  placed id intent hp := by
    have hq := h.placed id intent hp
    exact ⟨hq.unique, hq.counted, hq.strategy, hq.bounded⟩

private theorem owns_insert {r : Record} (hid : r.order.orderId = some orderId) {id : String} {j : Nat} :
    Owns (t.insert orderId r) id j ↔ Owns t id j ∨ j = t.heap.length ∧ id = orderId := by
  unfold Owns
  rw [Threads.record_insert]
  split
  · next hj =>
    have hn : t.record j = none := by rw [hj]; exact List.getElem?_eq_none (Nat.le_refl _)
    simp [hj, hid, eq_comm, hj ▸ hn]
  · next hj => simp [hj]

/-- A record for an order that has none and is not being submitted. -/
private theorem InvAt.insert {r : Record} (h : InvAt feed runner t) (hid : r.order.orderId = some orderId)
    (hfeed : ∀ intent, feed.submits ≠ some (orderId, intent))
    (hp : ∀ intent, t.placed.get orderId = some intent → (∀ j, ¬ Owns t orderId j) ∧
      r.intent.strategy = intent.strategy ∧ r.filled = t.emitted orderId ∧
      toInt r.order.filledQty ≤ t.broker orderId) :
    InvAt feed runner (t.insert orderId r) where
  opened id ref h' := by
    have hg := (Dict.get_set t.openOrders orderId id t.heap.length).symm.trans h'
    rw [owns_insert hid]
    split at hg
    · next he => exact .inr ⟨(Option.some.inj hg).symm, he⟩
    · exact .inl (h.opened id ref hg)
  running id ref h' := (owns_insert hid).mpr (.inl (h.running id ref h'))
  held id hne := by
    have hg := Dict.get_set t.openOrders orderId id t.heap.length
    have hs := h.held id hne
    show ((t.openOrders.set orderId t.heap.length).get id).isSome
    rw [hg]
    split
    · rfl
    · exact hs
  booking := h.booking
  known e he := (h.known e he).imp_right fun ⟨j, hj⟩ => ⟨j, (owns_insert hid).mpr (.inl hj)⟩
  feeding := h.feeding
  submitting id intent hs := by
    obtain ⟨hpl, ho, he⟩ := h.submitting id intent hs
    refine ⟨hpl, fun j hj => ?_, he⟩
    rcases (owns_insert hid).mp hj with hj | ⟨-, rfl⟩
    · exact ho j hj
    · exact hfeed intent hs
  answered := h.answered
  placed id intent hpl := by
    have hq := h.placed id intent hpl
    by_cases he : id = orderId
    · subst he
      obtain ⟨ho, hs, hf, hb⟩ := hp intent hpl
      have hlast {j : Nat} (hj : Owns (t.insert id r) id j) : j = t.heap.length :=
        (((owns_insert hid).mp hj).resolve_left (ho j)).1
      refine ⟨fun j j' hj hj' => (hlast hj).trans (hlast hj').symm, fun j r' hr' ho' => ?_, hq.strategy, hq.bounded⟩
      obtain rfl := hlast ⟨r', hr', ho'⟩
      rw [Threads.record_insert, if_pos rfl] at hr'
      obtain rfl := Option.some.inj hr'
      refine ⟨hs, ?_, hb⟩
      rw [h.inFlight_of_unowned ho, hf, add_zero]
      rfl
    · have hold {j : Nat} (hj : Owns (t.insert orderId r) id j) : Owns t id j :=
        ((owns_insert hid).mp hj).resolve_right fun h => he h.2
      refine ⟨fun j j' hj hj' => hq.unique j j' (hold hj) (hold hj'), fun j r' hr' ho' => ?_, hq.strategy, hq.bounded⟩
      obtain ⟨r₀, hr₀, -⟩ := hold ⟨r', hr', ho'⟩
      have hlt : j ≠ t.heap.length := by
        rintro rfl
        rw [Threads.record, List.getElem?_eq_none (Nat.le_refl _)] at hr₀
        cases hr₀
      rw [Threads.record_insert, if_neg hlt] at hr'
      exact hq.counted j r' hr' ho'

private theorem emitted_emit (e : OrderFilled) (id : String) :
    (t.emit e).emitted id = t.emitted id + if e.orderId = id then e.quantity else 0 :=
  Trace.total_concat _ t.fills e

/-- A fill of an order that has the intent's strategy and stays within the venue's quantity,
booked or in flight. -/
private theorem InvAt.emit {feed' : FeedPhase} {runner' : RunnerPhase} {e : OrderFilled} (h : InvAt feed runner t)
    (hfeed : feed'.submits = none ∨ feed' = feed ∧ ∀ intent, feed.submits ≠ some (e.orderId, intent))
    (hf : ∀ target n, feed' = .emitted target n → target = none)
    (hrefs : ∀ id, ∀ ref ∈ runner'.refs id, ref ∈ runner.refs id ∨ t.openOrders.get id = some ref)
    (hb : ∀ ids id ref target n, runner' = .emitted ids id ref target n → target.isSome ∧ 0 < n)
    (hn : ∀ id, (∃ j, Owns t id j) →
      runner'.inFlight id = runner.inFlight id + if e.orderId = id then e.quantity else 0)
    (hk : (t.placed.get e.orderId).isSome ∨ ∃ j, Owns t e.orderId j)
    (hp : ∀ intent, t.placed.get e.orderId = some intent → e.strategy = intent.strategy ∧
      t.emitted e.orderId + e.quantity ≤ t.broker e.orderId) :
    InvAt feed' runner' (t.emit e) where
  opened := h.opened
  running id ref hm := (hrefs id ref hm).elim (h.running id ref) (h.opened id ref)
  held id hne := by
    obtain ⟨ref, hm⟩ := List.exists_mem_of_ne_nil _ hne
    rcases hrefs id ref hm with hm | hm
    · exact h.held id (List.ne_nil_of_mem hm)
    · show (t.openOrders.get id).isSome
      rw [hm]
      rfl
  booking := hb
  known e' he' := by
    rcases List.mem_append.mp he' with he' | he'
    · exact h.known e' he'
    · obtain rfl := List.mem_singleton.mp he'
      exact hk
  feeding := hf
  submitting id intent hs := by
    rcases hfeed with hnone | ⟨rfl, hne⟩
    · rw [hnone] at hs
      cases hs
    · obtain ⟨hpl, ho, he⟩ := h.submitting id intent hs
      refine ⟨hpl, ho, ?_⟩
      rw [emitted_emit, he, if_neg, add_zero]
      rintro rfl
      exact hne intent hs
  answered id intent order ho := by
    rcases hfeed with hnone | ⟨rfl, -⟩
    · rcases ho with rfl | rfl <;> cases hnone
    · exact h.answered id intent order ho
  placed id intent hpl := by
    have hq := h.placed id intent hpl
    refine ⟨hq.unique, fun j r hr ho => ?_, fun e' he' hid => ?_, ?_⟩
    · obtain ⟨h₁, h₂, h₃⟩ := hq.counted j r hr ho
      refine ⟨h₁, ?_, h₃⟩
      rw [hn id ⟨j, r, hr, ho⟩, emitted_emit, ← h₂, add_assoc]
    · rcases List.mem_append.mp he' with he' | he'
      · exact hq.strategy e' he' hid
      · obtain rfl := List.mem_singleton.mp he'
        subst hid
        exact (hp intent hpl).1
    · rw [emitted_emit]
      split
      · next hid =>
        subst hid
        exact (hp intent hpl).2
      · rw [add_zero]
        exact hq.bounded

/-- What is in flight gets booked on the record it was found for. -/
private theorem InvAt.book {ids : List String} {ref j : Nat} {n : Int}
    (h : InvAt feed (.emitted ids orderId ref (some j) n) t) :
    InvAt feed (.settling ids orderId ref) (t.book (some j) n) := by
  have hj : Owns t orderId j := h.running orderId j (by simp [RunnerPhase.refs])
  have howns {id : String} {i : Nat} : Owns (t.book (some j) n) id i ↔ Owns t id i := by
    unfold Owns Threads.book
    rw [Threads.record_update]
    cases hr : t.record i with
    | none => simp
    | some r => by_cases hi : j = i <;> simp [hi]
  refine
    { opened := fun id ref h' => howns.mpr (h.opened id ref h')
      running := fun id i hm => howns.mpr (h.running id i ?_)
      held := fun id hne => h.held id ?_
      booking := fun _ _ _ _ _ h' => by cases h'
      known := fun e he => (h.known e he).imp_right fun ⟨i, hi⟩ => ⟨i, howns.mpr hi⟩
      feeding := h.feeding
      submitting := fun id intent hs => ?_
      answered := h.answered
      placed := fun id intent hp => ?_ }
  · simp only [RunnerPhase.refs] at hm ⊢
    split at hm
    · next he => rw [if_pos he]; exact List.mem_cons.mpr (.inl (List.mem_singleton.mp hm))
    · cases hm
  · simp only [RunnerPhase.refs] at hne ⊢
    split at hne
    · next he => rw [if_pos he]; exact List.cons_ne_nil _ _
    · exact absurd rfl hne
  · obtain ⟨hpl, ho, he⟩ := h.submitting id intent hs
    exact ⟨hpl, fun i hi => ho i (howns.mp hi), he⟩
  · have hq := h.placed id intent hp
    refine ⟨fun i i' hi hi' => hq.unique i i' (howns.mp hi) (howns.mp hi'), fun i r hr ho => ?_, hq.strategy, hq.bounded⟩
    obtain ⟨r₀, hr₀, rfl⟩ := Option.map_eq_some_iff.mp ((Threads.record_update t j (·.book n) i).symm.trans hr)
    by_cases hi : j = i
    · subst hi
      rw [if_pos rfl] at ho ⊢
      obtain ⟨h₁, h₂, h₃⟩ := hq.counted j r₀ hr₀ ho
      obtain ⟨r₁, hr₁, ho₁⟩ := hj
      obtain rfl := Option.some.inj (hr₀.symm.trans hr₁)
      obtain rfl := Option.some.inj (ho₁.symm.trans ho)
      have h₂ : r₀.filled + n = t.emitted orderId := by simpa [RunnerPhase.inFlight] using h₂
      exact ⟨h₁, (add_zero _).trans h₂, h₃⟩
    · rw [if_neg hi] at ho ⊢
      obtain ⟨h₁, h₂, h₃⟩ := hq.counted i r₀ hr₀ ho
      refine ⟨h₁, ?_, h₃⟩
      have hne : orderId ≠ id := by
        rintro rfl
        exact hi (hq.unique j i hj ⟨r₀, hr₀, ho⟩)
      simp only [RunnerPhase.inFlight, if_neg hne] at h₂ ⊢
      exact h₂

private theorem not_owns_of_unseen (hu : t.unseen orderId = true) (j : Nat) : ¬ Owns t orderId j := by
  rintro ⟨r, hr, hid⟩
  have hu : t.placed.get orderId = none ∧ (∀ r ∈ t.heap, r.order.orderId ≠ some orderId) ∧ orderId ∉ t.runner.rows :=
    of_decide_eq_true hu
  exact hu.2.1 r (List.mem_of_getElem? hr) hid

/-- The venue accepts an order under an id that is new. -/
private theorem InvAt.accept {intent : OrderIntent} {order : Order} (h : InvAt feed runner t)
    (hu : t.unseen orderId = true) :
    InvAt (.sent orderId intent order) runner { t with placed := t.placed.set orderId intent } := by
  have hnew : t.placed.get orderId = none := (of_decide_eq_true hu : _ ∧ _).1
  have hset (id : String) : (t.placed.set orderId intent).get id = if id = orderId then some intent else t.placed.get id :=
    Dict.get_set _ _ _ _
  have hnone : ∀ e ∈ t.fills, e.orderId ≠ orderId := by
    rintro e he rfl
    rcases h.known e he with hk | ⟨j, hj⟩
    · rw [hnew] at hk
      cases hk
    · exact not_owns_of_unseen hu j hj
  have hzero : t.emitted orderId = 0 := by
    apply List.sum_eq_zero
    intro x hx
    obtain ⟨e, he, rfl⟩ := List.mem_map.mp hx
    exact if_neg (hnone e he)
  refine
    { opened := h.opened
      running := h.running
      held := h.held
      booking := h.booking
      known := fun e he => (h.known e he).imp_left fun hk => ?_
      feeding := fun _ _ h' => by cases h'
      submitting := fun id intent' hs => ?_
      answered := fun _ _ _ h' => by rcases h' with h' | h' <;> cases h'
      placed := fun id intent' hp => ?_ }
  · show ((t.placed.set orderId intent).get e.orderId).isSome
    rw [hset, if_neg (hnone e he)]
    exact hk
  · obtain ⟨rfl, rfl⟩ := Prod.mk.inj (Option.some.inj hs)
    refine ⟨?_, fun j hj => not_owns_of_unseen (t := t) hu j hj, hzero⟩
    show (t.placed.set orderId intent).get orderId = some intent
    rw [hset, if_pos rfl]
  · have hp := (hset id).symm.trans hp
    split at hp
    · next he =>
      subst he
      refine ⟨fun j _ hj => absurd hj (not_owns_of_unseen hu j), fun j r hr ho => ?_, fun e he hid => ?_, ?_⟩
      · exact absurd ⟨r, hr, ho⟩ (not_owns_of_unseen hu j)
      · exact absurd hid (hnone e he)
      · exact hzero ▸ Int.natCast_nonneg _
    · have hq := h.placed id intent' hp
      exact ⟨hq.unique, hq.counted, hq.strategy, hq.bounded⟩

/-- The feed thread goes on with the same submission, or is done with it. -/
private theorem InvAt.feeds {feed' : FeedPhase} (h : InvAt feed runner t)
    (hs : feed'.submits = none ∨ feed'.submits = feed.submits) (hf : ∀ target n, feed' ≠ .emitted target n)
    (ha : ∀ id intent order, feed' = .accepted id intent order ∨ feed' = .announced id intent order →
      order.orderId = some id ∧ toInt order.filledQty ≤ t.broker id) : InvAt feed' runner t where
  opened := h.opened
  running := h.running
  held := h.held
  booking := h.booking
  known := h.known
  feeding target n he := absurd he (hf target n)
  submitting id intent hsub := by
    rcases hs with hs | hs
    · rw [hs] at hsub
      cases hsub
    · exact h.submitting id intent (hs ▸ hsub)
  answered := ha
  placed := h.placed

private theorem InvAt.unopened (h : InvAt feed runner t) {intent : OrderIntent}
    (hs : feed.submits = some (orderId, intent)) : t.openOrders.get orderId = none := by
  cases hg : t.openOrders.get orderId with
  | none => rfl
  | some ref => exact absurd (h.opened orderId ref hg) ((h.submitting orderId intent hs).2.1 ref)

private theorem feedStep_inv (i : FeedInput) (h : InvAt t.feed t.runner t) :
    InvAt (feedStep cfg i t).feed (feedStep cfg i t).runner (feedStep cfg i t) := by
  unfold feedStep
  split
  · split
    · next hu => exact (h.accept hu).enter
    · exact h
  · next orderId intent order hfeed =>
    rw [hfeed] at h
    apply InvAt.enter
    refine h.feeds (.inr rfl) (fun _ _ h' => by cases h') fun id intent' order' h' => ?_
    rcases h' with h' | h'
    · cases h'
      have hq := toInt_intCast (t.broker orderId : Int)
      rw [Int.cast_natCast] at hq
      exact ⟨rfl, hq.le⟩
    · cases h'
  · next orderId intent order hfeed =>
    rw [hfeed] at h
    apply InvAt.enter
    refine h.feeds (.inr rfl) (fun _ _ h' => by cases h') fun id intent' order' h' => ?_
    rcases h' with h' | h'
    · cases h'
    · cases h'
      exact h.answered _ _ _ (.inl rfl)
  · next orderId intent order hfeed =>
    rw [hfeed] at h
    have hidle : InvAt .idle t.runner t :=
      h.feeds (.inl rfl) (fun _ _ h' => by cases h') fun _ _ _ h' => by rcases h' with h' | h' <;> cases h'
    obtain ⟨hplaced, hown, hzero⟩ := h.submitting orderId intent rfl
    obtain ⟨hid, hqty⟩ := h.answered orderId intent order (.inr rfl)
    split
    · split
      · exact hidle.enter
      · next e he =>
        obtain ⟨hoid, hstrategy, hpos, hsum, -⟩ := fillOf_eq_some he
        have hnone : t.openOrders.get orderId = none := h.unopened rfl
        simp only [Threads.tracked, hnone, Option.bind_none, Option.map_none, Option.getD_none, zero_add] at hsum
        have hemit : InvAt (.emitted (t.openOrders.get orderId) e.quantity) t.runner (t.emit e) := by
          refine h.emit (.inl rfl) (fun target n h' => ?_) (fun _ _ h' => .inl h') h.booking
            (fun id hid => ?_) (.inl ?_) fun intent' hp => ?_
          · cases h'
            exact hnone
          · obtain ⟨j, hj⟩ := hid
            rw [if_neg, add_zero]
            rintro rfl
            exact hown j (hoid ▸ hj)
          · rw [hoid, hplaced]
            rfl
          · rw [hoid, hplaced] at hp
            obtain rfl := Option.some.inj hp
            refine ⟨hstrategy, ?_⟩
            rw [hoid, hzero, zero_add, hsum]
            exact hqty
        exact hemit.enter
    · apply InvAt.enter
      refine hidle.insert (r := track intent order i.now) hid (fun _ h' => by cases h') fun intent' hp => ?_
      rw [hplaced] at hp
      obtain rfl := Option.some.inj hp
      exact ⟨hown, rfl, hzero.symm, hqty⟩
  · next target n hfeed =>
    rw [hfeed] at h
    obtain rfl := h.feeding target n rfl
    apply InvAt.enter
    exact h.feeds (.inl rfl) (fun _ _ h' => by cases h') fun _ _ _ h' => by
      rcases h' with h' | h' <;> cases h'

private theorem harmless_cancel : Harmless t ref Record.cancel := harmless_touch _

private theorem countMiss_cases (cfg : Config) (orderId : String) (ref : Nat) (t : Threads) :
    countMiss cfg orderId ref t = t.update ref Record.miss ∨
      countMiss cfg orderId ref t = (t.update ref Record.miss).drop orderId := by
  unfold countMiss
  dsimp only
  split
  · exact .inr rfl
  · exact .inl rfl

private theorem InvAt.missed (h : InvAt feed runner t) (hr : ∀ id, runner.refs id = []) (orderId : String) (ref : Nat) :
    InvAt feed runner (countMiss cfg orderId ref t) := by
  have hm : InvAt feed runner (t.update ref Record.miss) := h.update harmless_miss
  rcases countMiss_cases cfg orderId ref t with he | he
  · rw [he]
    exact hm
  · rw [he]
    exact hm.drop hr

private theorem InvAt.touched (h : InvAt feed runner t) (ref : Nat) (status : Option OrderStatus) :
    InvAt feed runner (touchRecord ref status t) := by
  unfold touchRecord
  split
  · exact h
  · exact h.update (harmless_touch _)

private theorem InvAt.noted {r : Record} {i : RunnerInput} (h : InvAt feed runner t) (orderId : String) (ref : Nat) :
    InvAt feed runner (noteStatus cfg orderId ref r i t) := by
  unfold noteStatus
  extract_lets t₁
  have h₁ : InvAt feed runner t₁ := by
    unfold t₁
    split
    · split
      · exact h.update harmless_cancel
      · exact h
    · exact h
  exact h₁.update harmless_note

/-- Adoption of an order that `submit` has not placed. -/
private theorem InvAt.adopts {existing : List String} {entry : OrderBookEntry} {now : Rat} (h : InvAt feed runner t)
    (hp : entry.orderId ≠ "" → entry.orderId ∉ existing → (adopt cfg entry now).isSome →
      t.placed.get entry.orderId = none) : InvAt feed runner (adoptEntry cfg existing entry now t) := by
  unfold adoptEntry
  split
  · exact h
  · next hc =>
    rw [not_or] at hc
    split
    · exact h
    · next r hr =>
      have hnone := hp hc.1 hc.2 (by rw [hr]; rfl)
      refine h.insert (adopt_eq_some hr).1 (fun intent hs => ?_) fun intent hpl => ?_
      · rw [(h.submitting _ intent hs).1] at hnone
        cases hnone
      · rw [hnone] at hpl
        cases hpl

/-- The runner thread publishes what the record it holds has not counted. -/
private theorem InvAt.fills {ids : List String} {r : Record} {e : OrderFilled} {now : Rat}
    (h : InvAt feed (.noted ids orderId ref) t) (hr : t.record ref = some r)
    (he : t.fill cfg orderId r.intent r.order now = some e) :
    InvAt feed (.emitted ids orderId ref (t.openOrders.get orderId) e.quantity) (t.emit e) := by
  obtain ⟨hoid, hstrategy, hpos, hsum, -⟩ := fillOf_eq_some he
  have hown : Owns t orderId ref := h.running orderId ref (by simp [RunnerPhase.refs])
  have hopen : (t.openOrders.get orderId).isSome := h.held orderId (by simp [RunnerPhase.refs])
  obtain ⟨current, hcurrent⟩ := Option.isSome_iff_exists.mp hopen
  refine h.emit (.inr ⟨rfl, fun intent hs => ?_⟩) h.feeding (fun id ref' hm => ?_) (fun _ _ _ _ _ h' => ?_)
    (fun id _ => ?_) (.inr ⟨ref, hoid ▸ hown⟩) fun intent hp => ?_
  · exact (h.submitting _ intent hs).2.1 ref (hoid ▸ hown)
  · simp only [RunnerPhase.refs] at hm ⊢
    split at hm
    · next hid =>
      subst hid
      rcases List.mem_cons.mp hm with rfl | hm
      · exact .inl (by simp)
      · exact .inr (Option.mem_toList.mp hm)
    · cases hm
  · cases h'
    exact ⟨hopen, hpos⟩
  · simp [RunnerPhase.inFlight, hoid]
  · rw [hoid] at hp ⊢
    have hq := h.placed orderId intent hp
    have hcur : Owns t orderId current := h.opened orderId current hcurrent
    obtain rfl := hq.unique ref current hown hcur
    obtain ⟨r', hr', hid⟩ := hown
    obtain rfl := Option.some.inj (hr.symm.trans hr')
    obtain ⟨h₁, h₂, h₃⟩ := hq.counted ref r hr hid
    refine ⟨hstrategy.trans h₁, ?_⟩
    have hfilled : ((t.tracked orderId).map Record.filled).getD 0 = r.filled := by
      simp [Threads.tracked, hcurrent, hr]
    rw [hfilled] at hsum
    simp only [RunnerPhase.inFlight, add_zero] at h₂
    rw [← h₂, hsum]
    exact h₃

private def RunnerPhase.resting : RunnerPhase → Prop
  | .idle | .fetched _ | .adopting _ _ | .polling _ => True
  | _ => False

private theorem InvAt.rests (runner' : RunnerPhase) (h : InvAt feed runner t) (hn : ∀ id, runner.inFlight id = 0)
    (hr : runner'.resting) : InvAt feed runner' t := by
  cases runner' <;> first
    | exact hr.elim
    | exact h.goes _ (fun _ _ hm => by cases hm) (fun id => (hn id).symm) fun _ _ _ _ _ h' => by cases h'

private theorem InvAt.turns (h : InvAt feed runner t) (hf : t.feed = feed) :
    InvAt { t with runner }.feed { t with runner }.runner { t with runner } := by
  subst hf
  exact h.enter

private structure Untouched (t t' : Threads) : Prop where
  feed : t'.feed = t.feed
  placed : t'.placed = t.placed
  fills : t'.fills = t.fills

private theorem Untouched.trans {t' t'' : Threads} (h : Untouched t t') (h' : Untouched t' t'') : Untouched t t'' :=
  ⟨h'.feed.trans h.feed, h'.placed.trans h.placed, h'.fills.trans h.fills⟩

private theorem countMiss_untouched (cfg : Config) (orderId : String) (ref : Nat) (t : Threads) : Untouched t (countMiss cfg orderId ref t) := by
  rcases countMiss_cases cfg orderId ref t with he | he
  · rw [he]
    exact ⟨rfl, rfl, rfl⟩
  · rw [he]
    exact ⟨rfl, rfl, rfl⟩

private theorem touchRecord_untouched (ref : Nat) (status : Option OrderStatus) (t : Threads) :
    Untouched t (touchRecord ref status t) := by
  unfold touchRecord
  split
  · exact ⟨rfl, rfl, rfl⟩
  · exact ⟨rfl, rfl, rfl⟩

private theorem noteStatus_untouched (orderId : String) (ref : Nat) (r : Record) (i : RunnerInput) (t : Threads) :
    Untouched t (noteStatus cfg orderId ref r i t) := by
  unfold noteStatus
  split
  · split
    · exact ⟨rfl, rfl, rfl⟩
    · exact ⟨rfl, rfl, rfl⟩
  · exact ⟨rfl, rfl, rfl⟩

private theorem adoptEntry_untouched (existing : List String) (entry : OrderBookEntry) (now : Rat) (t : Threads) :
    Untouched t (adoptEntry cfg existing entry now t) := by
  unfold adoptEntry
  split
  · exact ⟨rfl, rfl, rfl⟩
  · split
    · exact ⟨rfl, rfl, rfl⟩
    · exact ⟨rfl, rfl, rfl⟩

private theorem runnerStep_inv (i : RunnerInput) (h : InvAt t.feed t.runner t)
    (ha : adoptsPlaced cfg t (.runner i) = false) :
    InvAt (runnerStep cfg i t).feed (runnerStep cfg i t).runner (runnerStep cfg i t) := by
  have hzero {runner : RunnerPhase} (hn : ∀ id, runner.inFlight id = 0) (hr : t.runner = runner) :
      ∀ id, t.runner.inFlight id = 0 := fun id => by rw [hr]; exact hn id
  unfold runnerStep
  split
  · next hr =>
    refine (h.rests _ (hzero (fun _ => rfl) hr) ?_).turns rfl
    split <;> trivial
  · next book hr => exact (h.rests (.adopting t.openOrders.keys book) (hzero (fun _ => rfl) hr) trivial).turns rfl
  · next hr => exact (h.rests .idle (hzero (fun _ => rfl) hr) trivial).turns rfl
  · next existing entry book hr =>
    have hrest : InvAt t.feed (.adopting existing book) t := h.rests _ (hzero (fun _ => rfl) hr) trivial
    refine (hrest.adopts fun h₁ h₂ h₃ => ?_).turns (adoptEntry_untouched existing entry i.now t).feed
    by_contra hp
    obtain ⟨intent, hp⟩ := Option.ne_none_iff_exists'.mp hp
    have hk : entry.orderId ∈ t.placed.keys := (Dict.mem_keys_iff _ _).mpr ⟨intent, hp⟩
    simp [adoptsPlaced, hr, h₁, h₂, h₃, hk] at ha
  · next hr => exact (h.rests .idle (hzero (fun _ => rfl) hr) trivial).turns rfl
  · next orderId ids hr =>
    have hrest : InvAt t.feed (.polling ids) t := h.rests _ (hzero (fun _ => rfl) hr) trivial
    split
    · exact hrest.turns rfl
    · next ref hg =>
      refine (hrest.goes (.holding ids orderId ref) (fun id ref' hm => .inr ?_) (fun _ => rfl) fun _ _ _ _ _ h' => by cases h').turns rfl
      simp only [RunnerPhase.refs] at hm
      split at hm
      · next hid =>
        obtain rfl := List.mem_singleton.mp hm
        exact hid ▸ hg
      · cases hm
  · next ids orderId ref hr =>
    have hask {t : Threads} (h : InvAt t.feed (.holding ids orderId ref) t) : InvAt t.feed (.asking ids orderId ref) t :=
      h.holding _ (fun _ => rfl) (fun _ => rfl) fun _ _ _ _ _ h' => by cases h'
    have hrest : InvAt t.feed (.polling ids) t := h.rests _ (hzero (fun _ => rfl) hr) trivial
    rw [hr] at h
    split
    · have hmiss : InvAt t.feed (.polling ids) (countMiss cfg orderId ref t) :=
        hrest.missed (fun _ => rfl) orderId ref
      dsimp only
      split
      · next hopen =>
        rcases countMiss_cases cfg orderId ref t with he | he
        · rw [he]
          exact (hask (t := t.update ref Record.miss) (h.update harmless_miss)).turns rfl
        · have hg := Dict.get_pop (t.update ref Record.miss).openOrders orderId orderId
          rw [if_pos rfl] at hg
          rw [he, Threads.drop, hg] at hopen
          cases hopen.1
      · exact hmiss.turns (countMiss_untouched cfg orderId ref t).feed
    · exact (hask h).turns rfl
  · next ids orderId ref hr =>
    have hrest : InvAt t.feed (.polling ids) t := h.rests _ (hzero (fun _ => rfl) hr) trivial
    rw [hr] at h
    split
    · next status avgPrice _ =>
      have hown : Owns t orderId ref := h.running orderId ref (by simp [RunnerPhase.refs])
      have hrefreshed : InvAt t.feed (.refreshed ids orderId ref) t :=
        h.holding _ (fun _ => rfl) (fun _ => rfl) fun _ _ _ _ _ h' => by cases h'
      exact (hrefreshed.update (harmless_refresh hown)).turns rfl
    · exact (hrest.touched ref _).turns (touchRecord_untouched ref _ t).feed
    · next touched _ =>
      have huntouched := (touchRecord_untouched ref touched t).trans (countMiss_untouched cfg orderId ref _)
      exact ((hrest.touched ref touched).missed (fun _ => rfl) orderId ref).turns huntouched.feed
  · next ids orderId ref hr =>
    split
    · exact h
    · split
      · exact h
      · rw [hr] at h
        have hnoted : InvAt t.feed (.noted ids orderId ref) t :=
          h.holding _ (fun _ => rfl) (fun _ => rfl) fun _ _ _ _ _ h' => by cases h'
        exact (hnoted.noted orderId ref).turns (noteStatus_untouched orderId ref _ i t).feed
  · next ids orderId ref hr =>
    split
    · exact h
    · next r hrec =>
      split
      · rw [hr] at h
        have hsettling : InvAt t.feed (.settling ids orderId ref) t :=
          h.holding _ (fun _ => rfl) (fun _ => rfl) fun _ _ _ _ _ h' => by cases h'
        exact hsettling.turns rfl
      · next e he =>
        split
        · rw [hr] at h
          exact (h.fills hrec he).turns rfl
        · exact h
  · next ids orderId ref target n hr =>
    rw [hr] at h
    obtain ⟨j, rfl⟩ := Option.isSome_iff_exists.mp (h.booking ids orderId ref target n rfl).1
    exact h.book.turns rfl
  · next ids orderId ref hr =>
    have hrest : InvAt t.feed (.polling ids) t := h.rests _ (hzero (fun _ => rfl) hr) trivial
    split
    · exact h
    · split
      · exact hrest.turns rfl
      · exact hrest.turns rfl
      · exact (hrest.drop fun _ => rfl).turns rfl
      · split
        · exact h
        · exact (hrest.drop fun _ => rfl).turns rfl
      · split
        · exact h
        · exact (hrest.drop fun _ => rfl).turns rfl

private theorem InvAt.executes (h : InvAt feed runner t) (id₀ : String) (n : Nat) :
    InvAt feed runner { t with broker := Function.update t.broker id₀ (t.broker id₀ + n) } := by
  have hle (id : String) : (t.broker id : Int) ≤ (Function.update t.broker id₀ (t.broker id₀ + n) id : Nat) := by
    rw [Function.update_apply]
    split
    · next he => subst he; omega
    · omega
  refine
    { opened := h.opened, running := h.running, held := h.held, booking := h.booking, known := h.known
      feeding := h.feeding
      submitting := h.submitting
      answered := fun id intent order ho => ?_
      placed := fun id intent hp => ?_ }
  · obtain ⟨h₁, h₂⟩ := h.answered id intent order ho
    exact ⟨h₁, h₂.trans (hle id)⟩
  · have hq := h.placed id intent hp
    refine ⟨hq.unique, fun j r hr ho => ?_, hq.strategy, hq.bounded.trans (hle id)⟩
    obtain ⟨h₁, h₂, h₃⟩ := hq.counted j r hr ho
    exact ⟨h₁, h₂, h₃.trans (hle id)⟩

private theorem threadStep_inv {m : ThreadMove} (h : InvAt t.feed t.runner t) (ha : adoptsPlaced cfg t m = false) :
    InvAt (threadStep cfg t m).feed (threadStep cfg t m).runner (threadStep cfg t m) := by
  cases m with
  | execute id n => exact h.executes id n
  | feed i => exact feedStep_inv i h
  | runner i => exact runnerStep_inv i h ha

private theorem inv_init : InvAt .idle .idle {} where
  opened _ _ h := by cases h
  running _ _ h := by cases h
  held _ h := absurd rfl h
  booking _ _ _ _ _ h := by cases h
  known _ h := by cases h
  feeding _ _ h := by cases h
  submitting _ _ h := by cases h
  answered _ _ _ h := by rcases h with h | h <;> cases h
  placed _ _ h := by cases h

private def bookedOf (t : Threads) (orderId : String) : Int := t.emitted orderId - t.runner.inFlight orderId

private theorem bookedOf_same {t' : Threads} (hf : t'.fills = t.fills)
    (hn : t'.runner.inFlight orderId = t.runner.inFlight orderId) : bookedOf t orderId ≤ bookedOf t' orderId := by
  unfold bookedOf Threads.emitted
  rw [hf, hn]

private theorem feedStep_booked (i : FeedInput) (orderId : String) :
    bookedOf t orderId ≤ bookedOf (feedStep cfg i t) orderId := by
  unfold feedStep
  split
  · split
    · exact bookedOf_same rfl rfl
    · exact le_refl _
  · exact bookedOf_same rfl rfl
  · exact bookedOf_same rfl rfl
  · split
    · split
      · exact bookedOf_same rfl rfl
      · next e he =>
        obtain ⟨-, -, hpos, -⟩ := fillOf_eq_some he
        have hemit := emitted_emit (t := t) e orderId
        show t.emitted orderId - t.runner.inFlight orderId ≤ (t.emit e).emitted orderId - t.runner.inFlight orderId
        rw [hemit]
        have hq : (0 : Int) ≤ if e.orderId = orderId then e.quantity else 0 := by split <;> omega
        omega
    · exact bookedOf_same rfl rfl
  · next target n _ =>
    unfold Threads.book
    split <;> exact bookedOf_same rfl rfl

private theorem runnerStep_booked (i : RunnerInput) (h : InvAt t.feed t.runner t) (orderId : String) :
    bookedOf t orderId ≤ bookedOf (runnerStep cfg i t) orderId := by
  unfold runnerStep
  split
  · next hr =>
    refine bookedOf_same rfl ?_
    rw [hr]
    dsimp only
    split <;> rfl
  · next hr => exact bookedOf_same rfl (by rw [hr]; rfl)
  · next hr => exact bookedOf_same rfl (by rw [hr]; rfl)
  · next hr => exact bookedOf_same (adoptEntry_untouched _ _ _ t).fills (by rw [hr]; rfl)
  · next hr => exact bookedOf_same rfl (by rw [hr]; rfl)
  · next hr =>
    split
    · exact bookedOf_same rfl (by rw [hr]; rfl)
    · exact bookedOf_same rfl (by rw [hr]; rfl)
  · next hr =>
    split
    · dsimp only
      split
      · exact bookedOf_same (countMiss_untouched cfg _ _ t).fills (by rw [hr]; rfl)
      · exact bookedOf_same (countMiss_untouched cfg _ _ t).fills (by rw [hr]; rfl)
    · exact bookedOf_same rfl (by rw [hr]; rfl)
  · next hr =>
    split
    · exact bookedOf_same rfl (by rw [hr]; rfl)
    · exact bookedOf_same (touchRecord_untouched _ _ t).fills (by rw [hr]; rfl)
    · exact bookedOf_same ((touchRecord_untouched _ _ t).trans (countMiss_untouched cfg _ _ _)).fills (by rw [hr]; rfl)
  · next ids o ref hr =>
    split
    · exact le_refl _
    · next r _ =>
      split
      · exact le_refl _
      · exact bookedOf_same (noteStatus_untouched o ref r i t).fills (by rw [hr]; rfl)
  · next ids o ref hr =>
    split
    · exact le_refl _
    · split
      · exact bookedOf_same rfl (by rw [hr]; rfl)
      · next e he =>
        split
        · have hoid := (fillOf_eq_some he).1
          have hemit := emitted_emit (t := t) e orderId
          show t.emitted orderId - t.runner.inFlight orderId ≤ (t.emit e).emitted orderId - (if o = orderId then e.quantity else 0)
          rw [hemit, hr, hoid]
          simp [RunnerPhase.inFlight]
        · exact le_refl _
  · next ids o ref target n hr =>
    rw [hr] at h
    have hpos := (h.booking ids o ref target n rfl).2
    have hsame : (t.book target n).emitted orderId = t.emitted orderId := by
      unfold Threads.book
      split <;> rfl
    show t.emitted orderId - t.runner.inFlight orderId ≤ (t.book target n).emitted orderId - 0
    rw [hsame, hr, RunnerPhase.inFlight]
    split <;> omega
  · next hr =>
    split
    · exact le_refl _
    · split
      · exact bookedOf_same rfl (by rw [hr]; rfl)
      · exact bookedOf_same rfl (by rw [hr]; rfl)
      · exact bookedOf_same rfl (by rw [hr]; rfl)
      · split
        · exact le_refl _
        · exact bookedOf_same rfl (by rw [hr]; rfl)
      · split
        · exact le_refl _
        · exact bookedOf_same rfl (by rw [hr]; rfl)

private theorem threadStep_booked (m : ThreadMove) (h : InvAt t.feed t.runner t) (orderId : String) :
    bookedOf t orderId ≤ bookedOf (threadStep cfg t m) orderId := by
  cases m with
  | execute id n => exact bookedOf_same rfl rfl
  | feed i => exact feedStep_booked i orderId
  | runner i => exact runnerStep_booked i h orderId

/-- The counter of a placed order is what was booked. -/
private theorem InvAt.counter_eq {intent : OrderIntent} {a : Int} (h : InvAt t.feed t.runner t)
    (hp : t.placed.get orderId = some intent) (ha : t.counter orderId = some a) : a = bookedOf t orderId := by
  obtain ⟨r, hr, rfl⟩ := Option.map_eq_some_iff.mp ha
  obtain ⟨ref, hg, hr⟩ := Option.bind_eq_some_iff.mp hr
  obtain ⟨r', hr', hid⟩ := h.opened orderId ref hg
  obtain rfl := Option.some.inj (hr.symm.trans hr')
  have hc := ((h.placed orderId intent hp).counted ref r hr hid).2.1
  unfold bookedOf
  omega

private theorem InvAt.tracks {intent : OrderIntent} (h : InvAt t.feed t.runner t)
    (hp : t.placed.get orderId = some intent) : WellTracked t orderId intent := by
  have hq := h.placed orderId intent hp
  have howns : ∀ ref ∈ t.refs orderId, Owns t orderId ref := by
    intro ref hm
    rcases List.mem_append.mp hm with hm | hm
    · exact h.opened orderId ref (Option.mem_toList.mp hm)
    · exact h.running orderId ref hm
  exact ⟨fun ref hm ref' hm' => hq.unique ref ref' (howns ref hm) (howns ref' hm'), hq.strategy, hq.bounded⟩

private theorem runnerStep_placed (i : RunnerInput) : (runnerStep cfg i t).placed = t.placed := by
  unfold runnerStep
  split
  · rfl
  · rfl
  · rfl
  · exact (adoptEntry_untouched _ _ _ t).placed
  · rfl
  · split <;> rfl
  · split
    · dsimp only
      split <;> exact (countMiss_untouched cfg _ _ t).placed
    · rfl
  · split
    · rfl
    · exact (touchRecord_untouched _ _ t).placed
    · exact ((touchRecord_untouched _ _ t).trans (countMiss_untouched cfg _ _ _)).placed
  · next ids o ref hr =>
    split
    · rfl
    · next r _ =>
      split
      · rfl
      · exact (noteStatus_untouched o ref r i t).placed
  · split
    · rfl
    · split
      · rfl
      · split <;> rfl
  · next target n _ =>
    unfold Threads.book
    split <;> rfl
  · split
    · rfl
    · split <;> first | rfl | (split <;> rfl)

/-- What a move places was unseen before it. -/
private theorem threadStep_placed {m : ThreadMove} {intent : OrderIntent}
    (hp : (threadStep cfg t m).placed.get orderId = some intent) :
    t.unseen orderId = true ∨ t.placed.get orderId = some intent := by
  cases m with
  | execute id n => exact .inr hp
  | runner i =>
    have hsame : (threadStep cfg t (.runner i)).placed = t.placed := runnerStep_placed i
    exact .inr (hsame ▸ hp)
  | feed i =>
    simp only [threadStep, feedStep] at hp
    split at hp
    · split at hp
      · next hu =>
        have hset := (Dict.get_set t.placed i.orderId orderId i.intent).symm.trans hp
        split at hset
        · next he => exact .inl (he ▸ hu)
        · exact .inr hset
      · exact .inr hp
    · exact .inr hp
    · exact .inr hp
    · split at hp
      · split at hp <;> exact .inr hp
      · exact .inr hp
    · unfold Threads.book at hp
      split at hp <;> exact .inr hp

private theorem threadRun_concat (moves : List ThreadMove) (m : ThreadMove) :
    threadRun cfg (moves ++ [m]) t = threadStep cfg (threadRun cfg moves t) m := by
  rw [threadRun, List.foldl_append]
  rfl

private def Snapshot (t : Threads) : Prop :=
  ∀ existing book, t.runner = .adopting existing book → ∀ entry ∈ book, entry.status ∉ OrderStatus.TERMINAL →
    entry.orderId ∈ t.placed.keys → entry.orderId ∈ existing

private theorem adopt_isSome {entry : OrderBookEntry} {now : Rat} (h : (adopt cfg entry now).isSome) :
    entry.status ∉ OrderStatus.TERMINAL := by
  intro hterminal
  rw [adopt, if_pos hterminal] at h
  cases h

/-- After a snapshot of that kind no placed order is taken for an orphan. -/
private theorem Snapshot.adoptsPlaced (cfg : Config) (h : Snapshot t) (m : ThreadMove) : adoptsPlaced cfg t m = false := by
  cases m with
  | execute id n => rfl
  | feed i => rfl
  | runner i =>
    rw [NTrade.Execution.adoptsPlaced]
    split
    · next existing entry book hr =>
      rw [decide_eq_false_iff_not]
      rintro ⟨-, hnew, hadopt, hplaced⟩
      exact hnew (h existing (entry :: book) hr entry List.mem_cons_self (adopt_isSome hadopt) hplaced)
    · rfl

/-- Only a snapshot and the rows after it lead to adoption. -/
private theorem runnerStep_adopting {i : RunnerInput} {existing : List String} {book : List OrderBookEntry}
    (h : (runnerStep cfg i t).runner = .adopting existing book) :
    (t.runner = .fetched book ∧ existing = t.openOrders.keys) ∨ ∃ entry, t.runner = .adopting existing (entry :: book) := by
  unfold runnerStep at h
  split at h
  · dsimp only at h
    split at h <;> cases h
  · next book' hr =>
    cases h
    exact .inl ⟨hr, rfl⟩
  · cases h
  · next existing' entry book' hr =>
    cases h
    exact .inr ⟨entry, hr⟩
  · cases h
  · split at h <;> cases h
  · split at h
    · dsimp only at h
      split at h <;> cases h
    · cases h
  · split at h <;> cases h
  · next hr =>
    split at h
    · rw [hr] at h
      cases h
    · split at h
      · rw [hr] at h
        cases h
      · cases h
  · next hr =>
    split at h
    · rw [hr] at h
      cases h
    · split at h
      · cases h
      · split at h
        · cases h
        · rw [hr] at h
          cases h
  · cases h
  · next hr =>
    split at h
    · rw [hr] at h
      cases h
    · split at h
      · cases h
      · cases h
      · cases h
      · split at h
        · rw [hr] at h
          cases h
        · cases h
      · split at h
        · rw [hr] at h
          cases h
        · cases h

private theorem feedStep_runner (i : FeedInput) : (feedStep cfg i t).runner = t.runner := by
  unfold feedStep
  split
  · split <;> rfl
  · rfl
  · rfl
  · split
    · split <;> rfl
    · rfl
  · unfold Threads.book
    split <;> rfl

private theorem Snapshot.step {m : ThreadMove} (h : Snapshot t) (hm : t.CaughtUp m) : Snapshot (threadStep cfg t m) := by
  intro existing book hr entry hentry hopen hplaced
  cases m with
  | execute id n => exact h existing book hr entry hentry hopen hplaced
  | feed i =>
    have hr : t.runner = .adopting existing book := (feedStep_runner i).symm.trans hr
    obtain ⟨intent, hplaced⟩ := (Dict.mem_keys_iff _ _).mp hplaced
    rcases threadStep_placed (m := .feed i) hplaced with hunseen | hplaced
    · -- the id is new, and so not in the order book at hand
      have hnew : _ ∧ _ ∧ entry.orderId ∉ t.runner.rows := of_decide_eq_true hunseen
      rw [hr] at hnew
      exact absurd (List.mem_map_of_mem hentry) hnew.2.2
    · exact h existing book hr entry hentry hopen ((Dict.mem_keys_iff _ _).mpr ⟨intent, hplaced⟩)
  | runner i =>
    have hsame : (threadStep cfg t (.runner i)).placed = t.placed := runnerStep_placed i
    rw [hsame] at hplaced
    rcases runnerStep_adopting hr with ⟨hfetched, rfl⟩ | ⟨first, hadopting⟩
    · rw [Threads.CaughtUp, hfetched] at hm
      exact hm entry hentry hopen hplaced
    · exact h existing (first :: book) hadopting entry (List.mem_cons_of_mem first hentry) hopen hplaced

private theorem threadRun_inv {moves : List ThreadMove} (h : Trace.Each (fun pre m => (threadRun cfg pre {}).CaughtUp m) moves) :
    InvAt (threadRun cfg moves {}).feed (threadRun cfg moves {}).runner (threadRun cfg moves {}) ∧
      Snapshot (threadRun cfg moves {}) := by
  induction moves using List.reverseRecOn with
  | nil => exact ⟨inv_init, fun _ _ hr => nomatch hr⟩
  | append_singleton moves m ih =>
    obtain ⟨hmoves, hm⟩ := Trace.each_concat.mp h
    obtain ⟨hinv, hsnapshot⟩ := ih hmoves
    rw [threadRun_concat]
    exact ⟨threadStep_inv hinv (hsnapshot.adoptsPlaced cfg m), hsnapshot.step hm⟩

end

variable {cfg}

/-- As long as the tracker has caught up with the order book at every snapshot, every schedule of the two threads keeps
one record of a placed order, which no other replaces and whose counter never falls, and its fills carry the strategy
that submitted it and stay within what the venue has executed. -/
theorem submitted_tracked_once (moves : List ThreadMove) (m : ThreadMove)
    (h : Trace.Each (fun pre m => (threadRun cfg pre {}).CaughtUp m) (moves ++ [m])) (orderId : String) (intent : OrderIntent)
    (hp : (threadRun cfg (moves ++ [m]) {}).placed.get orderId = some intent) :
    adoptsPlaced cfg (threadRun cfg moves {}) m = false ∧
      WellTracked (threadRun cfg (moves ++ [m]) {}) orderId intent ∧
      ∀ a b, (threadRun cfg moves {}).counter orderId = some a →
        (threadRun cfg (moves ++ [m]) {}).counter orderId = some b → a ≤ b := by
  obtain ⟨hmoves, hm⟩ := Trace.each_concat.mp h
  obtain ⟨hinv, hsnapshot⟩ := threadRun_inv hmoves
  have hnone := hsnapshot.adoptsPlaced cfg m
  have hinv' := threadStep_inv hinv hnone
  rw [threadRun_concat] at hp ⊢
  refine ⟨hnone, hinv'.tracks hp, fun a b hca hcb => ?_⟩
  have hbefore : (threadRun cfg moves {}).placed.get orderId = some intent := by
    refine (threadStep_placed hp).resolve_left fun hu => ?_
    obtain ⟨r, hr, -⟩ := Option.map_eq_some_iff.mp hca
    obtain ⟨ref, hg, -⟩ := Option.bind_eq_some_iff.mp hr
    exact not_owns_of_unseen hu ref (hinv.opened orderId ref hg)
  rw [hinv.counter_eq hbefore hca, hinv'.counter_eq hp hcb]
  exact threadStep_booked m hinv orderId

def placing (status : OrderStatus) : FeedInput :=
  { orderId := "V1", intent := marketBuy, order := { side := .buy, quantity := 10, orderType := .market },
    status, avgPrice := some 100 }

def openRow : OrderBookEntry :=
  { symbol := "TCS", orderId := "V1", side := "BUY", quantity := 10, status := "PENDING", exchange := "NSE" }

def pollFill (status : OrderStatus) : List ThreadMove :=
  [.runner {}, .runner {}, .runner {}, .runner { answer := .ok status (some 100) }, .runner {}, .runner {}]

def adoptedOver : List ThreadMove :=
  [.feed (placing .pending), .runner { reconcile := true, book := [openRow] }, .runner {}, .feed (placing .pending),
    .feed (placing .pending), .feed (placing .pending), .runner {}, .runner {}, .execute "V1" 4] ++
    pollFill .partiallyFilled

def adoptedAfterFill : List ThreadMove :=
  [.feed (placing .completed), .runner { reconcile := true, book := [openRow] }, .execute "V1" 10,
    .feed (placing .completed), .feed (placing .completed), .feed (placing .completed), .feed (placing .completed),
    .runner {}, .runner {}, .runner {}] ++ pollFill .completed

/-- A fill loses its strategy to the adopted record; a filled order is filled again. -/
theorem adoption_races_submission :
    ((threadRun oneStock adoptedOver {}).placed.get "V1" = some marketBuy ∧
      ¬ WellTracked (threadRun oneStock adoptedOver {}) "V1" marketBuy) ∧
    ((threadRun oneStock adoptedAfterFill {}).placed.get "V1" = some marketBuy ∧
      (threadRun oneStock adoptedAfterFill {}).emitted "V1" = 20 ∧
      ¬ WellTracked (threadRun oneStock adoptedAfterFill {}) "V1" marketBuy) := by
  have hstrategy : ¬ ∀ e ∈ (threadRun oneStock adoptedOver {}).fills, e.orderId = "V1" → e.strategy = marketBuy.strategy := by
    decide +kernel
  have htotal : (threadRun oneStock adoptedAfterFill {}).emitted "V1" = 20 := by decide +kernel
  have hbroker : (threadRun oneStock adoptedAfterFill {}).broker "V1" = 10 := by decide +kernel
  refine ⟨⟨by decide +kernel, fun h => hstrategy h.strategy⟩, by decide +kernel, htotal, fun h => ?_⟩
  have hbounded := h.bounded
  rw [htotal, hbroker] at hbounded
  omega

/-- A submission that reconciliation meets only once it is tracked, and its first fill. -/
theorem submitted_before_reconciliation :
    let moves : List ThreadMove := [.feed (placing .pending), .feed (placing .pending), .feed (placing .pending),
      .feed (placing .pending), .runner { reconcile := true, book := [openRow] }, .runner {}, .runner {}, .runner {},
      .execute "V1" 4] ++ pollFill .partiallyFilled
    WellTracked (threadRun oneStock (moves ++ [.runner {}]) {}) "V1" marketBuy := by
  intro moves
  exact (submitted_tracked_once moves (.runner {}) (by decide +kernel) "V1" marketBuy (by decide +kernel)).2.1

end NTrade.Execution
