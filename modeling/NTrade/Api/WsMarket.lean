import NTrade.Api.LiveCandlePump
import NTrade.Ui.MarketSocket

/-! The chart's socket and the pump, with the frames between them. A connection that breaks loses the frames
that were not read, or has them read late; the pump keeps its subscriptions when a connection closes. -/
namespace NTrade.Api
open NTrade.Domain NTrade.Lib NTrade.Ui

inductive WsReply where
  | error (detail : String)
  | liveStatus (status : LiveStatus)

def wsMarket (feedError : Option String) (now : Nat) (frame : Frame) (p : LiveCandlePump) : Option WsReply × LiveCandlePump :=
  match frame with
  | .subscribe sub =>
    let symbol := LiveCandlePump.symbolKey sub.symbol
    if symbol = "" then (some (.error "symbol required"), p)
    else match p.subscribe symbol (Literal.upper sub.exchange) sub.interval feedError now with
      | .ok (status, p) => (some (.liveStatus status), p)
      | .error detail => (some (.error detail), p)
  | .unsubscribe symbol => (none, p.unsubscribe (Literal.upper symbol))

def Canonical (symbol : String) : Prop :=
  symbol ≠ "" ∧ Literal.upper symbol = symbol ∧ LiveCandlePump.symbolKey symbol = symbol

def symbolOf : Frame → String
  | .subscribe sub => sub.symbol
  | .unsubscribe symbol => symbol

abbrev Asked := String × String × Nat

def asked (sub : Subscription) : Asked :=
  (LiveCandlePump.exchangeKey (Literal.upper sub.exchange), sub.interval, spanSeconds sub.interval)

def writeOf : Frame → Mirror.Write String Asked
  | .subscribe sub => .put sub.symbol (asked sub)
  | .unsubscribe symbol => .drop symbol

namespace LiveCandlePump
variable {p : LiveCandlePump}

def view (p : LiveCandlePump) (symbol : String) : Option Asked :=
  (p.subs.get symbol).map fun state => (state.exchange, state.interval, state.spanS)

def Streams (p : LiveCandlePump) : Prop := p.enabled = true ∧ p.realFeed = true

def HasRoom (p : LiveCandlePump) (symbol : String) : Prop := p.subs.get symbol ≠ none ∨ p.subs.size < MAX_SUBS

theorem view_set {symbol : String} {state : Sub} :
    view { p with subs := p.subs.set symbol state } =
      Function.update (view p) symbol (some (state.exchange, state.interval, state.spanS)) := by
  funext other
  rw [view, Mirror.get_set_eq, Function.update_apply, Function.update_apply]
  split_ifs
  · rfl
  · rfl

private theorem view_update {symbol : String} {state state' : Sub} (hg : p.subs.get symbol = some state)
    (hs : (state'.exchange, state'.interval, state'.spanS) = (state.exchange, state.interval, state.spanS)) :
    view { p with subs := p.subs.set symbol state' } = view p := by
  rw [view_set, hs]
  apply Function.update_eq_self_iff.mpr
  rw [view, hg]
  rfl

@[simp] theorem persistBar_view (state : Sub) (bar : PumpBar) : (p.persistBar state bar).view = p.view := by
  funext symbol
  rw [view, persistBar_subs, view]

/-- The pump follows the frames that it reads. -/
theorem view_wsMarket (hp : p.Streams) {frame : Frame} (hf : Canonical (symbolOf frame))
    (hroom : ∀ sub, frame = .subscribe sub → p.HasRoom sub.symbol) (feedError : Option String) (now : Nat) :
    (wsMarket feedError now frame p).2.view = (writeOf frame).apply p.view ∧ (wsMarket feedError now frame p).2.Streams := by
  cases frame with
  | subscribe sub =>
    rw [symbolOf] at hf
    obtain ⟨hne, -, hkey⟩ := hf
    have hfull : ¬ (p.subs.get sub.symbol = none ∧ MAX_SUBS ≤ p.subs.size) := by
      rintro ⟨hnone, hsize⟩
      rcases hroom sub (Eq.refl _) with hg | hlt
      · exact hg hnone
      · exact absurd hsize (Nat.not_le.mpr hlt)
    have hok : ∃ status state, p.subscribe sub.symbol (Literal.upper sub.exchange) sub.interval feedError now =
          .ok (status, { p with subs := p.subs.set sub.symbol state }) ∧
        (state.exchange, state.interval, state.spanS) = asked sub := by
      rw [subscribe, hkey]
      dsimp only
      rw [if_neg (by simp [hp.1]), if_neg (by simp [hp.2]), if_neg hfull]
      exact ⟨_, _, Eq.refl _, Eq.refl _⟩
    obtain ⟨status, state, hok, hstate⟩ := hok
    rw [wsMarket, hkey, if_neg hne, hok]
    exact ⟨view_set.trans (by rw [hstate]; rfl), hp⟩
  | unsubscribe symbol =>
    rw [symbolOf] at hf
    obtain ⟨-, hupper, hkey⟩ := hf
    refine ⟨?_, hp⟩
    rw [wsMarket, hupper, unsubscribe, hkey]
    funext other
    rw [view, Mirror.get_pop_eq, writeOf, Mirror.Write.apply, Function.update_apply, Function.update_apply]
    split_ifs
    · rfl
    · rfl

theorem persistCompleted_subs (state : Sub) (completed : Option PumpBar) (p : LiveCandlePump) :
    (p.persistCompleted state completed).subs = p.subs ∧ (p.persistCompleted state completed).enabled = p.enabled ∧
      (p.persistCompleted state completed).realFeed = p.realFeed := by
  cases completed with
  | none => exact ⟨Eq.refl _, Eq.refl _, Eq.refl _⟩
  | some bar =>
    rw [persistCompleted, Option.elim_some, persistBar]
    split_ifs <;> exact ⟨Eq.refl _, Eq.refl _, Eq.refl _⟩

private theorem applyTick_kept {price : Rat} {qty : Int} {now : Nat} {state : Sub} {applied : Applied}
    (ha : applyTick price qty now state = some applied) :
    (applied.state.exchange, applied.state.interval, applied.state.spanS) =
      (state.exchange, state.interval, state.spanS) := by
  rw [applyTick] at ha
  dsimp only at ha
  split_ifs at ha
  rw [← Option.some.inj ha]

/-- A tick moves the bar of its subscription and nothing that was asked. -/
theorem ingestTick_view (symbol : String) (price : Rat) (qty : Int) (now : Nat) (p : LiveCandlePump) :
    (p.ingestTick symbol price qty now).view = p.view ∧ (p.ingestTick symbol price qty now).enabled = p.enabled ∧
      (p.ingestTick symbol price qty now).realFeed = p.realFeed := by
  rw [ingestTick]
  cases hg : p.subs.get (symbolKey symbol) with
  | none => exact ⟨Eq.refl _, Eq.refl _, Eq.refl _⟩
  | some state =>
    have hrec : (p.recordTick state.symbol price qty now).subs = p.subs ∧
        (p.recordTick state.symbol price qty now).enabled = p.enabled ∧
        (p.recordTick state.symbol price qty now).realFeed = p.realFeed := by
      rw [recordTick]
      split_ifs <;> exact ⟨Eq.refl _, Eq.refl _, Eq.refl _⟩
    have hview : (p.recordTick state.symbol price qty now).view = p.view := by
      funext other
      rw [view, hrec.1, view]
    rw [← hrec.1] at hg
    dsimp only
    generalize p.recordTick state.symbol price qty now = q at hg hrec hview ⊢
    cases ha : applyTick price qty now { state with lastTick := some now } with
    | none =>
      have hset : view { q with subs := q.subs.set (symbolKey symbol) { state with lastTick := some now } } = q.view :=
        view_update hg (Eq.refl _)
      exact ⟨hset.trans hview, hrec.2⟩
    | some applied =>
      have hstate := applyTick_kept ha
      obtain ⟨hsubs, henabled, hfeed⟩ := persistCompleted_subs { state with lastTick := some now } applied.completed
        { q with subs := q.subs.set (symbolKey symbol) applied.state }
      refine ⟨?_, henabled.trans hrec.2.1, hfeed.trans hrec.2.2⟩
      rw [← hview, ← view_update hg hstate]
      funext other
      dsimp only [view]
      rw [hsubs]

private theorem edge_kept (now : Nat) {q : LiveCandlePump} {e : String × Sub}
    (hq : q.view e.1 = some (e.2.exchange, e.2.interval, e.2.spanS)) :
    (edge now q e).view = q.view ∧ (edge now q e).enabled = q.enabled ∧ (edge now q e).realFeed = q.realFeed := by
  rw [edge]
  split
  · exact ⟨Eq.refl _, Eq.refl _, Eq.refl _⟩
  · split_ifs
    · refine ⟨?_, ?_, persistBar_realFeed _ _⟩
      · rw [persistBar_view, view_set]
        exact Function.update_eq_self_iff.mpr hq.symm
      · rw [persistBar]
        split_ifs <;> rfl
    · exact ⟨Eq.refl _, Eq.refl _, Eq.refl _⟩

private theorem edges_kept (now : Nat) (entries : List (String × Sub)) (q : LiveCandlePump)
    (hq : ∀ e ∈ entries, q.view e.1 = some (e.2.exchange, e.2.interval, e.2.spanS)) :
    (entries.foldl (edge now) q).view = q.view ∧ (entries.foldl (edge now) q).enabled = q.enabled ∧
      (entries.foldl (edge now) q).realFeed = q.realFeed := by
  induction entries generalizing q with
  | nil => exact ⟨Eq.refl _, Eq.refl _, Eq.refl _⟩
  | cons e entries ih =>
    obtain ⟨hview, henabled, hfeed⟩ := edge_kept now (hq e List.mem_cons_self)
    obtain ⟨hview', henabled', hfeed'⟩ := ih (edge now q e) fun e' he' => by
      rw [hview]
      exact hq e' (List.mem_cons_of_mem _ he')
    exact ⟨hview'.trans hview, henabled'.trans henabled, hfeed'.trans hfeed⟩

theorem runOnce_kept (now : Nat) (p : LiveCandlePump) :
    (p.runOnce now).view = p.view ∧ (p.runOnce now).enabled = p.enabled ∧ (p.runOnce now).realFeed = p.realFeed := by
  refine edges_kept now p.subs.entries p fun e he => ?_
  rw [view, (Dict.mem_entries_iff p.subs e.1 e.2).mp he]
  rfl

end LiveCandlePump

namespace Chart
open MarketSocket
variable {m m' : MarketSocket}

def current (m : MarketSocket) : Option WebSocket :=
  (m.ws.bind fun i => m.sockets[i]?).filter fun s => s.readyState = .opened

def given (fs : List Frame) (s : WebSocket) : WebSocket := { s with unread := s.unread ++ fs }

theorem current_of_eq (hws : m'.ws = m.ws) (hs : m'.sockets = m.sockets) : current m' = current m := by
  rw [current, current, hws, hs]

theorem wsOpen_eq (m : MarketSocket) : m.wsOpen = (current m).isSome := by
  rw [wsOpen, current]
  cases m.ws.bind fun i => m.sockets[i]? with
  | none => rfl
  | some s => by_cases h : s.readyState = .opened <;> simp [h]

theorem current_send (frame : Frame) (m : MarketSocket) : current (m.send frame) = (current m).map (given [frame]) := by
  rw [send, current]
  cases hws : m.ws with
  | none => simp [current, hws]
  | some i =>
    rw [Option.elim_some, current, update]
    dsimp only
    rw [hws, Option.bind_some, Option.bind_some, List.getElem?_modify_eq]
    cases m.sockets[i]? with
    | none => rfl
    | some s => by_cases h : s.readyState = .opened <;> simp [h, WebSocket.send, given, Option.filter_some]

theorem current_sends (subs : List Subscription) (m : MarketSocket) :
    current (subs.foldl (fun m sub => m.send (.subscribe sub)) m) = (current m).map (given (subs.map .subscribe)) := by
  induction subs generalizing m with
  | nil =>
    rw [List.foldl_nil]
    cases current m <;> simp [given]
  | cons sub subs ih =>
    rw [List.foldl_cons, ih, current_send, Option.map_map]
    congr 1
    funext s
    simp [given]

theorem subs_send (frame : Frame) (m : MarketSocket) : (m.send frame).subs = m.subs := by
  rw [send]
  cases m.ws <;> rfl

theorem subs_onopen (m : MarketSocket) : m.onopen.subs = m.subs := by
  have hsends (subs : List Subscription) (m : MarketSocket) :
      (subs.foldl (fun m sub => m.send (.subscribe sub)) m).subs = m.subs := by
    induction subs generalizing m with
    | nil => rfl
    | cons sub subs ih => rw [List.foldl_cons, ih, subs_send]
  exact hsends _ _

theorem current_onopen (m : MarketSocket) : current m.onopen = (current m).map (given (m.subs.values.map .subscribe)) :=
  (current_sends _ _).trans (congrArg (Option.map _) (current_of_eq (Eq.refl _) (Eq.refl _)))

theorem current_subscribe (sub : Subscription) (m : MarketSocket) :
    current (m.subscribe sub) = (current m).map (given [.subscribe sub.wire]) ∧
      (m.subscribe sub).subs = m.subs.set sub.symbol sub.wire := by
  have hsame : current { m with subs := m.subs.set sub.symbol sub.wire } = current m :=
    current_of_eq (Eq.refl _) (Eq.refl _)
  rw [subscribe]
  split_ifs with ho
  · exact ⟨by rw [current_send, hsame], subs_send _ _⟩
  · rw [wsOpen_eq, hsame, Bool.not_eq_true, Option.isSome_eq_false_iff, Option.isNone_iff_eq_none] at ho
    exact ⟨by rw [hsame, ho]; rfl, Eq.refl _⟩

theorem current_unsubscribe (symbol : String) (m : MarketSocket) :
    current (m.unsubscribe symbol) = (current m).map (given [.unsubscribe symbol]) ∧
      (m.unsubscribe symbol).subs = m.subs.pop symbol := by
  have hsame : current { m with subs := m.subs.pop symbol } = current m := current_of_eq (Eq.refl _) (Eq.refl _)
  rw [unsubscribe]
  split_ifs with ho
  · exact ⟨by rw [current_send, hsame], subs_send _ _⟩
  · rw [wsOpen_eq, hsame, Bool.not_eq_true, Option.isSome_eq_false_iff, Option.isNone_iff_eq_none] at ho
    exact ⟨by rw [hsame, ho]; rfl, Eq.refl _⟩

/-- A socket that opens is the client's, and is told of everything. -/
theorem current_opens (hp : Phase m) {i : Nat} (hi : m.readyState i = some .connecting) :
    (∃ u, current (m.step (.opens i)) = some ⟨.opened, u ++ m.subs.values.map .subscribe⟩) ∧
      (m.step (.opens i)).subs = m.subs := by
  rw [step, if_pos hi]
  refine ⟨?_, subs_onopen _⟩
  have hlive : m.Live i := ⟨_, hi, by decide⟩
  cases hp with
  | fresh _ _ _ _ none =>
    rw [none i] at hi
    cases hi
  | up _ _ k ws _ _ single =>
    obtain rfl := single i hlive
    obtain ⟨s, hs, -⟩ := Option.map_eq_some_iff.mp hi
    refine ⟨s.unread, ?_⟩
    rw [current_onopen, current, update]
    dsimp only
    rw [ws, Option.bind_some, List.getElem?_modify_eq, hs]
    rfl
  | waiting _ _ _ _ dead => exact absurd hlive (dead i)
  | down _ _ _ _ closing _ =>
    rw [closing i hlive] at hi
    cases hi

def sentBy : MarketSocket.Act → List Frame
  | .subscribe sub => [.subscribe sub.wire]
  | .unsubscribe symbol => [.unsubscribe symbol]
  | _ => []

def subsBy : MarketSocket.Act → Dict String Subscription → Dict String Subscription
  | .subscribe sub, subs => subs.set sub.symbol sub.wire
  | .unsubscribe symbol, subs => subs.pop symbol
  | _, subs => subs

@[simp] theorem map_given_nil (s : Option WebSocket) : s.map (given []) = s := by
  cases s <;> simp [given]

private theorem current_none (h : m.ws = none) : current m = none := by
  rw [current, h]
  rfl

private theorem scheduleReconnect_kept (draw : Rat) (m : MarketSocket) :
    (m.scheduleReconnect draw).ws = m.ws ∧ (m.scheduleReconnect draw).sockets = m.sockets ∧
      (m.scheduleReconnect draw).subs = m.subs := by
  rw [scheduleReconnect]
  split_ifs <;> exact ⟨Eq.refl _, Eq.refl _, Eq.refl _⟩

private theorem onmessage_kept (msg : WsMessage) (now : Nat) (m : MarketSocket) :
    (m.onmessage msg now).ws = m.ws ∧ (m.onmessage msg now).sockets = m.sockets ∧
      (m.onmessage msg now).subs = m.subs := by
  cases msg with
  | liveStatus status =>
    rw [onmessage]
    split_ifs <;> exact ⟨Eq.refl _, Eq.refl _, Eq.refl _⟩
  | candle => exact ⟨Eq.refl _, Eq.refl _, Eq.refl _⟩
  | other => exact ⟨Eq.refl _, Eq.refl _, Eq.refl _⟩
  | malformed => exact ⟨Eq.refl _, Eq.refl _, Eq.refl _⟩

private theorem current_open (throws : Bool) (draw : Rat) (m : MarketSocket) :
    (current (m.open_ throws draw) = none ∨ current (m.open_ throws draw) = current m) ∧
      (m.open_ throws draw).subs = m.subs := by
  obtain ⟨hws, hsockets, hsubs⟩ := scheduleReconnect_kept draw m
  rw [open_]
  split_ifs
  · exact ⟨.inr (Eq.refl _), Eq.refl _⟩
  · exact ⟨.inr (current_of_eq hws hsockets), hsubs⟩
  · refine ⟨.inl ?_, Eq.refl _⟩
    simp [current]

private theorem current_fails (i : Nat) (m : MarketSocket) :
    current (m.update i WebSocket.close) = none ∨ current (m.update i WebSocket.close) = current m := by
  rw [current, current, update]
  dsimp only
  cases m.ws with
  | none => exact .inl (Eq.refl _)
  | some j =>
    rw [Option.bind_some, Option.bind_some, List.getElem?_modify]
    cases m.sockets[j]? with
    | none => exact .inl (Eq.refl _)
    | some s =>
      by_cases hij : i = j
      · left
        cases hs : s.readyState <;> simp [hij, WebSocket.close, hs, Option.filter_some]
      · right
        simp [hij]

private theorem still {s s' : Option WebSocket} (h : s' = s) : s' = s.map (given []) := h.trans (map_given_nil s).symm

/-- What a step does to the client's open socket. -/
theorem current_step (hp : Phase m) (a : MarketSocket.Act) :
    (m.step a).subs = subsBy a m.subs ∧ (current (m.step a) = none ∨
      current (m.step a) = (current m).map (given (sentBy a)) ∨
      ((m.step a).subs = m.subs ∧ ∃ u, current (m.step a) = some ⟨.opened, u ++ m.subs.values.map .subscribe⟩)) := by
  cases a with
  | connect throws draw =>
    obtain ⟨hcur, hsubs⟩ := current_open throws draw { m with closed := false, watchdog := true }
    exact ⟨hsubs, hcur.imp_right fun h => .inl (still h)⟩
  | disconnect =>
    refine ⟨?_, .inl (current_none (Eq.refl _))⟩
    rw [step, disconnect]
    cases hws : m.ws <;> rfl
  | subscribe sub =>
    obtain ⟨hcur, hsubs⟩ := current_subscribe sub m
    exact ⟨hsubs, .inr (.inl hcur)⟩
  | unsubscribe symbol =>
    obtain ⟨hcur, hsubs⟩ := current_unsubscribe symbol m
    exact ⟨hsubs, .inr (.inl hcur)⟩
  | onMessage fn =>
    rw [step, onMessage]
    split_ifs <;> exact ⟨Eq.refl _, .inr (.inl (still (Eq.refl _)))⟩
  | offMessage fn => exact ⟨Eq.refl _, .inr (.inl (still (Eq.refl _)))⟩
  | opens i =>
    by_cases hi : m.readyState i = some .connecting
    · obtain ⟨hcur, hsubs⟩ := current_opens hp hi
      exact ⟨hsubs, .inr (.inr ⟨hsubs, hcur⟩)⟩
    · rw [step, if_neg hi]
      exact ⟨Eq.refl _, .inr (.inl (still (Eq.refl _)))⟩
  | receives i msg now =>
    rw [step]
    split_ifs
    · obtain ⟨hws, hsockets, hsubs⟩ := onmessage_kept msg now m
      exact ⟨hsubs, .inr (.inl (still (current_of_eq hws hsockets)))⟩
    · exact ⟨Eq.refl _, .inr (.inl (still (Eq.refl _)))⟩
  | fails i =>
    exact ⟨Eq.refl _, (current_fails i m).imp_right fun h => .inl (still h)⟩
  | closes i draw =>
    rw [step]
    split_ifs
    · rw [onclose]
      dsimp only
      split_ifs
      · exact ⟨Eq.refl _, .inl (current_none (Eq.refl _))⟩
      · obtain ⟨hws, -, hsubs⟩ := scheduleReconnect_kept draw
          (({ m.update i fun s => { s with readyState := .closed } with ws := none } : MarketSocket).onStatus .reconnecting)
        exact ⟨hsubs, .inl (current_none hws)⟩
    · exact ⟨Eq.refl _, .inr (.inl (still (Eq.refl _)))⟩
  | fires throws draw =>
    rw [step]
    split_ifs
    · obtain ⟨hcur, hsubs⟩ := current_open throws draw { m with timer := none, attempts := m.attempts + 1 }
      exact ⟨hsubs, hcur.imp_right fun h => .inl (still h)⟩
    · exact ⟨Eq.refl _, .inr (.inl (still (Eq.refl _)))⟩
  | watches now =>
    rw [step]
    split_ifs
    · rw [watch]
      split_ifs <;> exact ⟨Eq.refl _, .inr (.inl (still (Eq.refl _)))⟩
    · exact ⟨Eq.refl _, .inr (.inl (still (Eq.refl _)))⟩

variable {P : String → Prop}

structure Fits (P : String → Prop) (m : MarketSocket) : Prop where
  unread : ∀ s ∈ m.sockets, ∀ frame ∈ s.unread, P (symbolOf frame)
  subs : ∀ symbol sub, m.subs.get symbol = some sub → sub.symbol = symbol ∧ P symbol

def AsksFit (P : String → Prop) (a : MarketSocket.Act) : Prop :=
  (∀ sub, a = .subscribe sub → P sub.symbol) ∧ ∀ symbol, a = .unsubscribe symbol → P symbol

private theorem fits_update (h : Fits P m) {g : WebSocket → WebSocket}
    (hg : ∀ s ∈ m.sockets, ∀ frame ∈ (g s).unread, P (symbolOf frame)) (i : Nat) : Fits P (m.update i g) := by
  refine ⟨fun s hs => ?_, h.subs⟩
  obtain ⟨j, hj⟩ := List.mem_iff_getElem?.mp hs
  rw [update, List.getElem?_modify] at hj
  obtain ⟨s', hs', rfl⟩ := Option.map_eq_some_iff.mp hj
  have hmem := List.mem_of_getElem? hs'
  split_ifs
  · exact hg s' hmem
  · exact h.unread s' hmem

private theorem fits_send (h : Fits P m) {frame : Frame} (hf : P (symbolOf frame)) : Fits P (m.send frame) := by
  rw [send]
  cases m.ws with
  | none => exact h
  | some i =>
    refine fits_update h (fun s hs other ho => ?_) i
    rw [WebSocket.send] at ho
    split_ifs at ho
    · rcases List.mem_append.mp ho with ho | ho
      · exact h.unread s hs other ho
      · exact List.mem_singleton.mp ho ▸ hf
    · exact h.unread s hs other ho

private theorem fits_sends (subs : List Subscription) (hs : ∀ sub ∈ subs, P sub.symbol) (h : Fits P m) :
    Fits P (subs.foldl (fun m sub => m.send (.subscribe sub)) m) := by
  induction subs generalizing m with
  | nil => exact h
  | cons sub subs ih =>
    exact ih (fun sub' hs' => hs sub' (List.mem_cons_of_mem _ hs')) (fits_send h (hs sub List.mem_cons_self))

private theorem fits_of_eq (h : Fits P m) (hs : m'.sockets = m.sockets) (hsubs : m'.subs = m.subs) : Fits P m' :=
  ⟨hs ▸ h.unread, hsubs ▸ h.subs⟩

private theorem fits_onopen (h : Fits P m) : Fits P m.onopen := by
  refine fits_sends _ (fun sub hs => ?_) (fits_of_eq h (Eq.refl _) (Eq.refl _))
  obtain ⟨e, he, rfl⟩ := List.mem_map.mp hs
  obtain ⟨hkey, hcanonical⟩ := h.subs e.1 e.2 ((Dict.mem_entries_iff _ _ _).mp he)
  rw [hkey]
  exact hcanonical

private theorem fits_open (h : Fits P m) (throws : Bool) (draw : Rat) : Fits P (m.open_ throws draw) := by
  obtain ⟨-, hsockets, hsubs⟩ := scheduleReconnect_kept draw m
  rw [open_]
  split_ifs
  · exact h
  · exact fits_of_eq h hsockets hsubs
  · refine ⟨fun s hs => ?_, h.subs⟩
    rcases List.mem_append.mp hs with hs | hs
    · exact h.unread s hs
    · rw [List.mem_singleton.mp hs]
      intro frame hf
      cases hf

theorem fits_step (h : Fits P m) {a : MarketSocket.Act} (ha : AsksFit P a) : Fits P (m.step a) := by
  cases a with
  | connect throws draw => exact fits_open (m := { m with closed := false, watchdog := true }) ⟨h.unread, h.subs⟩ throws draw
  | disconnect =>
    rw [step, disconnect]
    cases hws : m.ws with
    | none => exact fits_of_eq h (Eq.refl _) (Eq.refl _)
    | some i =>
      refine fits_of_eq (fits_update h (g := WebSocket.close) (fun s hs frame hf => ?_) i) (Eq.refl _) (Eq.refl _)
      exact h.unread s hs frame (unread_close s ▸ hf)
  | subscribe sub =>
    have hcanonical := ha.1 sub (Eq.refl _)
    have hsubs : Fits P { m with subs := m.subs.set sub.symbol sub.wire } := by
      refine ⟨h.unread, fun symbol sub' hget => ?_⟩
      dsimp only at hget
      rw [Dict.get_set] at hget
      split_ifs at hget with hs
      · rw [← Option.some.inj hget, hs]
        exact ⟨Eq.refl _, hcanonical⟩
      · exact h.subs symbol sub' hget
    rw [step, subscribe]
    split_ifs
    · exact fits_send hsubs hcanonical
    · exact hsubs
  | unsubscribe symbol =>
    have hsubs : Fits P { m with subs := m.subs.pop symbol } := by
      refine ⟨h.unread, fun other sub hget => ?_⟩
      dsimp only at hget
      rw [Dict.get_pop] at hget
      split_ifs at hget
      exact h.subs other sub hget
    rw [step, unsubscribe]
    split_ifs
    · exact fits_send hsubs (ha.2 symbol (Eq.refl _))
    · exact hsubs
  | onMessage fn =>
    rw [step, onMessage]
    split_ifs <;> exact fits_of_eq h (Eq.refl _) (Eq.refl _)
  | offMessage fn => exact fits_of_eq h (Eq.refl _) (Eq.refl _)
  | opens i =>
    rw [step]
    split_ifs
    · exact fits_onopen (fits_update (g := fun s => { s with readyState := .opened }) h h.unread i)
    · exact h
  | receives i msg now =>
    obtain ⟨-, hsockets, hsubs⟩ := onmessage_kept msg now m
    rw [step]
    split_ifs
    · exact fits_of_eq h hsockets hsubs
    · exact h
  | fails i =>
    refine fits_update h (fun s hs frame hf => ?_) i
    exact h.unread s hs frame (unread_close s ▸ hf)
  | closes i draw =>
    have hclosed := fits_update (g := fun s => { s with readyState := .closed }) h h.unread i
    rw [step]
    split_ifs
    · rw [onclose]
      dsimp only
      split_ifs
      · exact fits_of_eq hclosed (Eq.refl _) (Eq.refl _)
      · obtain ⟨-, hsockets, hsubs⟩ := scheduleReconnect_kept draw
          (({ m.update i fun s => { s with readyState := .closed } with ws := none } : MarketSocket).onStatus .reconnecting)
        exact fits_of_eq hclosed hsockets hsubs
    · exact h
  | fires throws draw =>
    rw [step]
    split_ifs
    · exact fits_open (m := { m with timer := none, attempts := m.attempts + 1 }) ⟨h.unread, h.subs⟩ throws draw
    · exact h
  | watches now =>
    rw [step]
    split_ifs
    · rw [watch]
      split_ifs <;> exact fits_of_eq h (Eq.refl _) (Eq.refl _)
    · exact h

end Chart

open Chart

structure LiveChart where
  client : MarketSocket := {}
  pump : LiveCandlePump

namespace LiveChart
variable {w : LiveChart}

inductive Act where
  | client (a : MarketSocket.Act)
  /-- The server reads the next frame of a socket. -/
  | reads (i : Nat) (feedError : Option String) (now : Nat)
  /-- The frames of a socket that is not open any more are lost. -/
  | loses (i : Nat)
  | ticks (symbol : String) (price : Rat) (qty : Int) (now : Nat)
  | runOnce (now : Nat)

def next (w : LiveChart) (i : Nat) : Option Frame := w.client.sockets[i]?.bind fun s => s.unread.head?

def readOne (s : WebSocket) : WebSocket := { s with unread := s.unread.tail }

def forget (s : WebSocket) : WebSocket := { s with unread := [] }

def step (w : LiveChart) : Act → LiveChart
  | .client a => { w with client := w.client.step a }
  | .reads i feedError now =>
    match w.next i with
    | none => w
    | some frame =>
      { client := w.client.update i readOne
        pump := (wsMarket feedError now frame w.pump).2 }
  | .loses i =>
    if (w.client.readyState i).any fun r => r = .closing ∨ r = .closed then
      { w with client := w.client.update i forget }
    else w
  | .ticks symbol price qty now => { w with pump := w.pump.ingestTick symbol price qty now }
  | .runOnce now => { w with pump := w.pump.runOnce now }

def run (pump : LiveCandlePump) (acts : List Act) : LiveChart := acts.foldl step { pump }

@[simp] theorem run_concat (pump : LiveCandlePump) (acts : List Act) (a : Act) :
    run pump (acts ++ [a]) = (run pump acts).step a := by
  simp [run]

/-- The page connects once and asks for canonical symbols; the pump has room for what it reads, and it reads
nothing more of an old socket once a new one is open. -/
inductive Allowed (w : LiveChart) : Act → Prop where
  | client {a : MarketSocket.Act} (once : w.client.ConnectsOnce a) (fit : AsksFit Canonical a) : Allowed w (.client a)
  | reads {i : Nat} {feedError : Option String} {now : Nat} (latest : current w.client = none ∨ w.client.ws = some i)
      (room : ∀ sub, w.next i = some (.subscribe sub) → w.pump.HasRoom sub.symbol) : Allowed w (.reads i feedError now)
  | loses {i : Nat} : Allowed w (.loses i)
  | ticks {symbol : String} {price : Rat} {qty : Int} {now : Nat} : Allowed w (.ticks symbol price qty now)
  | runOnce {now : Nat} : Allowed w (.runOnce now)

def asks (m : MarketSocket) : Dict String Asked := m.subs.map asked

/-- The pump has what the client asks for, once it has read the frames of the open socket. -/
structure Followed (w : LiveChart) : Prop where
  phase : w.client.Phase
  fits : Fits Canonical w.client
  streams : w.pump.Streams
  covers : ∀ s, current w.client = some s →
    Mirror.Covers (Mirror.settle (s.unread.map writeOf) w.pump.view) (asks w.client).get

/-- What a socket that opens sends is all that the client has. -/
private theorem resync_eq {m : MarketSocket} (h : Fits Canonical m) :
    (m.subs.values.map Frame.subscribe).map writeOf = Mirror.resync (asks m) := by
  rw [Dict.values, Mirror.resync, asks, Dict.map, List.map_map, List.map_map, List.map_map]
  apply List.map_congr_left
  intro e he
  obtain ⟨hkey, -⟩ := h.subs e.1 e.2 ((Dict.mem_entries_iff _ _ _).mp he)
  simp [writeOf, hkey]

private theorem covers_sent {u : List (Mirror.Write String Asked)} {view : String → Option Asked}
    {subs : Dict String Subscription} (h : Mirror.Covers (Mirror.settle u view) (subs.map asked).get)
    (a : MarketSocket.Act) :
    Mirror.Covers (Mirror.settle (u ++ (sentBy a).map writeOf) view) ((subsBy a subs).map asked).get := by
  cases a with
  | subscribe sub =>
    rw [sentBy, List.map_singleton, Mirror.settle_concat, subsBy, Dict.map_set, Mirror.get_set_eq]
    exact h.put sub.symbol (asked sub)
  | unsubscribe symbol =>
    rw [sentBy, List.map_singleton, Mirror.settle_concat, subsBy, Dict.map_pop, Mirror.get_pop_eq]
    exact h.drop symbol
  | _ => simpa [sentBy, subsBy] using h

private theorem followed_client (h : Followed w) {a : MarketSocket.Act} (once : w.client.ConnectsOnce a)
    (fit : AsksFit Canonical a) : Followed (w.step (.client a)) := by
  refine ⟨MarketSocket.phase_step h.phase once, fits_step h.fits fit, h.streams, fun s hs => ?_⟩
  rw [step] at hs ⊢
  dsimp only at hs ⊢
  obtain ⟨hsubs, hnone | hgiven | ⟨hsame, u, hopened⟩⟩ := current_step h.phase a
  · rw [hnone] at hs
    cases hs
  · rw [hgiven] at hs
    obtain ⟨s', hs', rfl⟩ := Option.map_eq_some_iff.mp hs
    rw [asks, hsubs, given, List.map_append]
    exact covers_sent (h.covers s' hs') a
  · rw [hopened] at hs
    rw [← Option.some.inj hs, List.map_append, Mirror.settle, List.foldl_append, asks, hsame, resync_eq h.fits]
    exact Mirror.covers_resync (asks w.client) _

private theorem readyState_kept {m : MarketSocket} (g : WebSocket → WebSocket) (hg : ∀ s, (g s).readyState = s.readyState)
    (i : Nat) : MarketSocket.SameLink m (m.update i g) := by
  refine ⟨Eq.refl _, Eq.refl _, Eq.refl _, Eq.refl _, fun j => ?_⟩
  rw [MarketSocket.readyState_update]
  split_ifs
  · rw [MarketSocket.readyState]
    congr 1
    funext s
    exact hg s
  · exact Eq.refl _

private theorem current_update {m : MarketSocket} (g : WebSocket → WebSocket) (hg : ∀ s, (g s).readyState = s.readyState)
    (i : Nat) : current (m.update i g) = if m.ws = some i then (current m).map g else current m := by
  rw [current, MarketSocket.update, current]
  dsimp only
  cases m.ws with
  | none => simp
  | some j =>
    rw [Option.bind_some, Option.bind_some, List.getElem?_modify]
    cases m.sockets[j]? with
    | none => simp
    | some s =>
      by_cases hij : i = j
      · by_cases hs : s.readyState = .opened <;> simp [hij, hg, hs, Option.filter_some]
      · simp [hij, Ne.symm hij]

private theorem followed_reads (h : Followed w) {i : Nat} (latest : current w.client = none ∨ w.client.ws = some i)
    (room : ∀ sub, w.next i = some (.subscribe sub) → w.pump.HasRoom sub.symbol) (feedError : Option String) (now : Nat) :
    Followed (w.step (.reads i feedError now)) := by
  rw [step]
  cases hnext : w.next i with
  | none => exact h
  | some frame =>
    obtain ⟨s₀, hs₀, hhead⟩ := Option.bind_eq_some_iff.mp hnext
    have hcons : s₀.unread = frame :: s₀.unread.tail := (List.cons_head?_tail hhead).symm
    have hfit := h.fits.unread s₀ (List.mem_of_getElem? hs₀) frame (hcons ▸ List.mem_cons_self)
    obtain ⟨hview, hstreams⟩ := LiveCandlePump.view_wsMarket h.streams hfit
      (fun sub hsub => room sub (hnext.trans (congrArg some hsub))) feedError now
    refine ⟨(readyState_kept readOne (fun _ => Eq.refl _) i).phase h.phase, ?_, hstreams, fun s hs => ?_⟩
    · exact fits_update h.fits (fun s hs other ho => h.fits.unread s hs other (List.mem_of_mem_tail ho)) i
    · dsimp only at hs ⊢
      rw [current_update readOne (fun _ => Eq.refl _)] at hs
      rw [hview]
      rcases latest with hnone | hws
      · rw [hnone] at hs
        split_ifs at hs
        all_goals cases hs
      · rw [if_pos hws] at hs
        obtain ⟨s', hs', rfl⟩ := Option.map_eq_some_iff.mp hs
        have hsame : s' = s₀ := by
          rw [current, hws, Option.bind_some, hs₀] at hs'
          exact (Option.some.inj (Option.filter_eq_some_iff.mp hs').1).symm
        have hcovers := h.covers s' hs'
        rw [hsame, hcons, List.map_cons, Mirror.settle_cons] at hcovers
        rw [hsame]
        exact hcovers

/-- A step keeps the pump following the client. -/
theorem followed_step (h : Followed w) {a : Act} (ha : Allowed w a) : Followed (w.step a) := by
  cases ha with
  | client once fit => exact followed_client h once fit
  | reads latest room => exact followed_reads h latest room _ _
  | @loses i =>
    rw [step]
    split_ifs with hi
    · refine ⟨(readyState_kept forget (fun _ => Eq.refl _) i).phase h.phase, ?_, h.streams, fun s hs => ?_⟩
      · refine fits_update h.fits (fun s hs frame hf => ?_) i
        cases hf
      · dsimp only at hs ⊢
        rw [current_update forget (fun _ => Eq.refl _)] at hs
        split_ifs at hs with hws
        · obtain ⟨s', hs', rfl⟩ := Option.map_eq_some_iff.mp hs
          rw [current, hws, Option.bind_some] at hs'
          obtain ⟨hget, hopened⟩ := Option.filter_eq_some_iff.mp hs'
          rw [MarketSocket.readyState, hget] at hi
          simp [of_decide_eq_true hopened] at hi
        · exact h.covers s hs
    · exact h
  | @ticks symbol price qty now =>
    obtain ⟨hview, henabled, hfeed⟩ := LiveCandlePump.ingestTick_view symbol price qty now w.pump
    refine ⟨h.phase, h.fits, ⟨henabled.trans h.streams.1, hfeed.trans h.streams.2⟩, fun s hs => ?_⟩
    rw [step, hview]
    exact h.covers s hs
  | @runOnce now =>
    obtain ⟨hview, henabled, hfeed⟩ := LiveCandlePump.runOnce_kept now w.pump
    refine ⟨h.phase, h.fits, ⟨henabled.trans h.streams.1, hfeed.trans h.streams.2⟩, fun s hs => ?_⟩
    rw [step, hview]
    exact h.covers s hs

theorem followed_run {pump : LiveCandlePump} (hp : pump.Streams) {acts : List Act}
    (h : Trace.Each (fun pre a => Allowed (run pump pre) a) acts) : Followed (run pump acts) := by
  induction acts using List.reverseRecOn with
  | nil =>
    refine ⟨MarketSocket.phase_init, ⟨fun s hs => ?_, fun symbol sub hget => ?_⟩, hp, fun s hs => ?_⟩
    · cases hs
    · cases hget
    · cases hs
  | append_singleton acts a ih =>
    obtain ⟨hacts, ha⟩ := Trace.each_concat.mp h
    rw [run_concat]
    exact followed_step (ih hacts) ha

/-- Whatever connections broke and whatever frames they lost, once the frames of the open socket are read the pump
has every subscription of the client as it was last asked for. -/
theorem subscriptions_kept {pump : LiveCandlePump} (hp : pump.Streams) {acts : List Act}
    (h : Trace.Each (fun pre a => Allowed (run pump pre) a) acts) {s : WebSocket}
    (hs : current (run pump acts).client = some s) (hread : s.unread = []) {symbol : String} {sub : Subscription}
    (hsub : (run pump acts).client.subs.get symbol = some sub) :
    ∃ state, (run pump acts).pump.subs.get symbol = some state ∧
      state.exchange = LiveCandlePump.exchangeKey (Literal.upper sub.exchange) ∧ state.interval = sub.interval ∧
      state.spanS = spanSeconds sub.interval := by
  have hcovers := (followed_run hp h).covers s hs symbol (asked sub) (by rw [asks, Dict.get_map, hsub]; rfl)
  rw [hread, List.map_nil, Mirror.settle_nil, LiveCandlePump.view] at hcovers
  obtain ⟨state, hstate, hasked⟩ := Option.map_eq_some_iff.mp hcovers
  obtain ⟨hexchange, hrest⟩ := Prod.mk.inj hasked
  obtain ⟨hinterval, hspan⟩ := Prod.mk.inj hrest
  exact ⟨state, hstate, hexchange, hinterval, hspan⟩

private def opening : List Act :=
  [.client (.connect false 0), .client (.opens 0), .client (.subscribe ⟨"NIFTY", "nfo", "5m", none, none⟩),
    .reads 0 none 0, .client (.closes 0 0)]

private theorem asksFit_nothing {P : String → Prop} {a : MarketSocket.Act} (h : sentBy a = []) : AsksFit P a := by
  constructor
  · rintro sub rfl
    cases h
  · rintro symbol rfl
    cases h

private theorem canonical_nifty : Canonical "NIFTY" := ⟨by decide, by decide +kernel, by decide +kernel⟩

private theorem allowed_opening :
    Trace.Each (fun pre a => Allowed (run { realFeed := true } pre) a) opening := by
  have hconnect := Trace.each_concat.mpr ⟨Trace.Each.nil (fun pre a => Allowed (run { realFeed := true } pre) a),
    Allowed.client (a := .connect false 0) (fun _ _ _ => .inl ⟨Eq.refl _, by rintro i ⟨r, hr, -⟩; cases hr⟩)
      (asksFit_nothing (Eq.refl _))⟩
  have hopens := Trace.each_concat.mpr ⟨hconnect,
    Allowed.client (a := .opens 0) (MarketSocket.connectsOnce_other (by decide)) (asksFit_nothing (Eq.refl _))⟩
  have hsubscribes := Trace.each_concat.mpr ⟨hopens,
    Allowed.client (a := .subscribe ⟨"NIFTY", "nfo", "5m", none, none⟩) (MarketSocket.connectsOnce_other (by decide))
      ⟨fun sub h => by cases h; exact canonical_nifty, fun symbol h => by cases h⟩⟩
  have hread : Allowed (run { realFeed := true } (opening.take 3)) (.reads 0 none 0) :=
    .reads (.inr (Eq.refl _)) fun _ _ => .inr (by decide)
  have hreads := Trace.each_concat.mpr ⟨hsubscribes, hread⟩
  exact Trace.each_concat.mpr ⟨hreads,
    Allowed.client (a := .closes 0 0) (MarketSocket.connectsOnce_other (by decide)) (asksFit_nothing (Eq.refl _))⟩

private def reopened : List Act := opening ++ [.client (.fires false 0)] ++ [.client (.opens 1)] ++ [.reads 1 none 0]

private theorem allowed_reopened : Trace.Each (fun pre a => Allowed (run { realFeed := true } pre) a) reopened := by
  have hfires := Trace.each_concat.mpr ⟨allowed_opening,
    Allowed.client (a := .fires false 0) (MarketSocket.connectsOnce_other (by decide)) (asksFit_nothing (Eq.refl _))⟩
  have hopens := Trace.each_concat.mpr ⟨hfires,
    Allowed.client (a := .opens 1) (MarketSocket.connectsOnce_other (by decide)) (asksFit_nothing (Eq.refl _))⟩
  have hread : Allowed (run { realFeed := true } (opening ++ [.client (.fires false 0)] ++ [.client (.opens 1)]))
      (.reads 1 none 0) := .reads (.inr (by decide +kernel)) fun _ _ => .inr (by decide +kernel)
  exact Trace.each_concat.mpr ⟨hopens, hread⟩

theorem subscriptions_kept_reopened :
    ∃ state, (run { realFeed := true } reopened).pump.subs.get "NIFTY" = some state ∧
      state.exchange = LiveCandlePump.exchangeKey (Literal.upper "nfo") ∧ state.interval = "5m" ∧
      state.spanS = spanSeconds "5m" := by
  have hs : current (run { realFeed := true } reopened).client = some ⟨.opened, []⟩ := by decide +kernel
  have hsub : (run { realFeed := true } reopened).client.subs.get "NIFTY" = some ⟨"NIFTY", "nfo", "5m", none, none⟩ := by
    decide +kernel
  have hstreams : LiveCandlePump.Streams { realFeed := true } := ⟨Eq.refl _, Eq.refl _⟩
  have hkept := subscriptions_kept hstreams allowed_reopened hs (Eq.refl _) hsub
  exact hkept

/-- The client does not have a symbol, the pump does, and nothing on its way is about it. -/
structure Lingers (symbol : String) (w : LiveChart) : Prop where
  fits : Fits (· ≠ symbol) w.client
  kept : w.pump.view symbol ≠ none

private theorem apply_other {frame : Frame} {symbol : String} (h : symbolOf frame ≠ symbol) (view : String → Option Asked) :
    (writeOf frame).apply view symbol = view symbol := by
  cases frame with
  | subscribe sub => exact Function.update_of_ne (Ne.symm h) _ _
  | unsubscribe other => exact Function.update_of_ne (Ne.symm h) _ _

private theorem lingers_step {symbol : String} (hf : Followed w) (h : Lingers symbol w) {a : Act} (ha : Allowed w a)
    (hother : ∀ c, a = .client c → AsksFit (· ≠ symbol) c) : Lingers symbol (w.step a) := by
  cases ha with
  | @client c once fit => exact ⟨fits_step h.fits (hother c (Eq.refl _)), h.kept⟩
  | @reads i feedError now latest room =>
    rw [step]
    cases hnext : w.next i with
    | none => exact h
    | some frame =>
      obtain ⟨s, hs, hhead⟩ := Option.bind_eq_some_iff.mp hnext
      have hmem := List.mem_of_getElem? hs
      have hframe : frame ∈ s.unread := List.mem_of_mem_head? hhead
      obtain ⟨hview, -⟩ := LiveCandlePump.view_wsMarket hf.streams (hf.fits.unread s hmem frame hframe)
        (fun sub hsub => room sub (hnext.trans (congrArg some hsub))) feedError now
      refine ⟨fits_update h.fits (fun s hs other ho => h.fits.unread s hs other (List.mem_of_mem_tail ho)) i, ?_⟩
      dsimp only
      rw [hview, apply_other (h.fits.unread s hmem frame hframe)]
      exact h.kept
  | @loses i =>
    rw [step]
    split_ifs
    · refine ⟨fits_update h.fits (fun s hs frame ho => ?_) i, h.kept⟩
      cases ho
    · exact h
  | @ticks other price qty now =>
    refine ⟨h.fits, ?_⟩
    rw [step, (LiveCandlePump.ingestTick_view other price qty now w.pump).1]
    exact h.kept
  | @runOnce now =>
    refine ⟨h.fits, ?_⟩
    rw [step, (LiveCandlePump.runOnce_kept now w.pump).1]
    exact h.kept

/-- What is unsubscribed while the socket is not open stays with the pump, whatever happens, until it is asked for
again. -/
theorem unsubscribed_unheard {pump : LiveCandlePump} (hp : pump.Streams) {pre suf : List Act} {symbol : String}
    (h : Trace.Each (fun pre a => Allowed (run pump pre) a) (pre ++ .client (.unsubscribe symbol) :: suf))
    (hdown : current (run pump pre).client = none)
    (hsilent : ∀ s ∈ (run pump pre).client.sockets, ∀ frame ∈ s.unread, symbolOf frame ≠ symbol)
    (hkept : (run pump pre).pump.subs.get symbol ≠ none)
    (hlater : ∀ c, .client c ∈ suf → AsksFit (· ≠ symbol) c) :
    (run pump (pre ++ .client (.unsubscribe symbol) :: suf)).client.subs.get symbol = none ∧
      (run pump (pre ++ .client (.unsubscribe symbol) :: suf)).pump.subs.get symbol ≠ none := by
  have hlingers : Lingers symbol (run pump (pre ++ .client (.unsubscribe symbol) :: suf)) := by
    induction suf using List.reverseRecOn with
    | nil =>
      have hfits := (followed_run hp (h.of_append (u := [.client (.unsubscribe symbol)]))).fits
      have hpop : current { (run pump pre).client with subs := (run pump pre).client.subs.pop symbol } = none :=
        (current_of_eq (Eq.refl _) (Eq.refl _)).trans hdown
      rw [run_concat, step]
      refine ⟨?_, fun hnone => hkept (Option.map_eq_none_iff.mp hnone)⟩
      rw [MarketSocket.step, MarketSocket.unsubscribe, if_neg]
      · refine ⟨hsilent, fun other sub hget => ?_⟩
        dsimp only at hget
        rw [Dict.get_pop] at hget
        split_ifs at hget with hne
        exact ⟨(hfits.subs other sub hget).1, hne⟩
      · rw [wsOpen_eq, hpop]
        decide
    | append_singleton suf a ih =>
      have happend : pre ++ .client (.unsubscribe symbol) :: (suf ++ [a]) =
          (pre ++ .client (.unsubscribe symbol) :: suf) ++ [a] := by simp
      rw [happend] at h ⊢
      obtain ⟨hacts, ha⟩ := Trace.each_concat.mp h
      rw [run_concat]
      refine lingers_step (followed_run hp hacts) (ih hacts fun c hc => hlater c (List.mem_append_left _ hc)) ha ?_
      rintro c rfl
      exact hlater c (by simp)
  constructor
  · cases hget : (run pump (pre ++ .client (.unsubscribe symbol) :: suf)).client.subs.get symbol with
    | none => rfl
    | some sub => exact absurd (Eq.refl _) (hlingers.fits.subs symbol sub hget).2
  · intro hnone
    exact hlingers.kept (by rw [LiveCandlePump.view, hnone]; rfl)

theorem unsubscribed_unheard_nifty :
    let w := run { realFeed := true }
      (opening ++ .client (.unsubscribe "NIFTY") :: [.client (.fires false 0), .client (.opens 1)])
    w.client.subs.get "NIFTY" = none ∧ w.pump.subs.get "NIFTY" ≠ none := by
  have hdrops := Trace.each_concat.mpr ⟨allowed_opening,
    Allowed.client (a := .unsubscribe "NIFTY") (MarketSocket.connectsOnce_other (by decide))
      ⟨fun sub h => (by cases h), fun symbol h => (by cases h; exact canonical_nifty)⟩⟩
  have hfires := Trace.each_concat.mpr ⟨hdrops,
    Allowed.client (a := .fires false 0) (MarketSocket.connectsOnce_other (by decide)) (asksFit_nothing (Eq.refl _))⟩
  have hopens := Trace.each_concat.mpr ⟨hfires,
    Allowed.client (a := .opens 1) (MarketSocket.connectsOnce_other (by decide)) (asksFit_nothing (Eq.refl _))⟩
  refine unsubscribed_unheard ⟨Eq.refl _, Eq.refl _⟩ hopens (by decide +kernel) (by decide +kernel) (by decide +kernel)
    fun c hc => asksFit_nothing ?_
  rcases List.mem_cons.mp hc with hc | hc
  · cases hc
    rfl
  · cases List.mem_singleton.mp hc
    rfl

end LiveChart
end NTrade.Api
