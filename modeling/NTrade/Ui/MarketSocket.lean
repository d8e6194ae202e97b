import NTrade.Lib.Mirror
import NTrade.Lib.Trace
import Mathlib.Algebra.Order.Field.Rat
import Mathlib.Tactic.Linarith
import Mathlib.Tactic.NormNum
import Mathlib.Tactic.FinCases

/-! The WebSocket of the chart, which reconnects, and the sockets of the browser that it has made. The
browser closes a socket some time after it is told to, and has it open or fail whenever it likes. -/
namespace NTrade.Ui
open NTrade.Lib

inductive ReadyState where
  | connecting | opened | closing | closed
  deriving DecidableEq, Repr

structure Subscription where
  symbol : String
  exchange : String
  interval : String
  strategy : Option String := none
  tickSize : Option Rat := none
  deriving DecidableEq, Repr

/-- A subscription as it is sent: an empty strategy is as good as none. -/
def Subscription.wire (sub : Subscription) : Subscription := { sub with strategy := sub.strategy.filter (· ≠ "") }

inductive Frame where
  | subscribe (sub : Subscription)
  | unsubscribe (symbol : String)
  deriving DecidableEq, Repr

inductive WsStatus where
  | connected | reconnecting | disconnected | stale | off
  deriving DecidableEq, Repr

inductive WsMessage where
  | liveStatus (status : String)
  | candle
  | other
  | malformed
  deriving DecidableEq, Repr

structure WebSocket where
  readyState : ReadyState := .connecting
  unread : List Frame := []
  deriving DecidableEq, Repr

namespace WebSocket

/-- `send` keeps nothing where the socket is not open. -/
def send (frame : Frame) (s : WebSocket) : WebSocket :=
  if s.readyState = .opened then { s with unread := s.unread ++ [frame] } else s

def close (s : WebSocket) : WebSocket :=
  match s.readyState with
  | .connecting | .opened => { s with readyState := .closing }
  | .closing | .closed => s

def live (s : WebSocket) : Bool := s.readyState ≠ .closed

end WebSocket

/-- The sockets are those that were made, the oldest first; `ws` is the place of one. -/
structure MarketSocket where
  ws : Option Nat := none
  /-- The delay, in milliseconds, of the timer that is set. -/
  timer : Option Rat := none
  attempts : Nat := 0
  closed : Bool := false
  subs : Dict String Subscription := Dict.empty
  listeners : List Nat := []
  serverStreaming : Bool := false
  lastCandleAt : Nat := 0
  watchdog : Bool := false
  sockets : List WebSocket := []
  /-- What `onStatus` was called with. -/
  statuses : List WsStatus := []
  /-- The messages that listeners were given. -/
  emitted : List (Nat × WsMessage) := []

namespace MarketSocket

def staleMs : Nat := 5000

def onStatus (status : WsStatus) (m : MarketSocket) : MarketSocket := { m with statuses := m.statuses ++ [status] }

def update (i : Nat) (f : WebSocket → WebSocket) (m : MarketSocket) : MarketSocket := { m with sockets := m.sockets.modify i f }

def send (frame : Frame) (m : MarketSocket) : MarketSocket := m.ws.elim m fun i => m.update i (WebSocket.send frame)

/-- `scheduleReconnect`, with what `Math.random` draws. -/
def scheduleReconnect (draw : Rat) (m : MarketSocket) : MarketSocket :=
  if m.timer.isSome ∨ m.closed then m
  else { m with timer := some (min 30000 (1000 * 2 ^ m.attempts) + (draw * 500 - 250)) }

/-- `open`, where the constructor of the socket may throw. -/
def open_ (throws : Bool) (draw : Rat) (m : MarketSocket) : MarketSocket :=
  if m.closed then m
  else if throws then m.scheduleReconnect draw
  else { m with ws := some m.sockets.length, sockets := m.sockets ++ [{}] }

def connect (throws : Bool) (draw : Rat) (m : MarketSocket) : MarketSocket :=
  { m with closed := false, watchdog := true }.open_ throws draw

/-- `onopen`: everything is subscribed again. -/
def onopen (m : MarketSocket) : MarketSocket :=
  m.subs.values.foldl (fun m sub => m.send (.subscribe sub)) ({ m with attempts := 0 }.onStatus .connected)

def emit (msg : WsMessage) (m : MarketSocket) : MarketSocket :=
  { m with emitted := m.emitted ++ m.listeners.map fun fn => (fn, msg) }

def onmessage (msg : WsMessage) (now : Nat) (m : MarketSocket) : MarketSocket :=
  match msg with
  | .liveStatus status =>
    if status = "off" then ({ m with serverStreaming := false }.onStatus .off).emit msg
    else if status = "stale" then (m.onStatus .stale).emit msg
    else { m with serverStreaming := true }.emit msg
  | .candle => ({ m with lastCandleAt := now, serverStreaming := true }.onStatus .connected).emit msg
  | .other => m.emit msg
  | .malformed => m

def onclose (draw : Rat) (m : MarketSocket) : MarketSocket :=
  let m := { m with ws := none }
  if m.closed then m.onStatus .disconnected else (m.onStatus .reconnecting).scheduleReconnect draw

def reconnect (throws : Bool) (draw : Rat) (m : MarketSocket) : MarketSocket :=
  { m with timer := none, attempts := m.attempts + 1 }.open_ throws draw

def watch (now : Nat) (m : MarketSocket) : MarketSocket :=
  if !m.serverStreaming then m
  else if 0 < m.lastCandleAt ∧ staleMs < now - m.lastCandleAt then m.onStatus .stale
  else if 0 < m.lastCandleAt then m.onStatus .connected
  else m

def wsOpen (m : MarketSocket) : Bool := (m.ws.bind fun i => m.sockets[i]?).any fun s => s.readyState = .opened

def subscribe (sub : Subscription) (m : MarketSocket) : MarketSocket :=
  let m := { m with subs := m.subs.set sub.symbol sub.wire }
  if m.wsOpen then m.send (.subscribe sub.wire) else m

def unsubscribe (symbol : String) (m : MarketSocket) : MarketSocket :=
  let m := { m with subs := m.subs.pop symbol }
  if m.wsOpen then m.send (.unsubscribe symbol) else m

def onMessage (fn : Nat) (m : MarketSocket) : MarketSocket :=
  if fn ∈ m.listeners then m else { m with listeners := m.listeners ++ [fn] }

def offMessage (fn : Nat) (m : MarketSocket) : MarketSocket := { m with listeners := m.listeners.erase fn }

def disconnect (m : MarketSocket) : MarketSocket :=
  let m := { m with closed := true, timer := none, watchdog := false, serverStreaming := false }
  { (m.ws.elim m fun i => m.update i WebSocket.close) with ws := none, listeners := [] }

inductive Act where
  | connect (throws : Bool) (draw : Rat)
  | disconnect
  | subscribe (sub : Subscription)
  | unsubscribe (symbol : String)
  | onMessage (fn : Nat)
  | offMessage (fn : Nat)
  | opens (i : Nat)
  | receives (i : Nat) (msg : WsMessage) (now : Nat)
  | fails (i : Nat)
  | closes (i : Nat) (draw : Rat)
  | fires (throws : Bool) (draw : Rat)
  | watches (now : Nat)

def readyState (m : MarketSocket) (i : Nat) : Option ReadyState := m.sockets[i]?.map WebSocket.readyState

/-- A step; what the browser cannot do now does nothing. -/
def step (m : MarketSocket) : Act → MarketSocket
  | .connect throws draw => m.connect throws draw
  | .disconnect => m.disconnect
  | .subscribe sub => m.subscribe sub
  | .unsubscribe symbol => m.unsubscribe symbol
  | .onMessage fn => m.onMessage fn
  | .offMessage fn => m.offMessage fn
  | .opens i =>
    if m.readyState i = some .connecting then (m.update i fun s => { s with readyState := .opened }).onopen else m
  | .receives i msg now => if m.readyState i = some .opened then m.onmessage msg now else m
  | .fails i => m.update i WebSocket.close
  | .closes i draw =>
    if (m.readyState i).any (· ≠ .closed) then (m.update i fun s => { s with readyState := .closed }).onclose draw else m
  | .fires throws draw => if m.timer.isSome then m.reconnect throws draw else m
  | .watches now => if m.watchdog then m.watch now else m

def run (acts : List Act) : MarketSocket := acts.foldl step {}

@[simp] theorem run_concat (acts : List Act) (a : Act) : run (acts ++ [a]) = (run acts).step a := by
  simp [run]

section Links
variable {m m' : MarketSocket}

def Live (m : MarketSocket) (i : Nat) : Prop := ∃ r, m.readyState i = some r ∧ r ≠ .closed

/-- There is one socket at most, and none while a timer is set that makes one. -/
def OneLink (m : MarketSocket) : Prop := (∀ i j, m.Live i → m.Live j → i = j) ∧ (m.timer.isSome → ∀ i, ¬ m.Live i)

def Idle (m : MarketSocket) : Prop := m.timer = none ∧ ∀ i, ¬ m.Live i

/-- A call of `connect` that finds no link, or does nothing as a timer is set and the constructor throws. -/
def ConnectsOnce (m : MarketSocket) (a : Act) : Prop :=
  ∀ throws draw, a = .connect throws draw → m.Idle ∨ (throws = true ∧ m.timer.isSome)

/-- What is told by the link: it was never asked for, it is up, it is waited for, or it was given up. -/
inductive Phase (m : MarketSocket) : Prop where
  | fresh (closed : m.closed = false) (watchdog : m.watchdog = false) (ws : m.ws = none) (timer : m.timer = none)
      (none : ∀ i, m.readyState i = none)
  | up (closed : m.closed = false) (watchdog : m.watchdog = true) (i : Nat) (ws : m.ws = some i) (timer : m.timer = none)
      (live : m.Live i) (single : ∀ j, m.Live j → j = i)
  | waiting (closed : m.closed = false) (watchdog : m.watchdog = true) (ws : m.ws = none) (timer : m.timer.isSome)
      (dead : ∀ i, ¬ m.Live i)
  | down (closed : m.closed = true) (watchdog : m.watchdog = false) (ws : m.ws = none) (timer : m.timer = none)
      (closing : ∀ i, m.Live i → m.readyState i = some .closing) (single : ∀ i j, m.Live i → m.Live j → i = j)

theorem Phase.oneLink (h : Phase m) : m.OneLink := by
  cases h with
  | fresh _ _ _ timer none =>
    refine ⟨fun i j hi => ?_, fun ht => ?_⟩
    · obtain ⟨r, hr, -⟩ := hi
      rw [none i] at hr
      cases hr
    · rw [timer] at ht
      cases ht
  | up _ _ i _ timer _ single =>
    refine ⟨fun j k hj hk => (single j hj).trans (single k hk).symm, fun ht => ?_⟩
    rw [timer] at ht
    cases ht
  | waiting _ _ _ _ dead => exact ⟨fun i _ hi => absurd hi (dead i), fun _ => dead⟩
  | down _ _ _ timer _ single =>
    refine ⟨single, fun ht => ?_⟩
    rw [timer] at ht
    cases ht

def SameLink (m m' : MarketSocket) : Prop :=
  m'.ws = m.ws ∧ m'.timer = m.timer ∧ m'.closed = m.closed ∧ m'.watchdog = m.watchdog ∧
    ∀ i, m'.readyState i = m.readyState i

theorem SameLink.live (h : SameLink m m') (i : Nat) : m'.Live i ↔ m.Live i := by
  rw [Live, Live, h.2.2.2.2 i]

theorem SameLink.phase (h : SameLink m m') (hp : Phase m) : Phase m' := by
  obtain ⟨hws, htimer, hclosed, hwatchdog, hstate⟩ := id h
  cases hp with
  | fresh closed watchdog ws timer none =>
    exact .fresh (hclosed.trans closed) (hwatchdog.trans watchdog) (hws.trans ws) (htimer.trans timer)
      fun i => (hstate i).trans (none i)
  | up closed watchdog i ws timer live single =>
    exact .up (hclosed.trans closed) (hwatchdog.trans watchdog) i (hws.trans ws) (htimer.trans timer)
      ((h.live i).mpr live) fun j hj => single j ((h.live j).mp hj)
  | waiting closed watchdog ws timer dead =>
    exact .waiting (hclosed.trans closed) (hwatchdog.trans watchdog) (hws.trans ws) (htimer ▸ timer)
      fun i hi => dead i ((h.live i).mp hi)
  | down closed watchdog ws timer closing single =>
    exact .down (hclosed.trans closed) (hwatchdog.trans watchdog) (hws.trans ws) (htimer.trans timer)
      (fun i hi => (hstate i).trans (closing i ((h.live i).mp hi)))
      fun i j hi hj => single i j ((h.live i).mp hi) ((h.live j).mp hj)

theorem SameLink.rfl : SameLink m m := ⟨Eq.refl _, Eq.refl _, Eq.refl _, Eq.refl _, fun _ => Eq.refl _⟩

theorem SameLink.trans {m'' : MarketSocket} (h : SameLink m m') (h' : SameLink m' m'') : SameLink m m'' :=
  ⟨h'.1.trans h.1, h'.2.1.trans h.2.1, h'.2.2.1.trans h.2.2.1, h'.2.2.2.1.trans h.2.2.2.1,
    fun i => (h'.2.2.2.2 i).trans (h.2.2.2.2 i)⟩

theorem readyState_update (i : Nat) (f : WebSocket → WebSocket) (j : Nat) :
    (m.update i f).readyState j =
      if i = j then m.sockets[j]?.map fun s => (f s).readyState else m.readyState j := by
  rw [readyState, update, List.getElem?_modify, readyState]
  cases m.sockets[j]? with
  | none => simp
  | some s => by_cases h : i = j <;> simp [h]

theorem readyState_update_self {i : Nat} {f : WebSocket → WebSocket} {r : ReadyState} (h : ∀ s, (f s).readyState = r) :
    (m.update i f).readyState i = (m.readyState i).map fun _ => r := by
  rw [readyState_update, if_pos (Eq.refl i), readyState, Option.map_map]
  exact congrArg (fun g => Option.map g m.sockets[i]?) (funext h)

theorem readyState_update_of_ne {i j : Nat} (h : i ≠ j) (f : WebSocket → WebSocket) :
    (m.update i f).readyState j = m.readyState j := by
  rw [readyState_update, if_neg h]

theorem sameLink_send (frame : Frame) (m : MarketSocket) : SameLink m (m.send frame) := by
  rw [send]
  cases m.ws with
  | none => exact .rfl
  | some i =>
    refine ⟨Eq.refl _, Eq.refl _, Eq.refl _, Eq.refl _, fun j => ?_⟩
    rw [Option.elim_some, readyState_update]
    split_ifs with h
    · rw [readyState]
      congr 1
      funext s
      rw [WebSocket.send]
      split_ifs <;> rfl
    · exact Eq.refl _

theorem sameLink_onopen (m : MarketSocket) : SameLink m m.onopen := by
  have hsends (subs : List Subscription) (m : MarketSocket) :
      SameLink m (subs.foldl (fun m sub => m.send (.subscribe sub)) m) := by
    induction subs generalizing m with
    | nil => exact .rfl
    | cons sub subs ih => exact (sameLink_send _ m).trans (ih _)
  have hfirst : SameLink m ({ m with attempts := 0 }.onStatus .connected) := .rfl
  exact hfirst.trans (hsends _ _)

theorem sameLink_onmessage (msg : WsMessage) (now : Nat) (m : MarketSocket) : SameLink m (m.onmessage msg now) := by
  cases msg with
  | liveStatus status =>
    rw [onmessage]
    split_ifs <;> exact .rfl
  | candle => exact .rfl
  | other => exact .rfl
  | malformed => exact .rfl

theorem sameLink_watch (now : Nat) (m : MarketSocket) : SameLink m (m.watch now) := by
  rw [watch]
  split_ifs <;> exact .rfl

theorem sameLink_subscribe (sub : Subscription) (m : MarketSocket) : SameLink m (m.subscribe sub) := by
  rw [subscribe]
  split_ifs
  · exact SameLink.trans .rfl (sameLink_send _ _)
  · exact .rfl

theorem sameLink_unsubscribe (symbol : String) (m : MarketSocket) : SameLink m (m.unsubscribe symbol) := by
  rw [unsubscribe]
  split_ifs
  · exact SameLink.trans .rfl (sameLink_send _ _)
  · exact .rfl

theorem sameLink_onMessage (fn : Nat) (m : MarketSocket) : SameLink m (m.onMessage fn) := by
  rw [onMessage]
  split_ifs <;> exact .rfl

theorem readyState_made (m : MarketSocket) (i : Nat) :
    readyState { m with ws := some m.sockets.length, sockets := m.sockets ++ [{}] } i =
      if i = m.sockets.length then some .connecting else m.readyState i := by
  rw [readyState, readyState, List.getElem?_append]
  rcases Nat.lt_trichotomy i m.sockets.length with h | h | h
  · rw [if_pos h, if_neg h.ne]
  · subst h
    rw [if_neg (Nat.lt_irrefl _), Nat.sub_self, if_pos (Eq.refl _)]
    rfl
  · rw [if_neg (by omega), if_neg h.ne', List.getElem?_eq_none (by simp; omega), List.getElem?_eq_none (by omega)]

private theorem phase_open (closed : m.closed = false) (watchdog : m.watchdog = true) (ws : m.ws = none)
    (timer : m.timer = none) (dead : ∀ i, ¬ m.Live i) (throws : Bool) (draw : Rat) : Phase (m.open_ throws draw) := by
  rw [open_, if_neg (by rw [closed]; decide)]
  cases throws with
  | true =>
    rw [if_pos (Eq.refl _), scheduleReconnect, if_neg (by rw [timer, closed]; decide)]
    exact .waiting closed watchdog ws (Eq.refl _) dead
  | false =>
    refine .up closed watchdog m.sockets.length (Eq.refl _) timer ⟨.connecting, ?_, by decide⟩ ?_
    · exact (readyState_made m _).trans (if_pos (Eq.refl _))
    · rintro j ⟨r, hr, hne⟩
      by_contra hj
      exact dead j ⟨r, ((readyState_made m j).trans (if_neg hj)).symm.trans hr, hne⟩

private theorem phase_connect (h : Phase m) {throws : Bool} {draw : Rat}
    (ha : m.Idle ∨ (throws = true ∧ m.timer.isSome)) : Phase (m.connect throws draw) := by
  rcases ha with ⟨htimer, hdead⟩ | ⟨rfl, htimer⟩
  · have hws : m.ws = none := by
      cases h with
      | fresh _ _ ws _ _ => exact ws
      | up _ _ i _ _ live _ => exact absurd live (hdead i)
      | waiting _ _ ws _ _ => exact ws
      | down _ _ ws _ _ _ => exact ws
    exact phase_open (m := { m with closed := false, watchdog := true }) (Eq.refl _) (Eq.refl _) hws htimer hdead _ _
  · have hnone (hn : m.timer = none) : False := by
      rw [hn] at htimer
      cases htimer
    cases h with
    | fresh _ _ _ timer _ => exact absurd timer hnone
    | up _ _ _ _ timer _ _ => exact absurd timer hnone
    | down _ _ _ timer _ _ => exact absurd timer hnone
    | waiting closed watchdog ws timer dead =>
      rw [connect, open_, if_neg Bool.false_ne_true, if_pos (Eq.refl _), scheduleReconnect, if_pos (.inl htimer)]
      exact .waiting (Eq.refl _) (Eq.refl _) ws timer dead

private theorem phase_reconnect (h : Phase m) (ht : m.timer.isSome) (throws : Bool) (draw : Rat) :
    Phase (m.reconnect throws draw) := by
  have hnone (hn : m.timer = none) : False := by
    rw [hn] at ht
    cases ht
  cases h with
  | fresh _ _ _ timer _ => exact absurd timer hnone
  | up _ _ _ _ timer _ _ => exact absurd timer hnone
  | down _ _ _ timer _ _ => exact absurd timer hnone
  | waiting closed watchdog ws timer dead => exact phase_open (m := { m with timer := none, attempts := m.attempts + 1 }) closed watchdog ws (Eq.refl _) dead _ _

private theorem phase_opens (h : Phase m) {i : Nat} (hi : m.readyState i = some .connecting) :
    Phase (m.update i fun s => { s with readyState := .opened }) := by
  have hlive : m.Live i := ⟨_, hi, by decide⟩
  have hself : (m.update i fun s => { s with readyState := .opened }).readyState i = some .opened := by
    rw [readyState_update_self (r := .opened) fun _ => Eq.refl _, hi]
    rfl
  cases h with
  | fresh _ _ _ _ none =>
    rw [none i] at hi
    cases hi
  | up closed watchdog k ws timer live single =>
    obtain rfl := single i hlive
    refine .up closed watchdog i ws timer ⟨_, hself, by decide⟩ fun j hj => ?_
    by_contra hne
    rw [Live, readyState_update_of_ne (Ne.symm hne)] at hj
    exact hne (single j hj)
  | waiting _ _ _ _ dead => exact absurd hlive (dead i)
  | down _ _ _ _ closing _ =>
    rw [closing i hlive] at hi
    cases hi

private theorem live_close (i j : Nat) : (m.update i WebSocket.close).Live j ↔ m.Live j := by
  rw [Live, Live, readyState_update]
  split_ifs with h
  · rw [readyState]
    cases hs : m.sockets[j]? with
    | none => simp
    | some s =>
      rw [Option.map_some, Option.map_some, WebSocket.close]
      cases hr : s.readyState <;> simp [hr]
  · exact Iff.rfl

private theorem closing_close {i : Nat} (h : m.readyState i = some .closing) (j : Nat) :
    (m.update j WebSocket.close).readyState i = some .closing := by
  rw [readyState_update]
  split_ifs
  · rw [readyState] at h
    cases hs : m.sockets[i]? with
    | none =>
      rw [hs] at h
      cases h
    | some s =>
      rw [hs] at h
      have hr : s.readyState = .closing := Option.some.inj h
      rw [Option.map_some, WebSocket.close, hr]
      exact congrArg some hr
  · exact h

private theorem phase_fails (h : Phase m) (i : Nat) : Phase (m.update i WebSocket.close) := by
  cases h with
  | fresh closed watchdog ws timer none =>
    refine .fresh closed watchdog ws timer fun j => ?_
    have hj := none j
    rw [readyState, Option.map_eq_none_iff] at hj
    rw [readyState_update, hj, none j]
    split_ifs <;> rfl
  | up closed watchdog k ws timer live single =>
    exact .up closed watchdog k ws timer ((live_close i k).mpr live) fun j hj => single j ((live_close i j).mp hj)
  | waiting closed watchdog ws timer dead =>
    exact .waiting closed watchdog ws timer fun j hj => dead j ((live_close i j).mp hj)
  | down closed watchdog ws timer closing single =>
    refine .down closed watchdog ws timer (fun j hj => ?_) fun j k hj hk => ?_
    · exact closing_close (closing j ((live_close i j).mp hj)) i
    · exact single j k ((live_close i j).mp hj) ((live_close i k).mp hk)

private theorem live_closed {i j : Nat} (h : (m.update i fun s => { s with readyState := .closed }).Live j) :
    j ≠ i ∧ m.Live j := by
  obtain ⟨r, hr, hne⟩ := h
  by_cases hj : j = i
  · subst hj
    rw [readyState_update_self (r := .closed) fun _ => Eq.refl _] at hr
    cases hs : m.readyState j with
    | none =>
      rw [hs] at hr
      cases hr
    | some r' =>
      rw [hs] at hr
      exact absurd (Option.some.inj hr).symm hne
  · rw [readyState_update_of_ne (Ne.symm hj)] at hr
    exact ⟨hj, r, hr, hne⟩

private theorem phase_closes (h : Phase m) {i : Nat} (hi : m.Live i) (draw : Rat) :
    Phase ((m.update i fun s => { s with readyState := .closed }).onclose draw) := by
  cases h with
  | fresh _ _ _ _ none =>
    obtain ⟨r, hr, -⟩ := hi
    rw [none i] at hr
    cases hr
  | up closed watchdog k ws timer live single =>
    obtain rfl := single i hi
    rw [onclose, if_neg (by simp [update, closed]), scheduleReconnect, if_neg (by simp [update, onStatus, closed, timer])]
    refine .waiting closed watchdog (Eq.refl _) (Eq.refl _) fun j hj => ?_
    obtain ⟨hne, hlive⟩ := live_closed (j := j) hj
    exact hne (single j hlive)
  | waiting _ _ _ _ dead => exact absurd hi (dead i)
  | down closed watchdog ws timer closing single =>
    rw [onclose, if_pos (by simp [update, closed])]
    refine .down closed watchdog (Eq.refl _) timer (fun j hj => ?_) fun j k hj hk => ?_
    · obtain ⟨hne, hlive⟩ := live_closed (j := j) hj
      exact (readyState_update_of_ne (Ne.symm hne) _).trans (closing j hlive)
    · exact single j k (live_closed hj).2 (live_closed hk).2

private theorem phase_down (h : Phase m) (hclosing : ∀ i, m.Live i → m.readyState i = some .closing) :
    Phase { m with closed := true, timer := none, watchdog := false, serverStreaming := false, ws := none, listeners := [] } :=
  .down (Eq.refl _) (Eq.refl _) (Eq.refl _) (Eq.refl _) hclosing h.oneLink.1

private theorem phase_disconnect (h : Phase m) : Phase m.disconnect := by
  have hnone (hws : m.ws = none) : m.disconnect =
      { m with closed := true, timer := none, watchdog := false, serverStreaming := false, ws := none, listeners := [] } := by
    simp [disconnect, hws]
  cases h with
  | fresh closed watchdog ws timer none =>
    rw [hnone ws]
    refine phase_down (.fresh closed watchdog ws timer none) fun i hi => ?_
    obtain ⟨r, hr, -⟩ := hi
    rw [none i] at hr
    cases hr
  | up closed watchdog i ws timer live single =>
    have hsome : m.disconnect = { m.update i WebSocket.close with
        closed := true, timer := none, watchdog := false, serverStreaming := false, ws := none, listeners := [] } := by
      simp [disconnect, ws, update]
    rw [hsome]
    refine phase_down (phase_fails (.up closed watchdog i ws timer live single) i) fun j hj => ?_
    obtain rfl := single j ((live_close i j).mp hj)
    obtain ⟨r, hr, hne⟩ := live
    rw [readyState] at hr
    obtain ⟨s, hs, rfl⟩ := Option.map_eq_some_iff.mp hr
    rw [readyState_update, if_pos (Eq.refl _), hs, Option.map_some, WebSocket.close]
    cases hstate : s.readyState with
    | connecting => rfl
    | opened => rfl
    | closing => exact congrArg some hstate
    | closed => exact absurd hstate hne
  | waiting closed watchdog ws timer dead =>
    rw [hnone ws]
    exact phase_down (.waiting closed watchdog ws timer dead) fun i hi => absurd hi (dead i)
  | down closed watchdog ws timer closing single =>
    rw [hnone ws]
    exact phase_down (.down closed watchdog ws timer closing single) closing

/-- A step keeps the link in a phase, unless it connects over a link. -/
theorem phase_step (h : Phase m) {a : Act} (ha : m.ConnectsOnce a) : Phase (m.step a) := by
  cases a with
  | connect throws draw => exact phase_connect h (ha throws draw (Eq.refl _))
  | disconnect => exact phase_disconnect h
  | subscribe sub => exact (sameLink_subscribe sub m).phase h
  | unsubscribe symbol => exact (sameLink_unsubscribe symbol m).phase h
  | onMessage fn => exact (sameLink_onMessage fn m).phase h
  | offMessage fn => exact SameLink.phase (m := m) ⟨Eq.refl _, Eq.refl _, Eq.refl _, Eq.refl _, fun _ => Eq.refl _⟩ h
  | opens i =>
    rw [step]
    split_ifs with hi
    · exact (sameLink_onopen _).phase (phase_opens h hi)
    · exact h
  | receives i msg now =>
    rw [step]
    split_ifs
    · exact (sameLink_onmessage msg now m).phase h
    · exact h
  | fails i => exact phase_fails h i
  | closes i draw =>
    rw [step]
    split_ifs with hi
    · refine phase_closes h ?_ draw
      cases hr : m.readyState i with
      | none => simp [hr] at hi
      | some r => exact ⟨r, hr, by simpa [hr] using hi⟩
    · exact h
  | fires throws draw =>
    rw [step]
    split_ifs with ht
    · exact phase_reconnect h ht throws draw
    · exact h
  | watches now =>
    rw [step]
    split_ifs
    · exact (sameLink_watch now m).phase h
    · exact h

theorem phase_init : Phase {} := .fresh (Eq.refl _) (Eq.refl _) (Eq.refl _) (Eq.refl _) fun _ => Eq.refl _

theorem phase_run {acts : List Act} (h : Trace.Each (fun pre a => (run pre).ConnectsOnce a) acts) : Phase (run acts) := by
  induction acts using List.reverseRecOn with
  | nil => exact phase_init
  | append_singleton acts a ih =>
    obtain ⟨hacts, ha⟩ := Trace.each_concat.mp h
    rw [run_concat]
    exact phase_step (ih hacts) ha

/-- A connect over a link makes a second one. -/
private theorem not_oneLink_connect {throws : Bool} {draw : Rat} (h : ¬ (m.Idle ∨ (throws = true ∧ m.timer.isSome))) :
    ¬ (m.connect throws draw).OneLink := by
  rw [not_or] at h
  obtain ⟨hidle, hthrows⟩ := h
  have hlive (htimer : m.timer = none) : ∃ i, m.Live i := by
    by_contra hdead
    exact hidle ⟨htimer, not_exists.mp hdead⟩
  intro hone
  rw [connect, open_, if_neg Bool.false_ne_true] at hone
  cases throws with
  | true =>
    have htimer : m.timer = none := by simpa using hthrows
    obtain ⟨i, hi⟩ := hlive htimer
    rw [if_pos (Eq.refl _), scheduleReconnect, if_neg (by simp [htimer])] at hone
    exact hone.2 (Eq.refl _) i hi
  | false =>
    rw [if_neg Bool.false_ne_true] at hone
    have hnew : Live { m with closed := false, watchdog := true, ws := some m.sockets.length, sockets := m.sockets ++ [{}] }
        m.sockets.length := ⟨.connecting, (readyState_made m _).trans (if_pos (Eq.refl _)), by decide⟩
    cases htimer : m.timer with
    | some delay => exact hone.2 (by simp [htimer]) _ hnew
    | none =>
      obtain ⟨i, r, hr, hne⟩ := hlive htimer
      have hi : i ≠ m.sockets.length := by
        rintro rfl
        simp [readyState] at hr
      exact hi (hone.1 i _ ⟨r, ((readyState_made m i).trans (if_neg hi)).trans hr, hne⟩ hnew)

/-- There is one link at most throughout a run exactly when nothing connects over a link. -/
theorem oneLink_iff (acts : List Act) :
    (∀ pre, pre <+: acts → (run pre).OneLink) ↔ Trace.Each (fun pre a => (run pre).ConnectsOnce a) acts := by
  constructor
  · rintro h pre a suf rfl throws draw rfl
    by_contra hover
    have hnext := h (pre ++ [.connect throws draw]) (by simp)
    rw [run_concat] at hnext
    exact not_oneLink_connect hover hnext
  · intro h pre hpre
    exact (phase_run (h.of_isPrefix hpre)).oneLink

end Links

section Wanted
variable {m : MarketSocket}

/-- What an act says about whether there is to be a link. -/
def wants : Act → Option Bool
  | .connect _ _ => some true
  | .disconnect => some false
  | _ => none

/-- The last word on whether there is to be a link. -/
def wanted (acts : List Act) : Bool := (Trace.last wants acts).getD false

theorem connectsOnce_other {a : Act} (h : wants a ≠ some true) : m.ConnectsOnce a := by
  rintro throws draw rfl
  exact absurd (Eq.refl _) h

/-- A page that connects when it is mounted, and never again. -/
theorem connectsOnce_mounted (throws : Bool) (draw : Rat) {acts : List Act} (h : ∀ a ∈ acts, wants a ≠ some true) :
    Trace.Each (fun pre a => (run pre).ConnectsOnce a) (.connect throws draw :: acts) := by
  intro pre a suf he
  cases pre with
  | nil =>
    refine fun _ _ _ => .inl ⟨Eq.refl _, fun i hi => ?_⟩
    obtain ⟨r, hr, -⟩ := hi
    cases hr
  | cons b pre =>
    obtain ⟨-, rfl⟩ := List.cons.inj he
    exact connectsOnce_other (h a (by simp))

def Drawn : Act → Prop
  | .connect _ draw | .closes _ draw | .fires _ draw => 0 ≤ draw ∧ draw < 1
  | _ => True

@[simp] theorem scheduleReconnect_watchdog (draw : Rat) (m : MarketSocket) :
    (m.scheduleReconnect draw).watchdog = m.watchdog := by
  rw [scheduleReconnect]
  split_ifs <;> rfl

@[simp] theorem open_watchdog (throws : Bool) (draw : Rat) (m : MarketSocket) :
    (m.open_ throws draw).watchdog = m.watchdog := by
  rw [open_]
  split_ifs <;> simp

private theorem watchdog_step (m : MarketSocket) (a : Act) : (m.step a).watchdog = (wants a).getD m.watchdog := by
  cases a with
  | connect throws draw => exact open_watchdog throws draw _
  | disconnect =>
    rw [step, disconnect]
    cases hws : m.ws <;> rfl
  | subscribe sub => exact (sameLink_subscribe sub m).2.2.2.1
  | unsubscribe symbol => exact (sameLink_unsubscribe symbol m).2.2.2.1
  | onMessage fn => exact (sameLink_onMessage fn m).2.2.2.1
  | offMessage fn => rfl
  | opens i =>
    rw [step]
    split_ifs
    · exact (sameLink_onopen _).2.2.2.1
    · rfl
  | receives i msg now =>
    rw [step]
    split_ifs
    · exact (sameLink_onmessage msg now m).2.2.2.1
    · rfl
  | fails i => rfl
  | closes i draw =>
    rw [step]
    split_ifs
    · rw [onclose]
      dsimp only
      split_ifs
      · rfl
      · exact scheduleReconnect_watchdog draw _
    · rfl
  | fires throws draw =>
    rw [step]
    split_ifs
    · exact open_watchdog throws draw _
    · rfl
  | watches now =>
    rw [step]
    split_ifs
    · exact (sameLink_watch now m).2.2.2.1
    · rfl

theorem watchdog_run (acts : List Act) : (run acts).watchdog = wanted acts := by
  induction acts using List.reverseRecOn with
  | nil => rfl
  | append_singleton acts a ih =>
    rw [run_concat, watchdog_step, ih, wanted, wanted, Trace.last_concat]
    cases wants a <;> rfl

/-- The delay of a reconnect, jitter included. -/
def Delayed (m : MarketSocket) : Prop := ∀ delay, m.timer = some delay → 750 ≤ delay ∧ delay < 30250

private theorem delayed_scheduleReconnect (h : m.Delayed) {draw : Rat} (hd : 0 ≤ draw ∧ draw < 1) :
    (m.scheduleReconnect draw).Delayed := by
  rw [scheduleReconnect]
  split_ifs
  · exact h
  · intro delay hdelay
    rw [← Option.some.inj hdelay]
    have hlow : (1000 : Rat) ≤ min 30000 (1000 * 2 ^ m.attempts) :=
      le_min (by norm_num) (le_mul_of_one_le_right (by norm_num) (one_le_pow₀ (by norm_num)))
    have hhigh : min (30000 : Rat) (1000 * 2 ^ m.attempts) ≤ 30000 := min_le_left _ _
    constructor <;> linarith [hd.1, hd.2]

private theorem delayed_open (h : m.Delayed) (throws : Bool) {draw : Rat} (hd : 0 ≤ draw ∧ draw < 1) :
    (m.open_ throws draw).Delayed := by
  rw [open_]
  split_ifs
  · exact h
  · exact delayed_scheduleReconnect h hd
  · exact h

private theorem delayed_step (h : m.Delayed) {a : Act} (ha : Drawn a) : (m.step a).Delayed := by
  have hsame {m' : MarketSocket} (hs : SameLink m m') : m'.Delayed := fun delay hdelay => h delay (hs.2.1 ▸ hdelay)
  cases a with
  | connect throws draw => exact delayed_open (m := { m with closed := false, watchdog := true }) h throws ha
  | disconnect =>
    intro delay hdelay
    rw [step, disconnect] at hdelay
    cases hws : m.ws <;> simp [hws, update] at hdelay
  | subscribe sub => exact hsame (sameLink_subscribe sub m)
  | unsubscribe symbol => exact hsame (sameLink_unsubscribe symbol m)
  | onMessage fn => exact hsame (sameLink_onMessage fn m)
  | offMessage fn => exact h
  | opens i =>
    rw [step]
    split_ifs
    · intro delay hdelay
      rw [(sameLink_onopen _).2.1] at hdelay
      exact h delay hdelay
    · exact h
  | receives i msg now =>
    rw [step]
    split_ifs
    · exact hsame (sameLink_onmessage msg now m)
    · exact h
  | fails i => exact h
  | closes i draw =>
    rw [step]
    split_ifs
    · rw [onclose]
      dsimp only
      split_ifs
      · exact h
      · refine delayed_scheduleReconnect (fun delay hdelay => ?_) ha
        exact h delay hdelay
    · exact h
  | fires throws draw =>
    rw [step]
    split_ifs
    · refine delayed_open (fun delay hdelay => ?_) throws ha
      cases hdelay
    · exact h
  | watches now =>
    rw [step]
    split_ifs
    · exact hsame (sameLink_watch now m)
    · exact h

theorem delayed_run {acts : List Act} (h : ∀ a ∈ acts, Drawn a) : (run acts).Delayed := by
  induction acts using List.reverseRecOn with
  | nil =>
    intro delay hdelay
    cases hdelay
  | append_singleton acts a ih =>
    rw [run_concat]
    exact delayed_step (ih fun b hb => h b (List.mem_append_left _ hb)) (h a (by simp))

/-- The link is never lost while it is wanted, and a new one is never further away than the bound on delays;
while none is wanted, the only socket left is one that closes, and no timer is set. -/
theorem link_kept {acts : List Act} (hc : Trace.Each (fun pre a => (run pre).ConnectsOnce a) acts)
    (hd : ∀ a ∈ acts, Drawn a) :
    (wanted acts = true → (∃ i, (run acts).ws = some i ∧ (run acts).Live i) ∨
      ∃ delay, (run acts).timer = some delay ∧ 750 ≤ delay ∧ delay < 30250) ∧
    (wanted acts = false → (run acts).timer = none ∧ ∀ i, (run acts).Live i → (run acts).readyState i = some .closing) := by
  rw [← watchdog_run]
  have hdelayed := delayed_run hd
  cases phase_run hc with
  | fresh closed watchdog ws timer none =>
    refine ⟨fun hw => absurd hw (by simp [watchdog]), fun _ => ⟨timer, fun i hi => ?_⟩⟩
    obtain ⟨r, hr, -⟩ := hi
    rw [none i] at hr
    cases hr
  | up closed watchdog i ws timer live single =>
    exact ⟨fun _ => .inl ⟨i, ws, live⟩, fun hw => absurd hw (by simp [watchdog])⟩
  | waiting closed watchdog ws timer dead =>
    refine ⟨fun _ => .inr ?_, fun hw => absurd hw (by simp [watchdog])⟩
    obtain ⟨delay, hdelay⟩ := Option.isSome_iff_exists.mp timer
    exact ⟨delay, hdelay, hdelayed delay hdelay⟩
  | down closed watchdog ws timer closing single =>
    exact ⟨fun hw => absurd hw (by simp [watchdog]), fun _ => ⟨timer, closing⟩⟩

theorem link_kept_dropped :
    (∃ i, (run [.connect false 0, .opens 0, .closes 0 (1 / 2)]).ws = some i ∧
        (run [.connect false 0, .opens 0, .closes 0 (1 / 2)]).Live i) ∨
      ∃ delay, (run [.connect false 0, .opens 0, .closes 0 (1 / 2)]).timer = some delay ∧ 750 ≤ delay ∧ delay < 30250 := by
  refine (link_kept (connectsOnce_mounted false 0 (by decide)) fun a ha => ?_).1 (Eq.refl _)
  fin_cases ha
  · exact ⟨le_rfl, by norm_num⟩
  · trivial
  · exact ⟨by norm_num, by norm_num⟩

def frames (m : MarketSocket) : List (List Frame) := m.sockets.map WebSocket.unread

theorem frames_update {f : WebSocket → WebSocket} (h : ∀ s, (f s).unread = s.unread) (i : Nat)
    (m : MarketSocket) : (m.update i f).frames = m.frames := by
  apply List.ext_getElem?
  intro j
  rw [frames, frames, update, List.getElem?_map, List.getElem?_map, List.getElem?_modify]
  cases m.sockets[j]? with
  | none => rfl
  | some s =>
    by_cases hi : i = j
    · simp [hi, h s]
    · simp [hi]

theorem unread_close (s : WebSocket) : s.close.unread = s.unread := by
  rw [WebSocket.close]
  split <;> rfl

private theorem wsOpen_of_none (h : m.ws = none) : m.wsOpen = false := by
  rw [wsOpen, h]
  rfl

/-- While no link is wanted, nothing is sent, no socket is made and no listener hears anything. -/
theorem silent_of_unwanted {acts : List Act} (hc : Trace.Each (fun pre a => (run pre).ConnectsOnce a) acts)
    (hw : wanted acts = false) {a : Act} (ha : wants a ≠ some true) :
    ((run acts).step a).frames = (run acts).frames ∧ ((run acts).step a).emitted = (run acts).emitted := by
  have hp := phase_run hc
  rw [← watchdog_run] at hw
  generalize run acts = m at hw hp
  have hdown : m.ws = none ∧ m.timer = none ∧ ∀ i, m.Live i → m.readyState i = some .closing := by
    cases hp with
    | fresh _ _ ws timer none =>
      refine ⟨ws, timer, fun i hi => ?_⟩
      obtain ⟨r, hr, -⟩ := hi
      rw [none i] at hr
      cases hr
    | up _ watchdog _ _ _ _ _ => simp [watchdog] at hw
    | waiting _ watchdog _ _ _ => simp [watchdog] at hw
    | down _ _ ws timer closing _ => exact ⟨ws, timer, closing⟩
  obtain ⟨hws, htimer, hclosing⟩ := hdown
  have hstate {i : Nat} {r : ReadyState} (hr : m.readyState i = some r) (hne : r ≠ .closed) : r = .closing :=
    Option.some.inj (hr.symm.trans (hclosing i ⟨r, hr, hne⟩))
  cases a with
  | connect throws draw => exact absurd (Eq.refl _) ha
  | disconnect => simp [step, disconnect, hws, frames]
  | subscribe sub => simp [step, subscribe, wsOpen_of_none, hws, frames]
  | unsubscribe symbol => simp [step, unsubscribe, wsOpen_of_none, hws, frames]
  | onMessage fn =>
    rw [step, onMessage]
    split_ifs <;> exact ⟨Eq.refl _, Eq.refl _⟩
  | offMessage fn => exact ⟨Eq.refl _, Eq.refl _⟩
  | opens i =>
    rw [step, if_neg (fun hi => absurd (hstate hi (by decide)) (by decide))]
    exact ⟨Eq.refl _, Eq.refl _⟩
  | receives i msg now =>
    rw [step, if_neg (fun hi => absurd (hstate hi (by decide)) (by decide))]
    exact ⟨Eq.refl _, Eq.refl _⟩
  | fails i => exact ⟨frames_update unread_close i m, Eq.refl _⟩
  | closes i draw =>
    rw [step]
    split_ifs
    · have hnone : (m.update i fun s => { s with readyState := .closed }).timer = none := htimer
      have hframes := frames_update (f := fun s => { s with readyState := .closed }) (fun _ => Eq.refl _) i m
      rw [onclose]
      dsimp only
      split_ifs
      · exact ⟨hframes, Eq.refl _⟩
      · rw [scheduleReconnect]
        split_ifs
        · exact ⟨hframes, Eq.refl _⟩
        · exact ⟨hframes, Eq.refl _⟩
    · exact ⟨Eq.refl _, Eq.refl _⟩
  | fires throws draw =>
    rw [step, if_neg (by simp [htimer])]
    exact ⟨Eq.refl _, Eq.refl _⟩
  | watches now =>
    rw [step, if_neg (by simp [hw])]
    exact ⟨Eq.refl _, Eq.refl _⟩

theorem quiet_closing :
    ((run [.connect false 0, .opens 0, .disconnect]).step (.receives 0 .candle 1000)).frames =
        (run [.connect false 0, .opens 0, .disconnect]).frames ∧
      ((run [.connect false 0, .opens 0, .disconnect]).step (.receives 0 .candle 1000)).emitted =
        (run [.connect false 0, .opens 0, .disconnect]).emitted :=
  silent_of_unwanted (connectsOnce_mounted false 0 (by decide)) (Eq.refl _) (by decide)

end Wanted
end MarketSocket
end NTrade.Ui
