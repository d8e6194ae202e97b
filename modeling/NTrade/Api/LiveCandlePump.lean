import NTrade.Engines.CandleEngine
import NTrade.Execution.Costs
import NTrade.Lib.Literal

/-! The pump of live candles: ticks of the feed are recorded, and form bars that start at the open of
the session. Its clock shows Indian time, in microseconds since the start of 1970. -/
namespace NTrade.Api
open NTrade.Domain NTrade.Lib NTrade.Engines

def spanSeconds (interval : String) : Nat := ((tableOf intervalSpanMinutes).lookup interval).getD 1 * 60

structure PumpBar extends Ohlcv where
  time : Int
  deriving DecidableEq, Repr

structure Sub where
  symbol : String
  exchange : String
  interval : String
  spanS : Nat
  barStart : Option Int := none
  bar : Option PumpBar := none
  lastTick : Option Nat := none
  deriving DecidableEq, Repr

structure TickRecord where
  ts : Nat
  symbol : String
  price : Rat
  qty : Int
  deriving DecidableEq, Repr

structure CandleMsg where
  symbol : String
  exchange : String
  interval : String
  candle : PumpBar
  ts : Nat
  deriving DecidableEq, Repr

structure LiveStatus where
  symbol : String
  exchange : String
  interval : String
  status : String
  source : String
  reason : Option String := none
  deriving DecidableEq, Repr

/-- Nothing streams where there is a reason that it does not. -/
def LiveStatus.of (symbol exchange interval source : String) (reason : Option String) : LiveStatus :=
  { symbol, exchange, interval, status := if reason.isSome then "off" else "streaming", source, reason }

def MAX_SUBS : Nat := 64

section Bars

def sessionStart (exchange : String) (now : Nat) : Int := now / DAY * DAY + sessionOpen exchange

/-- Seconds since the epoch of wall time in India. -/
def epochOf (wall : Int) : Int := (Timestamp.naive wall).epoch

def barTime (exchange : String) (spanS : Nat) (now : Nat) : Int :=
  let elapsed := max (now - sessionStart exchange now) 0
  epochOf (sessionStart exchange now) + elapsed / MICROS / spanS * spanS

def PumpBar.start (time : Int) (price : Rat) : PumpBar where
  time := time
  open_ := price
  high := price
  low := price
  close := price
  volume := 0

def PumpBar.take (price : Rat) (qty : Int) (bar : PumpBar) : PumpBar :=
  { bar with high := max bar.high price, low := min bar.low price, close := price, volume := bar.volume + max qty 0 }

structure Applied where
  bar : PumpBar
  /-- The bar that it completes. -/
  completed : Option PumpBar
  state : Sub

def Sub.roll (barStart : Int) (price : Rat) (state : Sub) : PumpBar × Option PumpBar :=
  match state.bar with
  | none => (PumpBar.start barStart price, none)
  | some bar => if state.barStart ≠ some barStart then (PumpBar.start barStart price, some bar) else (bar, none)

/-- `_apply_tick`, unless the tick is rejected. -/
def applyTick (price : Rat) (qty : Int) (now : Nat) (state : Sub) : Option Applied :=
  if price ≤ 0 ∨ isMarketOpen state.exchange now = false then none
  else
    let barStart := barTime state.exchange state.spanS now
    -- a tick of an earlier bar would corrupt the current one
    if state.barStart.any fun prev => barStart < prev then none
    else
      let bar := (state.roll barStart price).1.take price qty
      some { bar, completed := (state.roll barStart price).2,
             state := { state with barStart := some barStart, bar := some bar } }

def rounded (c : Ohlcv) : Ohlcv :=
  { c with
    open_ := Execution.round c.open_ 2
    high := Execution.round c.high 2
    low := Execution.round c.low 2
    close := Execution.round c.close 2 }

def PumpBar.shown (bar : PumpBar) : PumpBar := { bar with toOhlcv := rounded bar.toOhlcv }

end Bars

section Geometry

/-- Seconds from the epoch to the open of a day's session. -/
def openEpoch (exchange : String) (now : Nat) : Int :=
  now / DAY * 86400 + if exchange.toUpper = "MCX" then 12600 else 13500

def sinceOpen (exchange : String) (now : Nat) : Int := (now % DAY - sessionOpen exchange) / MICROS

theorem epochOf_start (exchange : String) (now : Nat) :
    epochOf (sessionStart exchange now) = openEpoch exchange now := by
  rw [epochOf, Timestamp.epoch, Timestamp.micros, sessionStart, openEpoch, sessionOpen, MICROS, IST, DAY, MICROS]
  split_ifs
  · rw [timeOfDay, MICROS, Int.tdiv_eq_ediv_of_nonneg (by omega)]
    omega
  · rw [timeOfDay, MICROS, Int.tdiv_eq_ediv_of_nonneg (by omega)]
    omega

theorem epochOf_now {exchange : String} {now : Nat} (h : inSession exchange now = true) :
    epochOf now = openEpoch exchange now + sinceOpen exchange now := by
  obtain ⟨ho, -⟩ := of_decide_eq_true h
  rw [epochOf, Timestamp.epoch, Timestamp.micros, openEpoch, sinceOpen]
  rw [sessionOpen, DAY, MICROS] at ho
  rw [sessionOpen, MICROS, IST, DAY, MICROS]
  split_ifs at ho ⊢
  · rw [timeOfDay, MICROS] at ho ⊢
    rw [Int.tdiv_eq_ediv_of_nonneg (by omega)]
    omega
  · rw [timeOfDay, MICROS] at ho ⊢
    rw [Int.tdiv_eq_ediv_of_nonneg (by omega)]
    omega

theorem sinceOpen_nonneg {exchange : String} {now : Nat} (h : inSession exchange now = true) :
    0 ≤ sinceOpen exchange now := by
  obtain ⟨ho, -⟩ := of_decide_eq_true h
  exact Int.ediv_nonneg (Int.sub_nonneg_of_le ho) (by decide)

/-- The start of a bar, from the open of its session. -/
theorem barTime_eq {exchange : String} {now : Nat} (h : inSession exchange now = true) (spanS : Nat) :
    barTime exchange spanS now = openEpoch exchange now + sinceOpen exchange now / spanS * spanS := by
  have hsub : (now : Int) - sessionStart exchange now = now % DAY - sessionOpen exchange := by
    have := Int.mul_ediv_add_emod now DAY
    rw [sessionStart]
    linarith
  rw [barTime, hsub, max_eq_left (Int.sub_nonneg_of_le (of_decide_eq_true h).1), epochOf_start, sinceOpen]

theorem sinceOpen_lt {exchange : String} {now : Nat} (h : inSession exchange now = true) :
    sinceOpen exchange now < if exchange.toUpper = "MCX" then 52200 else 22500 := by
  obtain ⟨-, hc⟩ := of_decide_eq_true h
  rw [sinceOpen]
  rw [sessionClose, DAY, MICROS] at hc
  rw [sessionOpen, DAY, MICROS]
  split_ifs at hc ⊢
  · rw [timeOfDay, MICROS] at hc ⊢
    omega
  · rw [timeOfDay, MICROS] at hc ⊢
    omega

end Geometry

structure LiveCandlePump where
  serviceName : String := "dhan"
  enabled : Bool := true
  realFeed : Bool := false
  subs : Dict String Sub := Dict.empty
  /-- The files of ticks, by symbol and day. -/
  recorded : Dict (String × Int) (List TickRecord) := Dict.empty
  /-- The bars that were written to the store, with symbol, exchange and interval. -/
  persisted : List (String × String × String × PumpBar) := []
  emitted : List CandleMsg := []

namespace LiveCandlePump

/-- `symbol.strip().upper()`. -/
def symbolKey (symbol : String) : String := Literal.upper (String.ofList (Literal.strip symbol.toList))

/-- `str(exchange or "NFO").upper()`. -/
def exchangeKey (exchange : String) : String := Literal.upper (if exchange = "" then "NFO" else exchange)

def offReason (p : LiveCandlePump) (exchange : String) (feedError : Option String) (now : Nat) : Option String :=
  if !isMarketOpen exchange now then some (exchange ++ " market closed")
  else if p.serviceName = "dhan" then feedError else none

/-- `subscribe`, where the feed may have failed to take the symbol. -/
def subscribe (symbol exchange interval : String) (feedError : Option String) (now : Nat) (p : LiveCandlePump) :
    Except String (LiveStatus × LiveCandlePump) :=
  let symbol := symbolKey symbol
  let exchange := exchangeKey exchange
  let status := LiveStatus.of symbol exchange interval p.serviceName
  if !p.enabled then .ok (status (some "live streaming disabled"), p)
  else if !p.realFeed then .ok (status (some ("no real live feed (provider=" ++ p.serviceName ++ ")")), p)
  else if p.subs.get symbol = none ∧ MAX_SUBS ≤ p.subs.size then .error "subscription limit (64) reached"
  else
    let state := (p.subs.get symbol).getD { symbol, exchange, interval, spanS := spanSeconds interval }
    .ok (status (p.offReason exchange feedError now),
      { p with subs := p.subs.set symbol { state with exchange, interval, spanS := spanSeconds interval } })

def unsubscribe (symbol : String) (p : LiveCandlePump) : LiveCandlePump := { p with subs := p.subs.pop (symbolKey symbol) }

/-- `_record_tick`: one more line in the file of the day. -/
def recordTick (symbol : String) (price : Rat) (qty : Int) (ts : Nat) (p : LiveCandlePump) : LiveCandlePump :=
  if !p.realFeed then p
  else
    let file := (symbol, (ts : Int) / DAY)
    { p with recorded := p.recorded.set file (p.recorded.getD file [] ++ [{ ts, symbol, price, qty }]) }

def persistBar (state : Sub) (bar : PumpBar) (p : LiveCandlePump) : LiveCandlePump :=
  if !p.realFeed then p
  else { p with persisted := p.persisted ++ [(state.symbol, state.exchange, state.interval, bar)] }

def persistCompleted (state : Sub) (completed : Option PumpBar) (p : LiveCandlePump) : LiveCandlePump :=
  completed.elim p fun bar => p.persistBar state bar

/-- `ingest_tick`: the tick is recorded before it is applied. -/
def ingestTick (symbol : String) (price : Rat) (qty : Int) (now : Nat) (p : LiveCandlePump) : LiveCandlePump :=
  match p.subs.get (symbolKey symbol) with
  | none => p
  | some state =>
    let p := p.recordTick state.symbol price qty now
    let state := { state with lastTick := some now }
    match applyTick price qty now state with
    | none => { p with subs := p.subs.set (symbolKey symbol) state }
    | some applied =>
      let p := { p with subs := p.subs.set (symbolKey symbol) applied.state }.persistCompleted state applied.completed
      { p with emitted := p.emitted ++ [⟨state.symbol, state.exchange, state.interval, applied.bar.shown, now⟩] }

/-- The edge of the session: a bar is completed once the market has closed. -/
def edge (now : Nat) (p : LiveCandlePump) (e : String × Sub) : LiveCandlePump :=
  match e.2.bar with
  | none => p
  | some bar =>
    if isMarketOpen e.2.exchange now = false ∨ e.2.lastTick = none then
      { p with subs := p.subs.set e.1 { e.2 with bar := none, barStart := none } }.persistBar e.2 bar
    else p

/-- `_run_once`, as far as bars go. -/
def runOnce (now : Nat) (p : LiveCandlePump) : LiveCandlePump := p.subs.entries.foldl (edge now) p

inductive Act where
  | attachBrokerFeed
  | subscribe (symbol exchange interval : String) (feedError : Option String) (now : Nat)
  | unsubscribe (symbol : String)
  | ingestTick (symbol : String) (price : Rat) (qty : Int) (now : Nat)
  | runOnce (now : Nat)

def step (p : LiveCandlePump) : Act → LiveCandlePump
  | .attachBrokerFeed => { p with realFeed := true }
  | .subscribe symbol exchange interval feedError now =>
    match p.subscribe symbol exchange interval feedError now with
    | .ok (_, p) => p
    | .error _ => p
  | .unsubscribe symbol => p.unsubscribe symbol
  | .ingestTick symbol price qty now => p.ingestTick symbol price qty now
  | .runOnce now => if p.realFeed then p.runOnce now else p

def run (p : LiveCandlePump) (acts : List Act) : LiveCandlePump := acts.foldl step p

@[simp] theorem run_nil (p : LiveCandlePump) : p.run [] = p := rfl

@[simp] theorem run_concat (p : LiveCandlePump) (acts : List Act) (a : Act) : p.run (acts ++ [a]) = (p.run acts).step a := by
  simp [run]

section Soundness

def SubOk (state : Sub) : Prop :=
  state.spanS = spanSeconds state.interval ∧ ∀ bar, state.bar = some bar → state.barStart = some bar.time

theorem roll_time {state : Sub} (hs : SubOk state) (barStart : Int) (price : Rat) :
    (state.roll barStart price).1.time = barStart := by
  rw [Sub.roll]
  cases hb : state.bar with
  | none => rfl
  | some bar =>
    rw [hs.2 bar hb]
    by_cases ht : bar.time = barStart
    · simp [ht]
    · simp [PumpBar.start, ht]

/-- What a tick that is taken says about itself and its bar. -/
theorem applyTick_spec {price : Rat} {qty : Int} {now : Nat} {state : Sub} {a : Applied} (hs : SubOk state)
    (h : applyTick price qty now state = some a) :
    isMarketOpen state.exchange now = true ∧ a.bar.time = barTime state.exchange state.spanS now ∧ SubOk a.state := by
  rw [applyTick] at h
  dsimp only at h
  split_ifs at h with hrej
  push Not at hrej
  rw [← Option.some.inj h]
  have htime := roll_time hs (barTime state.exchange state.spanS now) price
  refine ⟨by simpa using hrej.2, htime, hs.1, fun bar hbar => ?_⟩
  rw [← Option.some.inj hbar]
  exact congrArg some htime.symm

/-- A message of an open market, with the start of its tick's bar, and of a recorded tick. -/
def Drawn (p : LiveCandlePump) (m : CandleMsg) : Prop :=
  isMarketOpen m.exchange m.ts = true ∧ m.candle.time = barTime m.exchange (spanSeconds m.interval) m.ts ∧
    ∃ t ∈ p.recorded.getD (m.symbol, m.ts / DAY) [], t.ts = m.ts

structure Sound (p : LiveCandlePump) : Prop where
  subs : ∀ symbol state, p.subs.get symbol = some state → SubOk state ∧ p.realFeed = true
  /-- A file has the ticks of its symbol and day. -/
  files : ∀ file, ∀ t ∈ p.recorded.getD file [], file = (t.symbol, (t.ts : Int) / DAY)
  emitted : ∀ m ∈ p.emitted, p.Drawn m

variable {p : LiveCandlePump}

private theorem sound_set (h : p.Sound) (symbol : String) {state : Sub} (hs : SubOk state) (hf : p.realFeed = true) :
    ({ p with subs := p.subs.set symbol state } : LiveCandlePump).Sound := by
  refine ⟨fun other state' hget => ?_, h.files, h.emitted⟩
  by_cases ho : other = symbol
  · subst ho
    rw [Dict.get_set_self] at hget
    exact ⟨Option.some.inj hget ▸ hs, hf⟩
  · rw [Dict.get_set_of_ne ho] at hget
    exact h.subs other state' hget

@[simp] theorem persistBar_subs (state : Sub) (bar : PumpBar) : (p.persistBar state bar).subs = p.subs := by
  rw [persistBar]
  split <;> rfl

@[simp] theorem persistBar_realFeed (state : Sub) (bar : PumpBar) : (p.persistBar state bar).realFeed = p.realFeed := by
  rw [persistBar]
  split <;> rfl

@[simp] theorem persistBar_recorded (state : Sub) (bar : PumpBar) : (p.persistBar state bar).recorded = p.recorded := by
  rw [persistBar]
  split <;> rfl

@[simp] theorem persistBar_emitted (state : Sub) (bar : PumpBar) : (p.persistBar state bar).emitted = p.emitted := by
  rw [persistBar]
  split <;> rfl

private theorem sound_persistBar (h : p.Sound) (state : Sub) (bar : PumpBar) : (p.persistBar state bar).Sound := by
  refine ⟨fun symbol state' hget => ?_, ?_, fun m hm => ?_⟩
  · rw [persistBar_subs] at hget
    rw [persistBar_realFeed]
    exact h.subs symbol state' hget
  · rw [persistBar_recorded]
    exact h.files
  · rw [persistBar_emitted] at hm
    rw [Drawn, persistBar_recorded]
    exact h.emitted m hm

private theorem sound_persistCompleted (h : p.Sound) (state : Sub) (completed : Option PumpBar) :
    (p.persistCompleted state completed).Sound ∧ (p.persistCompleted state completed).recorded = p.recorded := by
  cases completed with
  | none => exact ⟨h, rfl⟩
  | some bar => exact ⟨sound_persistBar h state bar, persistBar_recorded _ _⟩

private theorem sound_subscribe (h : p.Sound) {symbol exchange interval : String} {feedError : Option String} {now : Nat}
    {res : LiveStatus × LiveCandlePump} (hres : p.subscribe symbol exchange interval feedError now = .ok res) :
    res.2.Sound := by
  rw [subscribe] at hres
  dsimp only at hres
  split_ifs at hres with he hf hfull
  · rw [← Except.ok.inj hres]
    exact h
  · rw [← Except.ok.inj hres]
    exact h
  · rw [← Except.ok.inj hres]
    refine sound_set h _ ⟨rfl, fun bar hbar => ?_⟩ (by simpa using hf)
    dsimp only at hbar ⊢
    cases hg : p.subs.get (symbolKey symbol) with
    | none =>
      rw [hg] at hbar
      cases hbar
    | some state =>
      rw [hg] at hbar
      exact (h.subs _ _ hg).1.2 bar hbar

private theorem sound_edges (now : Nat) (entries : List (String × Sub)) (he : ∀ e ∈ entries, SubOk e.2)
    (h : p.Sound) (hf : p.realFeed = true) : (entries.foldl (edge now) p).Sound := by
  induction entries generalizing p with
  | nil => exact h
  | cons e entries ih =>
    have hrest := fun e' he' => he e' (List.mem_cons_of_mem _ he')
    rw [List.foldl_cons, edge]
    split
    · exact ih hrest h hf
    · split_ifs
      · have hok : SubOk { e.2 with bar := none, barStart := none } := ⟨(he e List.mem_cons_self).1, nofun⟩
        exact ih hrest (sound_persistBar (sound_set h _ hok hf) _ _) ((persistBar_realFeed _ _).trans hf)
      · exact ih hrest h hf

private theorem recordTick_eq {symbol : String} {price : Rat} {qty : Int} {ts : Nat} (hf : p.realFeed = true) :
    p.recordTick symbol price qty ts =
      let file := (symbol, (ts : Int) / DAY)
      { p with recorded := p.recorded.set file (p.recorded.getD file [] ++ [{ ts, symbol, price, qty }]) } := by
  rw [recordTick, hf]
  rfl

private theorem sound_ingestTick (h : p.Sound) (symbol : String) (price : Rat) (qty : Int) (now : Nat) :
    (p.ingestTick symbol price qty now).Sound := by
  rw [ingestTick]
  cases hg : p.subs.get (symbolKey symbol) with
  | none => exact h
  | some state =>
    obtain ⟨hok, hf⟩ := h.subs _ _ hg
    have hfile (file : String × Int) (t : TickRecord) (ht : t ∈ p.recorded.getD file []) :
        t ∈ (p.recordTick state.symbol price qty now).recorded.getD file [] := by
      rw [recordTick_eq hf]
      by_cases hfile : file = (state.symbol, (now : Int) / DAY)
      · subst hfile
        rw [Dict.getD, Dict.get_set_self]
        exact List.mem_append_left _ ht
      · rw [Dict.getD, Dict.get_set_of_ne hfile]
        exact ht
    have hline : ∃ t ∈ (p.recordTick state.symbol price qty now).recorded.getD (state.symbol, (now : Int) / DAY) [],
        t.ts = now := by
      refine ⟨{ ts := now, symbol := state.symbol, price, qty }, ?_, rfl⟩
      rw [recordTick_eq hf, Dict.getD, Dict.get_set_self]
      exact List.mem_append_right _ (List.mem_singleton_self _)
    have hf' : (p.recordTick state.symbol price qty now).realFeed = true := by
      rw [recordTick_eq hf]
      exact hf
    have hrec : (p.recordTick state.symbol price qty now).Sound := by
      refine ⟨fun other state' hget => ?_, fun file t ht => ?_, fun m hm => ?_⟩
      · rw [recordTick_eq hf] at hget
        exact ⟨(h.subs other state' hget).1, hf'⟩
      · rw [recordTick_eq hf] at ht
        by_cases hfile : file = (state.symbol, (now : Int) / DAY)
        · rw [hfile, Dict.getD, Dict.get_set_self] at ht
          rcases List.mem_append.mp ht with ht | ht
          · exact h.files file t (hfile ▸ ht)
          · rw [List.mem_singleton.mp ht, hfile]
        · rw [Dict.getD, Dict.get_set_of_ne hfile] at ht
          exact h.files file t ht
      · rw [recordTick_eq hf] at hm
        obtain ⟨hopen, htime, t, ht, hts⟩ := h.emitted m hm
        exact ⟨hopen, htime, t, hfile _ t ht, hts⟩
    have hok' : SubOk { state with lastTick := some now } := hok
    dsimp only
    generalize p.recordTick state.symbol price qty now = q at hline hf' hrec ⊢
    cases ha : applyTick price qty now { state with lastTick := some now } with
    | none => exact sound_set hrec _ hok' hf'
    | some a =>
      obtain ⟨hopen, htime, hnext⟩ := applyTick_spec hok' ha
      have hset := sound_set hrec (symbolKey symbol) hnext hf'
      have hdrawn : q.Drawn ⟨state.symbol, state.exchange, state.interval, a.bar.shown, now⟩ :=
        ⟨hopen, by rw [← hok.1]; exact htime, hline⟩
      obtain ⟨hdone, hrecorded⟩ := sound_persistCompleted hset { state with lastTick := some now } a.completed
      refine ⟨hdone.subs, hdone.files, fun m hm => ?_⟩
      rcases List.mem_append.mp hm with hm | hm
      · exact hdone.emitted m hm
      · rw [List.mem_singleton.mp hm, Drawn]
        dsimp only
        rw [hrecorded]
        exact hdrawn

theorem sound_step (h : p.Sound) (a : Act) : (p.step a).Sound := by
  cases a with
  | attachBrokerFeed => exact ⟨fun symbol state hget => ⟨(h.subs symbol state hget).1, rfl⟩, h.files, h.emitted⟩
  | subscribe symbol exchange interval feedError now =>
    rw [step]
    cases hres : p.subscribe symbol exchange interval feedError now with
    | ok res => exact sound_subscribe h hres
    | error err => exact h
  | unsubscribe symbol =>
    refine ⟨fun other state hget => ?_, h.files, h.emitted⟩
    rw [step, unsubscribe, Dict.get_pop] at hget
    split_ifs at hget
    exact h.subs other state hget
  | ingestTick symbol price qty now => exact sound_ingestTick h symbol price qty now
  | runOnce now =>
    rw [step]
    split_ifs with hf
    · refine sound_edges now _ (fun e he => ?_) h hf
      exact (h.subs e.1 e.2 ((Dict.mem_entries_iff _ _ _).mp he)).1
    · exact h

theorem sound_run (h : p.Sound) (acts : List Act) : (p.run acts).Sound := by
  induction acts using List.reverseRecOn with
  | nil => exact h
  | append_singleton acts a ih =>
    rw [run_concat]
    exact sound_step ih a

/-- A pump that has just been built. -/
theorem sound_init (serviceName : String) (enabled : Bool) : ({ serviceName, enabled } : LiveCandlePump).Sound where
  subs _ _ h := nomatch h
  files _ _ h := nomatch h
  emitted _ h := nomatch h

end Soundness

/-- What a trade of an open session does that is not of an earlier bar. -/
theorem ingestTick_applied {p : LiveCandlePump} {symbol : String} {state : Sub} (hf : p.realFeed = true)
    (hg : p.subs.get (symbolKey symbol) = some state) {price : Rat} {qty : Int} {now : Nat} (hp : 0 < price)
    (hopen : isMarketOpen state.exchange now = true)
    (hle : ∀ prev, state.barStart = some prev → prev ≤ barTime state.exchange state.spanS now) :
    let start := barTime state.exchange state.spanS now
    let bar := (state.roll start price).1.take price qty
    let p' := p.ingestTick symbol price qty now
    p'.realFeed = true ∧
    p'.subs = p.subs.set (symbolKey symbol) { state with lastTick := some now, barStart := some start, bar := some bar } ∧
    p'.persisted = p.persisted ++
      (state.roll start price).2.toList.map (fun bar => (state.symbol, state.exchange, state.interval, bar)) ∧
    p'.emitted = p.emitted ++ [⟨state.symbol, state.exchange, state.interval, bar.shown, now⟩] := by
  have hlate : (state.barStart.any fun prev => barTime state.exchange state.spanS now < prev) = false := by
    cases hb : state.barStart with
    | none => rfl
    | some prev => simpa using hle prev hb
  have happly : applyTick price qty now { state with lastTick := some now } = some
      { bar := (state.roll (barTime state.exchange state.spanS now) price).1.take price qty
        completed := (state.roll (barTime state.exchange state.spanS now) price).2
        state := { state with
          lastTick := some now
          barStart := some (barTime state.exchange state.spanS now)
          bar := some ((state.roll (barTime state.exchange state.spanS now) price).1.take price qty) } } := by
    rw [applyTick]
    dsimp only
    rw [hopen, hlate, if_neg (by simp [hp]), if_neg (by decide)]
    rfl
  rw [ingestTick, hg]
  dsimp only
  rw [happly]
  dsimp only
  cases (state.roll (barTime state.exchange state.spanS now) price).2 with
  | none => simp [persistCompleted, recordTick, hf]
  | some bar => simp [persistCompleted, persistBar, recordTick, hf]

end LiveCandlePump
end NTrade.Api
