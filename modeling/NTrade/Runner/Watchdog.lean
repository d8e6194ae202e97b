import NTrade.Engines.MarketEngine
import NTrade.Lib.Trace
import Mathlib.Data.NNRat.Defs
import Mathlib.Tactic.Linarith

/-! The feed watchdog of the live runner. It tells a live feed from a frozen one by the
ticks that the streams hold, and a full stream holds no more after a tick than before. -/
namespace NTrade.Runner
open NTrade.Domain NTrade.Engines NTrade.Lib

structure Watchdog where
  lastTickCount : Int := 0
  missed : Nat := 0
  lastTickTs : Option Rat := none

/-- `LiveRunner._check_feed_watchdog`: the fields after the check, and for how long the
feed has been frozen if it halts. -/
def checkFeedWatchdog (timeout : Rat) (totalTicks : Int) (t : Rat) (w : Watchdog) : Watchdog × Option Rat :=
  let last := w.lastTickTs.getD t
  if w.lastTickCount < totalTicks then
    ({ lastTickCount := totalTicks, missed := 0, lastTickTs := some t }, none)
  else
    let stalled := t - last
    ({ lastTickCount := totalTicks, missed := w.missed + 1, lastTickTs := some last },
      if timeout ≤ stalled then some stalled else none)

inductive FeedObs where
  /-- A tick reached the stream of a registered instrument, which had room for it or not. -/
  | ingested (t : Rat) (room : Bool)
  /-- An instrument was registered in the place of one with so many ticks. -/
  | replaced (ticks : Int)
  /-- The watchdog ran: whether it reset its timer, and whether it halted. -/
  | checked (t : Rat) (reset halted : Bool)
  deriving DecidableEq

structure Feed where
  clock : Rat
  instruments : Instruments
  watchdog : Watchdog := {}
  trace : List FeedObs := []

/-- The moves of a run; time goes forward only. -/
inductive FeedMove where
  | wait (seconds : NNRat)
  | tick (tick : Tick)
  | register (symbol : String)
  | check

def Feed.log (o : FeedObs) (f : Feed) : Feed := { f with trace := f.trace ++ [o] }

def feedMove (timeout : Rat) (f : Feed) : FeedMove → Feed
  | .wait seconds => { f with clock := f.clock + seconds }
  | .tick tick =>
    let f' := { f with instruments := onTick tick f.instruments }
    if (f.instruments.get tick.symbol).isSome then f'.log (.ingested f.clock (hasRoom tick.symbol f.instruments))
    else f'
  | .register symbol =>
    { f with instruments := register symbol f.instruments }.log (.replaced (replacedTicks symbol f.instruments))
  | .check =>
    let done := checkFeedWatchdog timeout (totalTicks f.instruments) f.clock f.watchdog
    { f with watchdog := done.1 }.log (.checked f.clock (done.1.missed = 0) done.2.isSome)

def runFeed (timeout : Rat) (moves : List FeedMove) (f : Feed) : Feed := moves.foldl (feedMove timeout) f

/-- The feed as `start` leaves it: the timer runs from then on, whatever was received. -/
def startFeed (clock : Rat) (instruments : Instruments) : Feed where
  clock := clock
  instruments := instruments
  watchdog := { lastTickTs := some clock }

def ticked (t : List FeedObs) : Bool :=
  (Trace.last (fun | .ingested _ _ => some true | .checked _ _ _ => some false | .replaced _ => none) t).getD false

/-- What the streams hold more than at the last check: the ticks that found room, less
those lost with a replaced instrument. Before the first check, all that they hold. -/
def gained (held : Int) (t : List FeedObs) : Int :=
  t.foldl (fun n o =>
    match o with
    | .ingested _ room => if room then n + 1 else n
    | .replaced ticks => n - ticks
    | .checked _ _ _ => 0) held

/-- After a tick, the check finds more ticks held than the check before it. -/
def feedSeen (held : Int) (pre : List FeedObs) : FeedObs → Bool
  | .checked _ _ _ => !ticked pre || 0 < gained held pre
  | _ => true

def tickResets (pre : List FeedObs) : FeedObs → Bool
  | .checked _ reset _ => !ticked pre || reset
  | _ => true

/-- A halt means that no tick was ingested during the last `timeout` seconds. -/
def haltJustified (timeout : Rat) (pre : List FeedObs) : FeedObs → Bool
  | .checked t _ halted => !halted || pre.all fun
    | .ingested s _ => s + timeout ≤ t
    | _ => true
  | _ => true

section Invariant
variable {timeout : Rat} {held : Int} {f : Feed}

theorem gained_concat (t : List FeedObs) (o : FeedObs) :
    gained held (t ++ [o]) =
      match o with
      | .ingested _ room => if room then gained held t + 1 else gained held t
      | .replaced ticks => gained held t - ticks
      | .checked _ _ _ => 0 := by
  simp [gained]

theorem ticked_ingested (t : List FeedObs) (s : Rat) (room : Bool) : ticked (t ++ [FeedObs.ingested s room]) = true := by
  simp [ticked]

theorem ticked_replaced (t : List FeedObs) (n : Int) : ticked (t ++ [FeedObs.replaced n]) = ticked t := by
  simp [ticked]

structure Timely (f : Feed) : Prop where
  past : ∀ s room, .ingested s room ∈ f.trace → s ≤ f.clock
  timer : ∃ b, f.watchdog.lastTickTs = some b ∧ b ≤ f.clock ∧
    (ticked f.trace = false → ∀ s room, .ingested s room ∈ f.trace → s ≤ b)

structure Watched (timeout : Rat) (held : Int) (f : Feed) : Prop where
  total : totalTicks f.instruments = f.watchdog.lastTickCount + gained held f.trace
  resets : Trace.Always tickResets f.trace ↔ Trace.Always (feedSeen held) f.trace
  timely : Trace.Always (feedSeen held) f.trace → Timely f
  justified : Trace.Always (feedSeen held) f.trace → Trace.Always (haltJustified timeout) f.trace

/-- An entry that is no check leaves the verdicts as they are. -/
private theorem Watched.entry (h : Watched timeout held f) {o : FeedObs} {f' : Feed}
    (ho : ∀ t reset halted, o ≠ .checked t reset halted) (ht : f'.trace = f.trace ++ [o])
    (htotal : totalTicks f'.instruments = f'.watchdog.lastTickCount + gained held f'.trace)
    (htimely : Timely f → Timely f') : Watched timeout held f' := by
  have hs : feedSeen held f.trace o = true := by cases o <;> first | rfl | exact absurd rfl (ho _ _ _)
  have hr : tickResets f.trace o = true := by cases o <;> first | rfl | exact absurd rfl (ho _ _ _)
  have hj : haltJustified timeout f.trace o = true := by cases o <;> first | rfl | exact absurd rfl (ho _ _ _)
  refine ⟨htotal, ?_, fun hall => ?_, fun hall => ?_⟩
  · rw [ht]
    constructor
    · intro hall
      exact Trace.each_concat.mpr ⟨h.resets.mp (Trace.each_concat.mp hall).1, hs⟩
    · intro hall
      exact Trace.each_concat.mpr ⟨h.resets.mpr (Trace.each_concat.mp hall).1, hr⟩
  · rw [ht] at hall
    exact htimely (h.timely (Trace.each_concat.mp hall).1)
  · rw [ht] at hall ⊢
    exact Trace.each_concat.mpr ⟨h.justified (Trace.each_concat.mp hall).1, hj⟩

private theorem Watched.wait (h : Watched timeout held f) (seconds : NNRat) :
    Watched timeout held (feedMove timeout f (.wait seconds)) := by
  have hle : f.clock ≤ f.clock + seconds := le_add_of_nonneg_right seconds.coe_nonneg
  refine ⟨h.total, h.resets, fun hall => ?_, h.justified⟩
  obtain ⟨hpast, b, hb, hbc, hold⟩ := h.timely hall
  exact ⟨fun s room hm => (hpast s room hm).trans hle, b, hb, hbc.trans hle, hold⟩

private theorem Watched.tick (h : Watched timeout held f) (tick : Tick) :
    Watched timeout held (feedMove timeout f (.tick tick)) := by
  unfold feedMove
  dsimp only
  split
  · refine h.entry (fun _ _ _ he => by cases he) rfl ?_ fun ht => ?_
    · show totalTicks (onTick tick f.instruments) = f.watchdog.lastTickCount + gained held (f.trace ++ [_])
      rw [totalTicks_onTick, h.total, gained_concat]
      dsimp only
      split
      · omega
      · omega
    · obtain ⟨hpast, b, hb, hbc, -⟩ := ht
      refine ⟨fun s room hm => ?_, b, hb, hbc, fun hn => ?_⟩
      · rcases List.mem_append.mp hm with hm | hm
        · exact hpast s room hm
        · obtain ⟨rfl, -⟩ := FeedObs.ingested.inj (List.mem_singleton.mp hm)
          exact le_refl _
      · have ht := ticked_ingested f.trace f.clock (hasRoom tick.symbol f.instruments)
        exact absurd (ht.symm.trans hn) (by decide)
  · next hnone =>
    have hnone : f.instruments.get tick.symbol = none := Option.not_isSome_iff_eq_none.mp (by simpa using hnone)
    have hsame : onTick tick f.instruments = f.instruments := Dict.modify_of_none hnone
    rw [hsame]
    exact h

private theorem mem_of_other {t : List FeedObs} {o : FeedObs} {s : Rat} {room : Bool}
    (h : .ingested s room ∈ t ++ [o]) (ho : FeedObs.ingested s room ≠ o) : .ingested s room ∈ t := by
  rcases List.mem_append.mp h with h | h
  · exact h
  · exact absurd (List.mem_singleton.mp h) ho

private theorem Watched.register (h : Watched timeout held f) (symbol : String) :
    Watched timeout held (feedMove timeout f (.register symbol)) := by
  refine h.entry (fun _ _ _ he => by cases he) rfl ?_ fun ht => ?_
  · show totalTicks (Engines.register symbol f.instruments) = f.watchdog.lastTickCount + gained held (f.trace ++ [_])
    rw [totalTicks_register, h.total, gained_concat]
    dsimp only
    omega
  · obtain ⟨hpast, b, hb, hbc, hold⟩ := ht
    refine ⟨fun s room hm => hpast s room (mem_of_other hm nofun), b, hb, hbc, fun hn s room hm => ?_⟩
    exact hold ((ticked_replaced _ _).symm.trans hn) s room (mem_of_other hm nofun)

/-- A check takes the ticks held as its new count. -/
private theorem total_checked (clock : Rat) (instruments : Instruments) (t : List FeedObs) {reset halted : Bool} :
    totalTicks instruments = totalTicks instruments + gained held (t ++ [FeedObs.checked clock reset halted]) := by
  rw [gained_concat]
  exact (add_zero _).symm

private theorem Watched.check_seen (h : Watched timeout held f) (hg : 0 < gained held f.trace) :
    Watched timeout held (({ f with watchdog :=
      { lastTickCount := totalTicks f.instruments, missed := 0, lastTickTs := some f.clock } } : Feed).log
        (.checked f.clock true false)) := by
  refine ⟨?_, ?_, fun hall => ?_, fun hall => ?_⟩
  · exact total_checked f.clock f.instruments f.trace
  · constructor
    · intro hall
      refine Trace.each_concat.mpr ⟨h.resets.mp (Trace.each_concat.mp hall).1, ?_⟩
      simp [feedSeen, hg]
    · intro hall
      refine Trace.each_concat.mpr ⟨h.resets.mpr (Trace.each_concat.mp hall).1, ?_⟩
      simp [tickResets]
  · have hpast := (h.timely (Trace.each_concat.mp hall).1).past
    have hle (s : Rat) (room : Bool) (hm : FeedObs.ingested s room ∈ f.trace ++ [FeedObs.checked f.clock true false]) :
        s ≤ f.clock := hpast s room (mem_of_other hm nofun)
    exact ⟨hle, f.clock, rfl, le_refl _, fun _ => hle⟩
  · exact Trace.each_concat.mpr ⟨h.justified (Trace.each_concat.mp hall).1, rfl⟩

private theorem Watched.check_missed (h : Watched timeout held f) (hg : ¬0 < gained held f.trace) (missed : Nat) :
    Watched timeout held (({ f with watchdog :=
      { lastTickCount := totalTicks f.instruments, missed,
        lastTickTs := some (f.watchdog.lastTickTs.getD f.clock) } } : Feed).log
        (.checked f.clock false (timeout ≤ f.clock - f.watchdog.lastTickTs.getD f.clock))) := by
  have hquiet (hs : feedSeen held f.trace (.checked f.clock false
      (timeout ≤ f.clock - f.watchdog.lastTickTs.getD f.clock)) = true) : ticked f.trace = false := by
    simpa [feedSeen, hg] using hs
  refine ⟨?_, ?_, fun hall => ?_, fun hall => ?_⟩
  · exact total_checked f.clock f.instruments f.trace
  · constructor
    · intro hall
      obtain ⟨hpre, ho⟩ := Trace.each_concat.mp hall
      refine Trace.each_concat.mpr ⟨h.resets.mp hpre, ?_⟩
      simpa [feedSeen, tickResets, hg] using ho
    · intro hall
      obtain ⟨hpre, ho⟩ := Trace.each_concat.mp hall
      refine Trace.each_concat.mpr ⟨h.resets.mpr hpre, ?_⟩
      simpa [feedSeen, tickResets, hg] using ho
  · obtain ⟨hpre, ho⟩ := Trace.each_concat.mp hall
    obtain ⟨hpast, b, hb, hbc, hold⟩ := h.timely hpre
    refine ⟨fun s room hm => hpast s room (mem_of_other hm nofun), b, ?_, hbc, fun _ s room hm => ?_⟩
    · show some (f.watchdog.lastTickTs.getD f.clock) = some b
      rw [hb]
      rfl
    · exact hold (hquiet ho) s room (mem_of_other hm nofun)
  · obtain ⟨hpre, ho⟩ := Trace.each_concat.mp hall
    obtain ⟨-, b, hb, -, hold⟩ := h.timely hpre
    refine Trace.each_concat.mpr ⟨h.justified hpre, ?_⟩
    simp only [haltJustified, hb, Option.getD_some, Bool.or_eq_true, Bool.not_eq_true', decide_eq_false_iff_not,
      List.all_eq_true]
    by_cases hstalled : timeout ≤ f.clock - b
    · right
      intro o ho'
      cases o with
      | ingested s room =>
        have hs := hold (hquiet ho) s room ho'
        exact decide_eq_true (by linarith)
      | replaced n => rfl
      | checked t reset halted => rfl
    · exact .inl hstalled

private theorem Watched.check (h : Watched timeout held f) : Watched timeout held (feedMove timeout f .check) := by
  have hgain : f.watchdog.lastTickCount < totalTicks f.instruments ↔ 0 < gained held f.trace := by
    rw [h.total]
    omega
  unfold feedMove checkFeedWatchdog
  dsimp only
  by_cases hg : 0 < gained held f.trace
  · simp only [if_pos (hgain.mpr hg)]
    exact h.check_seen hg
  · simp only [if_neg (mt hgain.mp hg)]
    have hc := h.check_missed hg (f.watchdog.missed + 1)
    by_cases hs : timeout ≤ f.clock - f.watchdog.lastTickTs.getD f.clock
    · simpa [hs] using hc
    · simpa [hs] using hc

theorem Watched.move (h : Watched timeout held f) (m : FeedMove) : Watched timeout held (feedMove timeout f m) := by
  cases m with
  | wait seconds => exact h.wait seconds
  | tick tick => exact h.tick tick
  | register symbol => exact h.register symbol
  | check => exact h.check

theorem Watched.run (h : Watched timeout held f) (moves : List FeedMove) :
    Watched timeout held (runFeed timeout moves f) := by
  induction moves generalizing f with
  | nil => exact h
  | cons m moves ih => exact ih (h.move m)

end Invariant

/-- Every tick between two checks resets the timer exactly when every check after a tick
finds more ticks held than the one before; a halt is then never a false alarm. -/
theorem watchdog_sees_feed (timeout clock : Rat) (instruments : Instruments) (moves : List FeedMove) :
    (Trace.Always tickResets (runFeed timeout moves (startFeed clock instruments)).trace ↔
      Trace.Always (feedSeen (totalTicks instruments)) (runFeed timeout moves (startFeed clock instruments)).trace) ∧
    (Trace.Always (feedSeen (totalTicks instruments)) (runFeed timeout moves (startFeed clock instruments)).trace →
      Trace.Always (haltJustified timeout) (runFeed timeout moves (startFeed clock instruments)).trace) := by
  have hstart : Watched timeout (totalTicks instruments) (startFeed clock instruments) := by
    refine ⟨(zero_add _).symm, ⟨fun _ => .nil _, fun _ => .nil _⟩, fun _ => ⟨?_, clock, rfl, le_refl _, ?_⟩,
      fun _ => .nil _⟩
    · intro s room hm
      cases hm
    · intro _ s room hm
      cases hm
  have hrun := hstart.run moves
  exact ⟨hrun.resets, hrun.justified⟩

/-- Ticks that find room fill the stream of their symbol. -/
private theorem ticks_fill {timeout : Rat} {tick : Tick} {f : Feed} {m : Market} {n : Nat}
    (hm : f.instruments.get tick.symbol = some m) (hn : m.stream.tickCount + n ≤ STREAM_MAXLEN) :
    ∃ g m', runFeed timeout (List.replicate n (.tick tick)) f = g ∧ g.instruments.get tick.symbol = some m' ∧
      m'.stream.tickCount = m.stream.tickCount + n ∧ totalTicks g.instruments = totalTicks f.instruments + n ∧
      g.clock = f.clock ∧ g.watchdog = f.watchdog := by
  induction n generalizing f m with
  | zero => exact ⟨f, m, rfl, hm, rfl, (add_zero _).symm, rfl, rfl⟩
  | succ n ih =>
    have hroom : m.stream.tickCount < STREAM_MAXLEN := by omega
    have hhas : hasRoom tick.symbol f.instruments = true := by simp [hasRoom, hm, hroom]
    have hget : (onTick tick f.instruments).get tick.symbol = some (m.ingestTick tick) := by
      rw [onTick, Dict.get_modify, if_pos rfl, hm]
      rfl
    have hcount : (m.ingestTick tick).stream.tickCount = m.stream.tickCount + 1 := by
      rw [Market.tickCount_ingestTick, if_pos hroom]
    have hmove : feedMove timeout f (.tick tick) =
        ({ f with instruments := onTick tick f.instruments } : Feed).log (.ingested f.clock true) := by
      simp [feedMove, hm, hhas]
    have hmoved : (feedMove timeout f (.tick tick)).instruments.get tick.symbol = some (m.ingestTick tick) := by
      rw [hmove]
      exact hget
    obtain ⟨g, m', hrun, hg, hsize, htotal, hclock, hdog⟩ := ih hmoved (by rw [hcount]; omega)
    refine ⟨g, m', hrun, hg, by rw [hsize, hcount]; omega, ?_, ?_, ?_⟩
    · rw [htotal, hmove]
      show totalTicks (onTick tick f.instruments) + n = _
      rw [totalTicks_onTick, hhas, if_pos rfl]
      push_cast
      omega
    · rw [hclock, hmove]
      rfl
    · rw [hdog, hmove]
      rfl

def tcsTick : Tick where
  symbol := "TCS"
  price := 3500

/-- After ten thousand ticks of an instrument its feed looks frozen, and is halted in the
very instant in which a tick arrives. -/
theorem full_stream_halts_live_feed :
    ¬ Trace.Always (haltJustified 30) (runFeed 30 (.register "TCS" :: (List.replicate STREAM_MAXLEN (.tick tcsTick) ++
      [.check, .wait 30, .tick tcsTick, .check])) (startFeed 0 Dict.empty)).trace := by
  have hfirst : (feedMove 30 (startFeed 0 Dict.empty) (.register "TCS")).instruments.get tcsTick.symbol =
      some {} := rfl
  obtain ⟨g, m, hrun, hg, hsize, htotal, hclock, hdog⟩ :=
    @ticks_fill 30 tcsTick _ _ STREAM_MAXLEN hfirst (le_of_eq (Nat.zero_add STREAM_MAXLEN))
  have hheld : totalTicks g.instruments = 10000 := htotal
  have hclock : g.clock = 0 := hclock
  have hdog : g.watchdog = { lastTickTs := some 0 } := hdog
  have hfull : hasRoom tcsTick.symbol g.instruments = false := by
    simp only [hasRoom, hg, Option.any_some, decide_eq_false_iff_not]
    rw [hsize]
    exact Nat.lt_irrefl _
  have hreset : feedMove 30 g .check = ({ g with watchdog :=
      { lastTickCount := 10000, missed := 0, lastTickTs := some 0 } } : Feed).log (.checked 0 true false) := by
    simp [feedMove, checkFeedWatchdog, hheld, hclock, hdog]
  have hend : (runFeed 30 [.check, .wait 30, .tick tcsTick, .check] g).trace =
      (g.trace ++ [FeedObs.checked 0 true false, .ingested 30 false]) ++ [FeedObs.checked 30 false true] := by
    simp only [runFeed, List.foldl_cons, List.foldl_nil, hreset]
    simp [feedMove, Feed.log, hg, hfull, checkFeedWatchdog, totalTicks_onTick, hheld, hclock]
  intro h
  rw [runFeed, List.foldl_cons, List.foldl_append] at h
  unfold runFeed at hrun hend
  rw [hrun, hend] at h
  have hlast := (Trace.each_concat.mp h).2
  simp only [haltJustified, Bool.not_true, Bool.false_or, List.all_eq_true] at hlast
  have hlate := hlast (.ingested 30 false) (by simp)
  revert hlate
  decide +kernel

end NTrade.Runner
