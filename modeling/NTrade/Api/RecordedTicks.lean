import NTrade.Api.LiveCandlePump
import NTrade.Data.ParquetStore

/-! Replay of recorded ticks by the bars of the chart. The replay cuts time into spans since the epoch,
the pump since the open of the session. -/
namespace NTrade.Api
open NTrade.Domain NTrade.Lib NTrade.Data

def barSeconds (interval : String) : Nat := ((tableOf intervalBarMinutes).lookup interval).getD 1 * 60

def spanStart (spanS : Nat) (ts : Nat) : Int := epochOf ts - epochOf ts % spanS

structure TickBar where
  time : Int
  ticks : List TickRecord
  deriving DecidableEq, Repr

def TickBar.prices (bar : TickBar) : List Rat := bar.ticks.map (·.price)

def TickBar.quantities (bar : TickBar) : List Int := bar.ticks.map (·.qty)

section Request

/-- Microseconds since the epoch; a request without an offset means Indian time. -/
def instant (t : WallClock) : Int := t.wall - t.offset.getD (IST * MICROS)

structure TicksRequest where
  start : Option WallClock := none
  stop : Option WallClock := none
  today : Nat

def TicksRequest.loDate (r : TicksRequest) : Int := (r.start.map WallClock.wall).getD r.today / DAY

def TicksRequest.hiDate (r : TicksRequest) : Int := (r.stop.map fun t => t.wall / DAY).getD r.loDate

def TicksRequest.inside (r : TicksRequest) (ts : Nat) : Bool :=
  (r.start.all fun t => instant t ≤ ts - IST * MICROS) && r.stop.all fun t => ts - IST * MICROS ≤ instant t

/-- Whether a time is in the range, and its day among those that are read. -/
def TicksRequest.Covers (r : TicksRequest) (ts : Nat) : Prop :=
  (r.loDate ≤ ts / DAY ∧ ts / DAY ≤ r.hiDate) ∧ r.inside ts = true

def recordsIn (recorded : Dict (String × Int) (List TickRecord)) (symbol : String) (r : TicksRequest) :
    List TickRecord :=
  ((List.range (r.hiDate + 1 - r.loDate).toNat).flatMap fun (i : Nat) =>
    recorded.getD (symbol, r.loDate + (i : Int)) []).filter fun t => r.inside t.ts

def recordedTicks (recorded : Dict (String × Int) (List TickRecord)) (symbol interval : String) (r : TicksRequest) :
    List TickBar :=
  let bars := Dict.group (fun t => spanStart (barSeconds interval) t.ts) (recordsIn recorded symbol r)
  (bars.keys.insertionSort (· ≤ ·)).map fun time => { time, ticks := bars.getD time [] }

/-- The response as the map that the chart looks bars up in. -/
def ticksByBar (bars : List TickBar) : Dict Int TickBar := Dict.collect TickBar.time bars

variable {recorded : Dict (String × Int) (List TickRecord)} {symbol interval : String} {r : TicksRequest}

theorem mem_recordsIn {t : TickRecord} :
    t ∈ recordsIn recorded symbol r ↔
      (∃ day, (r.loDate ≤ day ∧ day ≤ r.hiDate) ∧ t ∈ recorded.getD (symbol, day) []) ∧ r.inside t.ts = true := by
  rw [recordsIn, List.mem_filter, List.mem_flatMap]
  refine and_congr_left fun _ => ?_
  constructor
  · rintro ⟨i, hi, ht⟩
    rw [List.mem_range] at hi
    exact ⟨_, ⟨by omega, by omega⟩, ht⟩
  · rintro ⟨day, ⟨hlo, hhi⟩, ht⟩
    refine ⟨(day - r.loDate).toNat, List.mem_range.mpr (by omega), ?_⟩
    rwa [Int.toNat_of_nonneg (by omega), add_sub_cancel]

/-- A bar that is looked up has the ticks of its span. -/
theorem ticksByBar_get {time : Int} {bar : TickBar}
    (h : (ticksByBar (recordedTicks recorded symbol interval r)).get time = some bar) :
    bar.time = time ∧ ∀ t, t ∈ bar.ticks ↔ t ∈ recordsIn recorded symbol r ∧ spanStart (barSeconds interval) t.ts = time := by
  rw [ticksByBar, Dict.get_collect] at h
  obtain ⟨hmem, ht⟩ := List.mem_filter.mp (List.mem_of_getLast? h)
  obtain rfl : bar.time = time := of_decide_eq_true ht
  obtain ⟨k, -, rfl⟩ := List.mem_map.mp hmem
  refine ⟨rfl, fun t => ?_⟩
  rw [Dict.getD_group, List.mem_filter, decide_eq_true_eq]

/-- The bar of a recorded tick can be looked up. -/
theorem ticksByBar_ne_none {t : TickRecord} (ht : t ∈ recordsIn recorded symbol r) :
    (ticksByBar (recordedTicks recorded symbol interval r)).get (spanStart (barSeconds interval) t.ts) ≠ none := by
  rw [ticksByBar, Dict.get_collect, ne_eq, List.getLast?_eq_none_iff]
  apply List.ne_nil_of_mem
  apply List.mem_filter.mpr
  refine ⟨List.mem_map.mpr ⟨spanStart (barSeconds interval) t.ts, ?_, rfl⟩, decide_eq_true rfl⟩
  rw [List.mem_insertionSort]
  exact (Dict.mem_keys_group _ _ _).mpr ⟨t, ht, rfl⟩

end Request


section Alignment

/-- Daily bars span a day in the pump and a session in the replay; other bars span as much in both. -/
private theorem seconds_cases (interval : String) :
    (interval = "1D" ∧ spanSeconds interval = 86400 ∧ barSeconds interval = 22500) ∨
    (interval = "1h" ∧ spanSeconds interval = 3600 ∧ barSeconds interval = 3600) ∨
    ((interval ≠ "1D" ∧ interval ≠ "1h") ∧ barSeconds interval = spanSeconds interval ∧
      (spanSeconds interval = 60 ∨ spanSeconds interval = 300 ∨ spanSeconds interval = 900)) := by
  rw [spanSeconds, barSeconds, tableOf_span, tableOf_bar, SPAN_MINUTES, BAR_MINUTES]
  by_cases hd : interval = "1D"
  · subst hd
    exact .inl ⟨rfl, rfl, rfl⟩
  by_cases hh : interval = "1h"
  · subst hh
    exact .inr (.inl ⟨rfl, rfl, rfl⟩)
  refine .inr (.inr ⟨⟨hd, hh⟩, ?_⟩)
  by_cases h15 : interval = "15m"
  · subst h15
    exact ⟨rfl, .inr (.inr rfl)⟩
  by_cases h5 : interval = "5m"
  · subst h5
    exact ⟨rfl, .inr (.inl rfl)⟩
  by_cases h1 : interval = "1m"
  · subst h1
    exact ⟨rfl, .inl rfl⟩
  simp [List.lookup_cons, beq_eq_false_iff_ne.mpr, h1, h5, h15, hh, hd]

/-- The times at which both bars of a tick start together: those of all intraday intervals that divide
the time from midnight in UTC to the open, and, for daily bars, a session's first 375 minutes on one day
out of 25. -/
def Aligned (exchange interval : String) (now : Nat) : Prop :=
  interval ≠ "1h" ∧ (interval = "1D" →
    (now : Int) / DAY % 25 = (if exchange.toUpper = "MCX" then 16 else 10) ∧ sinceOpen exchange now < 22500)

/-- Both bars of a tick in session start together exactly at these times. -/
theorem barTime_eq_spanStart_iff {exchange interval : String} {now : Nat} (h : inSession exchange now = true) :
    barTime exchange (spanSeconds interval) now = spanStart (barSeconds interval) now ↔ Aligned exchange interval now := by
  have hnonneg := sinceOpen_nonneg h
  have hlt := sinceOpen_lt h
  rw [barTime_eq h, spanStart, epochOf_now h, Aligned, openEpoch]
  generalize sinceOpen exchange now = e at hnonneg hlt ⊢
  generalize (now : Int) / DAY = d
  rcases seconds_cases interval with ⟨rfl, hspan, hbar⟩ | ⟨rfl, hspan, hbar⟩ | ⟨⟨hd, hh⟩, hbar, hspan⟩
  · rw [hspan, hbar]
    split_ifs at hlt ⊢
    · simp only [ne_eq, String.reduceEq, not_false_eq_true, true_and, forall_const]
      omega
    · simp only [ne_eq, String.reduceEq, not_false_eq_true, true_and, forall_const]
      omega
  · rw [hspan, hbar]
    refine iff_of_false ?_ fun ha => ha.1 rfl
    split_ifs
    · omega
    · omega
  · refine iff_of_true ?_ ⟨hh, fun h => absurd h hd⟩
    rw [hbar]
    split_ifs
    · rcases hspan with hspan | hspan | hspan
      all_goals
        rw [hspan]
        omega
    · rcases hspan with hspan | hspan | hspan
      all_goals
        rw [hspan]
        omega

end Alignment

namespace LiveCandlePump

def SameChart (m m' : CandleMsg) : Prop := m'.symbol = m.symbol ∧ m'.exchange = m.exchange ∧ m'.interval = m.interval

/-- The chart finds, by the time of the bar that a tick was drawn in, every recorded tick that was drawn in
that bar, and none that was drawn in another. -/
def Finds (p : LiveCandlePump) (r : TicksRequest) (m : CandleMsg) : Prop :=
  ∃ bar, (ticksByBar (recordedTicks p.recorded m.symbol m.interval r)).get m.candle.time = some bar ∧
    ∀ m' ∈ p.emitted, SameChart m m' → r.Covers m'.ts →
      (m'.candle.time = m.candle.time ↔ ∃ t ∈ bar.ticks, t.ts = m'.ts)

/-- A drawn tick is replayed in its own bar exactly at the times at which both start together. -/
private theorem time_eq_iff {p : LiveCandlePump} {m : CandleMsg} (h : p.Drawn m) :
    m.candle.time = spanStart (barSeconds m.interval) m.ts ↔ Aligned m.exchange m.interval m.ts := by
  obtain ⟨hopen, htime, -⟩ := h
  rw [htime]
  exact barTime_eq_spanStart_iff (of_decide_eq_true hopen).2

/-- The replay of what the pump has recorded fits the bars it has drawn exactly if every tick that was
drawn, and that is asked for, came at a time at which the bars of both start together. -/
theorem replay_finds_drawn_ticks (serviceName : String) (enabled : Bool) (acts : List Act) (r : TicksRequest) :
    (∀ m ∈ (({ serviceName, enabled } : LiveCandlePump).run acts).emitted, r.Covers m.ts →
      (({ serviceName, enabled } : LiveCandlePump).run acts).Finds r m) ↔
    ∀ m ∈ (({ serviceName, enabled } : LiveCandlePump).run acts).emitted, r.Covers m.ts →
      Aligned m.exchange m.interval m.ts := by
  have hsound := sound_run (sound_init serviceName enabled) acts
  generalize ({ serviceName, enabled } : LiveCandlePump).run acts = p at hsound ⊢
  have hrecord (m : CandleMsg) (hm : m ∈ p.emitted) (hr : r.Covers m.ts) :
      ∃ t ∈ recordsIn p.recorded m.symbol r, t.ts = m.ts := by
    obtain ⟨-, -, t, ht, hts⟩ := hsound.emitted m hm
    exact ⟨t, mem_recordsIn.mpr ⟨⟨_, hr.1, ht⟩, hts ▸ hr.2⟩, hts⟩
  constructor
  · intro hall m hm hr
    obtain ⟨bar, hget, hticks⟩ := hall m hm hr
    obtain ⟨t, ht, hts⟩ := (hticks m hm ⟨rfl, rfl, rfl⟩ hr).mp rfl
    have hspan := ((ticksByBar_get hget).2 t).mp ht
    rw [← time_eq_iff (hsound.emitted m hm), ← hspan.2, hts]
  · intro hall m hm hr
    have htime := (time_eq_iff (hsound.emitted m hm)).mpr (hall m hm hr)
    obtain ⟨t, ht, hts⟩ := hrecord m hm hr
    have hne := @ticksByBar_ne_none p.recorded m.symbol m.interval r t ht
    rw [hts, ← htime] at hne
    obtain ⟨bar, hget⟩ := Option.ne_none_iff_exists'.mp hne
    refine ⟨bar, hget, ?_⟩
    rintro m' hm' ⟨hsymbol, hexchange, hinterval⟩ hr'
    have htime' := (time_eq_iff (hsound.emitted m' hm')).mpr (hall m' hm' hr')
    rw [hinterval] at htime'
    constructor
    · intro he
      obtain ⟨t', ht', hts'⟩ := hrecord m' hm' hr'
      rw [hsymbol] at ht'
      exact ⟨t', ((ticksByBar_get hget).2 t').mpr ⟨ht', by rw [hts', ← htime', he]⟩, hts'⟩
    · rintro ⟨t', ht', hts'⟩
      rw [htime', ← hts', (((ticksByBar_get hget).2 t').mp ht').2]

private def hourly : List Act :=
  [.attachBrokerFeed, .subscribe "NIFTY" "NFO" "1h" none 1704187200000000,
    .ingestTick "NIFTY" 24300 25 1704187200000000]

/-- The pump draws it in the bar of 09:15, the replay has it in that of 08:30. -/
theorem hour_starts_differ :
    ¬ ∀ m ∈ (({} : LiveCandlePump).run hourly).emitted,
      TicksRequest.Covers { today := 1704187200000000 } m.ts →
        (({} : LiveCandlePump).run hourly).Finds { today := 1704187200000000 } m := by
  intro h
  have hdrawn : (({} : LiveCandlePump).run hourly).emitted =
      [⟨"NIFTY", "NFO", "1h", { time := 1704167100, open_ := 24300, high := 24300, low := 24300, close := 24300, volume := 25 },
        1704187200000000⟩] := by decide +kernel
  rw [hdrawn] at h
  obtain ⟨bar, hget, -⟩ := h _ (List.mem_singleton_self _) ⟨by decide +kernel, rfl⟩
  have hnone : (ticksByBar (recordedTicks (({} : LiveCandlePump).run hourly).recorded "NIFTY" "1h"
      { today := 1704187200000000 })).get 1704167100 = none := by decide +kernel
  rw [hnone] at hget
  cases hget

end LiveCandlePump
end NTrade.Api
