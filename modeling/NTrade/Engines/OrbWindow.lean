import NTrade.Engines.OrbLifecycle
import NTrade.Engines.TickConservation

/-! The candles of the opening range. A candle is labelled with the end of its minute, and the range takes the
label for the start: it reads the minute before the open, and leaves its own last minute out. -/
namespace NTrade.Engines
open NTrade.Domain NTrade.Lib

namespace CandleEngine

structure InOrder (symbols : List String) (e : CandleEngine) : Prop where
  opened : ∀ symbol c, e.opened.get symbol = some c → symbol ∈ symbols ∧ c.bucket % e.seconds = 0
  published : ∀ c ∈ e.published, c.ts % e.seconds = 0 ∧
    ∃ o, e.opened.get c.symbol = some o ∧ c.ts < o.bucket + e.seconds
  order : e.ClosesInOrder

variable {symbols : List String} {e : CandleEngine}

theorem bucket_emod (e : CandleEngine) (ts : Timestamp) : e.bucket ts % e.seconds = 0 := by
  rw [bucket, Int.sub_emod, Int.emod_emod_of_dvd _ (dvd_refl _), sub_self, Int.zero_emod]

/-- An engine that has just been built. -/
private theorem inOrder_start (ho : e.opened = Dict.empty) (hp : e.published = []) : InOrder symbols e := by
  refine ⟨fun symbol c h => ?_, fun c h => ?_, fun symbol => ?_⟩
  · rw [ho] at h
    cases h
  · rw [hp] at h
    cases h
  · rw [hp]
    exact List.Pairwise.nil

/-- A candle opens over those that have closed. -/
private theorem inOrder_open (h : InOrder symbols e) {symbol : String} (hs : symbol ∈ symbols) {c : Candle}
    (hc : c.bucket % e.seconds = 0) (hle : ∀ o, e.opened.get symbol = some o → o.bucket ≤ c.bucket) :
    InOrder symbols { e with opened := e.opened.set symbol c } := by
  refine ⟨fun other o ho => ?_, fun closed hclosed => ?_, h.order⟩
  · dsimp only at ho
    by_cases he : other = symbol
    · subst he
      rw [Dict.get_set_self] at ho
      rw [← Option.some.inj ho]
      exact ⟨hs, hc⟩
    · rw [Dict.get_set_of_ne he] at ho
      exact h.opened other o ho
  · obtain ⟨hwhole, o, ho, hlt⟩ := h.published closed hclosed
    refine ⟨hwhole, ?_⟩
    dsimp only
    by_cases he : closed.symbol = symbol
    · rw [he, Dict.get_set_self]
      have := hle o (he ▸ ho)
      exact ⟨c, rfl, by omega⟩
    · rw [Dict.get_set_of_ne he]
      exact ⟨o, ho, hlt⟩

/-- The open candle of a symbol closes, and a later one opens. -/
private theorem inOrder_close (h : InOrder symbols e) {symbol : String} (hs : symbol ∈ symbols) {o c : Candle}
    (ho : e.opened.get symbol = some o) (hc : c.bucket % e.seconds = 0) (hlt : o.bucket < c.bucket) :
    InOrder symbols { e.close symbol o with opened := (e.close symbol o).opened.set symbol c } := by
  have hwhole : (e.closing symbol o).ts % e.seconds = 0 := by
    rw [closing, Int.add_emod_right]
    exact (h.opened symbol o ho).2
  refine ⟨fun other o' ho' => ?_, fun closed hclosed => ?_, fun other => ?_⟩
  · dsimp only [close] at ho'
    by_cases he : other = symbol
    · subst he
      rw [Dict.get_set_self] at ho'
      rw [← Option.some.inj ho']
      exact ⟨hs, hc⟩
    · rw [Dict.get_set_of_ne he] at ho'
      exact h.opened other o' ho'
  · dsimp only [close] at hclosed ⊢
    rcases List.mem_append.mp hclosed with hclosed | hclosed
    · obtain ⟨hw, u, hu, hult⟩ := h.published closed hclosed
      refine ⟨hw, ?_⟩
      by_cases he : closed.symbol = symbol
      · rw [he] at hu ⊢
        obtain rfl : o = u := Option.some.inj (ho.symm.trans hu)
        rw [Dict.get_set_self]
        exact ⟨c, rfl, by omega⟩
      · rw [Dict.get_set_of_ne he]
        exact ⟨u, hu, hult⟩
    · rw [List.mem_singleton.mp hclosed]
      refine ⟨hwhole, c, Dict.get_set_self _ _ _, ?_⟩
      rw [closing]
      exact add_lt_add_left hlt _
  · dsimp only [close]
    rw [List.filter_append, List.pairwise_append]
    refine ⟨h.order other, ?_, fun closed hclosed last hlast => ?_⟩
    · exact (List.pairwise_singleton _ _).sublist List.filter_sublist
    · obtain ⟨hlast, hsym⟩ := List.mem_filter.mp hlast
      obtain ⟨hclosed, hother⟩ := List.mem_filter.mp hclosed
      rw [List.mem_singleton.mp hlast] at hsym ⊢
      obtain ⟨-, u, hu, hult⟩ := h.published closed hclosed
      have hsame : closed.symbol = symbol := (of_decide_eq_true hother).trans (of_decide_eq_true hsym).symm
      rw [hsame] at hu
      obtain rfl : o = u := Option.some.inj (ho.symm.trans hu)
      exact hult

theorem inOrder_onTick (h : InOrder symbols e) {t : TickEvent} (hs : t.symbol ∈ symbols) : InOrder symbols (e.onTick t) := by
  have hwhole := bucket_emod e t.ts
  rw [onTick]
  split_ifs
  · exact h
  · rw [ingest]
    cases ho : e.opened.get t.symbol with
    | none => exact inOrder_open h hs hwhole fun o h' => by rw [ho] at h'; cases h'
    | some o =>
      dsimp only
      split_ifs with hlate hsame
      · exact ⟨h.opened, h.published, h.order⟩
      · refine inOrder_open h hs (h.opened _ _ ho).2 fun u hu => ?_
        rw [← Option.some.inj (ho.symm.trans hu)]
        exact le_refl o.bucket
      · exact inOrder_close h hs ho hwhole (lt_of_le_of_ne (not_lt.mp hlate) hsame)

/-- The candles of ticks are of whole spans, and close in order. -/
theorem inOrder_run (h : InOrder symbols e) {ticks : List TickEvent} (hs : ∀ t ∈ ticks, t.symbol ∈ symbols) :
    InOrder symbols (e.run (ticks.map Act.tick)) ∧ SameSetup e (e.run (ticks.map Act.tick)) := by
  have hsetup (e : CandleEngine) (t : TickEvent) : SameSetup e (e.onTick t) := by
    rw [onTick]
    split_ifs
    · exact .rfl
    · rw [ingest]
      split
      · exact .rfl
      · dsimp only
        split_ifs
        · exact .rfl
        · exact .rfl
        · exact .rfl
  induction ticks using List.reverseRecOn with
  | nil => exact ⟨h, .rfl⟩
  | append_singleton ticks t ih =>
    obtain ⟨hin, hsame⟩ := ih fun u hu => hs u (List.mem_append_left _ hu)
    rw [List.map_append, List.map_singleton, run_concat]
    exact ⟨inOrder_onTick hin (hs t (by simp)), hsame.trans (hsetup _ t)⟩

private structure Closable (symbols : List String) (e : CandleEngine) : Prop where
  opened : ∀ symbol c, e.opened.get symbol = some c → symbol ∈ symbols ∧ c.bucket % e.seconds = 0
  published : ∀ c ∈ e.published, c.symbol ∈ symbols ∧ c.ts % e.seconds = 0 ∧
    ∀ o, e.opened.get c.symbol = some o → c.ts < o.bucket + e.seconds
  order : e.ClosesInOrder

private theorem closable_flushSymbol (h : Closable symbols e) (symbol : String) :
    Closable symbols (e.flushSymbol symbol) ∧ (e.flushSymbol symbol).seconds = e.seconds := by
  rw [flushSymbol]
  cases ho : e.opened.get symbol with
  | none => exact ⟨h, rfl⟩
  | some o =>
    obtain ⟨hs, hwhole⟩ := h.opened symbol o ho
    refine ⟨⟨fun other c hc => ?_, fun c hc => ?_, fun other => ?_⟩, rfl⟩
    · dsimp only [close] at hc
      rw [Dict.get_pop] at hc
      split_ifs at hc
      exact h.opened other c hc
    · dsimp only [close] at hc ⊢
      rcases List.mem_append.mp hc with hc | hc
      · obtain ⟨hsym, hw, hlt⟩ := h.published c hc
        refine ⟨hsym, hw, fun u hu => ?_⟩
        rw [Dict.get_pop] at hu
        split_ifs at hu
        exact hlt u hu
      · rw [List.mem_singleton.mp hc]
        refine ⟨hs, ?_, fun u hu => ?_⟩
        · rw [closing, Int.add_emod_right]
          exact hwhole
        · rw [closing, Dict.get_pop, if_pos rfl] at hu
          cases hu
    · dsimp only [close]
      rw [List.filter_append, List.pairwise_append]
      refine ⟨h.order other, (List.pairwise_singleton _ _).sublist List.filter_sublist, fun c hc last hlast => ?_⟩
      obtain ⟨hlast, hsym⟩ := List.mem_filter.mp hlast
      obtain ⟨hc, hother⟩ := List.mem_filter.mp hc
      rw [List.mem_singleton.mp hlast] at hsym ⊢
      have hsame : c.symbol = symbol := (of_decide_eq_true hother).trans (of_decide_eq_true hsym).symm
      exact (h.published c hc).2.2 o (hsame ▸ ho)

/-- So are those that a flush closes at the end. -/
theorem inOrder_flush (h : InOrder symbols e) : (e.flush none).ClosesInOrder ∧
    ∀ c ∈ (e.flush none).published, c.symbol ∈ symbols ∧ c.ts % e.seconds = 0 := by
  have hfold (keys : List String) : ∀ {e' : CandleEngine}, Closable symbols e' →
      Closable symbols (keys.foldl flushSymbol e') ∧ (keys.foldl flushSymbol e').seconds = e'.seconds := by
    induction keys with
    | nil => exact fun h => ⟨h, rfl⟩
    | cons key keys ih =>
      intro e' h
      obtain ⟨hk, hsec⟩ := closable_flushSymbol h key
      obtain ⟨hrest, hsec'⟩ := ih hk
      exact ⟨hrest, hsec'.trans hsec⟩
  have hstart : Closable symbols e := by
    refine ⟨h.opened, fun c hc => ?_, h.order⟩
    obtain ⟨hw, o, ho, hlt⟩ := h.published c hc
    refine ⟨(h.opened _ _ ho).1, hw, fun u hu => ?_⟩
    rwa [← Option.some.inj (ho.symm.trans hu)]
  obtain ⟨hdone, hsec⟩ := hfold e.opened.keys hstart
  refine ⟨hdone.order, fun c hc => ?_⟩
  obtain ⟨hs, hw, -⟩ := hdone.published c hc
  rw [hsec] at hw
  exact ⟨hs, hw⟩

end CandleEngine

namespace OpeningRangeBreakout

structure Measures (candles : List OrbRow) (s : OpeningRangeBreakout) : Prop where
  high : s.orbHigh = maxOf (candles.map fun r => r.high)
  low : s.orbLow = minOf (candles.map fun r => r.low)
  volume : s.orbVolumeAvg = (candles.map fun r => r.volume).sum / candles.length

/-- What trades leave as it is. -/
structure SameRange (s s' : OpeningRangeBreakout) : Prop where
  rows : s'.rows = s.rows
  dayKey : s'.dayKey = s.dayKey
  orbHigh : s'.orbHigh = s.orbHigh
  orbLow : s'.orbLow = s.orbLow
  orbReady : s'.orbReady = s.orbReady
  orbVolumeAvg : s'.orbVolumeAvg = s.orbVolumeAvg

/-- A candle that is taken moves the range as its rollover and its build do. -/
theorem sameRange_onCandleClosed {cfg : OrbConfig} {e : CandleClosedEvent} (h : takes cfg e = true) (balance : Rat)
    (s : OpeningRangeBreakout) :
    SameRange (buildRange cfg (rowOf e) (rollover (rowOf e) s)) (onCandleClosed cfg e balance s).1 := by
  rw [onCandleClosed, if_pos h]
  dsimp only
  have hexit : SameRange (buildRange cfg (rowOf e) (rollover (rowOf e) s)) (manage cfg (rowOf e) s).1 := by
    rw [manage]
    rcases manageExit_cases cfg (rowOf e) (buildRange cfg (rowOf e) (rollover (rowOf e) s)) with
      ⟨_, _, _, -, -, he⟩ | ⟨_, he, -⟩
    · rw [he]
      exact ⟨rfl, rfl, rfl, rfl, rfl, rfl⟩
    · rw [he]
      exact ⟨rfl, rfl, rfl, rfl, rfl, rfl⟩
  rcases seekEntry_cases cfg balance (rowOf e) (manage cfg (rowOf e) s).1 with ⟨_, _, -, -, -, -, -, -, he⟩ | ⟨_, he⟩
  · rw [he]
    exact ⟨hexit.rows, hexit.dayKey, hexit.orbHigh, hexit.orbLow, hexit.orbReady, hexit.orbVolumeAvg⟩
  · rw [he]
    exact ⟨hexit.rows, hexit.dayKey, hexit.orbHigh, hexit.orbLow, hexit.orbReady, hexit.orbVolumeAvg⟩

end OpeningRangeBreakout

namespace OrbRun
open OpeningRangeBreakout
variable (cfg : OrbConfig)

def takenRows (closes : List Close) : List OrbRow :=
  (closes.filter fun c => takes cfg c.candle).map fun c => rowOf c.candle

def dayRows (day : Int) (closes : List Close) : List OrbRow :=
  (takenRows cfg closes).filter fun r => dayKeyOf r.ts = day

/-- Whether a candle traded from the start of the session on and up to the end of the range. The minute that it traded
in ends at its label. -/
def tradesInside (day : Int) (r : OrbRow) : Bool :=
  day * 86400 + cfg.sessionStartMin * 60 ≤ istSeconds r.ts - 60 ∧ istSeconds r.ts ≤ day * 86400 + cfg.orbEndMin * 60

def openingCandles (day : Int) (closes : List Close) : List OrbRow := (dayRows cfg day closes).filter (tradesInside cfg day)

/-- Candles of whole minutes, each after those before it. -/
structure Minutely (rows : List OrbRow) : Prop where
  ascending : rows.Pairwise fun r r' => r.ts < r'.ts
  whole : ∀ r ∈ rows, r.ts % 60 = 0

variable {cfg}

theorem takenRows_concat (closes : List Close) (c : Close) :
    takenRows cfg (closes ++ [c]) = takenRows cfg closes ++ if takes cfg c.candle then [rowOf c.candle] else [] := by
  rw [takenRows, List.filter_append, List.map_append, takenRows]
  cases h : takes cfg c.candle <;> simp [h]

theorem dayRows_concat (day : Int) {closes : List Close} {c : Close} (h : takes cfg c.candle = true) :
    dayRows cfg day (closes ++ [c]) =
      dayRows cfg day closes ++ if dayKeyOf c.candle.ts = day then [rowOf c.candle] else [] := by
  rw [dayRows, takenRows_concat, if_pos h, List.filter_append, dayRows]
  refine congrArg _ ?_
  by_cases hd : dayKeyOf c.candle.ts = day
  · rw [if_pos hd]
    exact List.filter_eq_self.mpr fun r hr => by rw [List.mem_singleton.mp hr]; exact decide_eq_true hd
  · rw [if_neg hd]
    exact List.filter_eq_nil_iff.mpr fun r hr => by rw [List.mem_singleton.mp hr]; exact fun h => hd (of_decide_eq_true h)

theorem dayKeyOf_mono {ts ts' : Int} (h : ts ≤ ts') : dayKeyOf ts ≤ dayKeyOf ts' :=
  Int.ediv_le_ediv (by decide) (add_le_add_left h IST)

theorem minuteOfDay_mono {ts ts' : Int} (h : ts ≤ ts') (hd : dayKeyOf ts = dayKeyOf ts') :
    minuteOfDay ts ≤ minuteOfDay ts' := by
  rw [dayKeyOf, dayKeyOf, istSeconds, istSeconds] at hd
  rw [minuteOfDay, minuteOfDay, istSeconds, istSeconds]
  omega

structure Ranged (cfg : OrbConfig) (closes : List Close) (s : OpeningRangeBreakout) : Prop where
  idle : s.dayKey = none → takenRows cfg closes = []
  last : ∀ k, s.dayKey = some k → (∃ r ∈ takenRows cfg closes, dayKeyOf r.ts = k) ∧
    ∀ r ∈ takenRows cfg closes, dayKeyOf r.ts ≤ k
  rows : ∀ k, s.dayKey = some k → s.rows = dayRows cfg k closes
  ready : s.orbReady = true → s.dayKey ≠ none ∧ Measures (window cfg s.rows) s ∧ 2 ≤ (window cfg s.rows).length ∧
    ∃ r ∈ s.rows, cfg.orbEndMin ≤ minuteOfDay r.ts

theorem Ranged.of_sameRange {closes : List Close} {s s' : OpeningRangeBreakout} (h : Ranged cfg closes s)
    (hs : SameRange s s') : Ranged cfg closes s' := by
  refine ⟨?_, ?_, ?_, ?_⟩
  · rw [hs.dayKey]
    exact h.idle
  · rw [hs.dayKey]
    exact h.last
  · rw [hs.dayKey, hs.rows]
    exact h.rows
  · rw [hs.orbReady, hs.dayKey, hs.rows]
    intro hr
    obtain ⟨hk, hm, hrest⟩ := h.ready hr
    exact ⟨hk, ⟨hs.orbHigh.trans hm.high, hs.orbLow.trans hm.low, hs.orbVolumeAvg.trans hm.volume⟩, hrest⟩

private theorem ranged_rollover {closes : List Close} {s : OpeningRangeBreakout} (h : Ranged cfg closes s) {c : Close}
    (htakes : takes cfg c.candle = true) (hasc : ∀ r ∈ takenRows cfg closes, r.ts < c.candle.ts) :
    (rollover (rowOf c.candle) s).dayKey = some (dayKeyOf c.candle.ts) ∧
    (rollover (rowOf c.candle) s).rows = dayRows cfg (dayKeyOf c.candle.ts) (closes ++ [c]) ∧
    ((rollover (rowOf c.candle) s).orbReady = true → s.dayKey = some (dayKeyOf c.candle.ts) ∧
      rollover (rowOf c.candle) s = { s with rows := s.rows ++ [rowOf c.candle] }) := by
  have hday := @dayRows_concat cfg (dayKeyOf c.candle.ts) closes c htakes
  rw [if_pos rfl] at hday
  by_cases hd : s.dayKey = some (dayKeyOf c.candle.ts)
  · rw [@rollover_same (rowOf c.candle) s hd, hday]
    exact ⟨hd, congrArg (· ++ _) (h.rows _ hd), fun _ => ⟨hd, rfl⟩⟩
  · rw [@rollover_new (rowOf c.candle) s hd, hday]
    refine ⟨rfl, ?_, nofun⟩
    have hnone : dayRows cfg (dayKeyOf c.candle.ts) closes = [] := by
      apply List.filter_eq_nil_iff.mpr
      intro r hr hrday
      have hrday := of_decide_eq_true hrday
      cases hk : s.dayKey with
      | none =>
        rw [h.idle hk] at hr
        cases hr
      | some k =>
        obtain ⟨⟨u, hu, huday⟩, hle⟩ := h.last k hk
        have hku := dayKeyOf_mono (hasc u hu).le
        have := hle r hr
        exact hd (hk.trans (congrArg some (by omega)))
    rw [hnone]
    rfl

theorem ranged_step {closes : List Close} {r : OrbRun} (h : Ranged cfg closes r.strategy) {c : Close}
    (hasc : takes cfg c.candle = true → ∀ r ∈ takenRows cfg closes, r.ts < c.candle.ts) :
    Ranged cfg (closes ++ [c]) (r.step cfg c).strategy := by
  rw [step]
  dsimp only
  by_cases htakes : takes cfg c.candle = true
  · refine Ranged.of_sameRange ?_ (sameRange_onCandleClosed htakes c.balance r.strategy)
    obtain ⟨hday, hrows, hready⟩ := ranged_rollover h htakes (hasc htakes)
    obtain ⟨-, -, hkey⟩ := @buildRange_keeps cfg (rowOf c.candle) (rollover (rowOf c.candle) r.strategy)
    have hbuilt : (buildRange cfg (rowOf c.candle) (rollover (rowOf c.candle) r.strategy)).rows =
        (rollover (rowOf c.candle) r.strategy).rows := by
      rw [buildRange]
      dsimp only
      split_ifs <;> rfl
    have hmem : rowOf c.candle ∈ (rollover (rowOf c.candle) r.strategy).rows := by
      rw [hrows, dayRows_concat _ htakes, if_pos rfl]
      exact List.mem_append_right _ (List.mem_singleton_self _)
    refine ⟨fun hk => ?_, fun k hk => ?_, fun k hk => ?_, fun hr => ⟨?_, ?_⟩⟩
    · rw [hkey, hday] at hk
      cases hk
    · rw [hkey, hday] at hk
      obtain rfl := Option.some.inj hk
      rw [takenRows_concat, if_pos htakes]
      refine ⟨⟨rowOf c.candle, by simp, rfl⟩, fun u hu => ?_⟩
      rcases List.mem_append.mp hu with hu | hu
      · exact dayKeyOf_mono (hasc htakes u hu).le
      · rw [List.mem_singleton.mp hu]
        exact le_refl (dayKeyOf c.candle.ts)
    · rw [hkey, hday] at hk
      obtain rfl := Option.some.inj hk
      rw [hbuilt, hrows]
    · rw [hkey, hday]
      intro hn
      cases hn
    · rw [hbuilt]
      rw [buildRange] at hr ⊢
      dsimp only at hr ⊢
      split_ifs at hr ⊢ with hbuild hlen
      · exact ⟨⟨rfl, rfl, rfl⟩, hlen, rowOf c.candle, hmem, hbuild.2⟩
      · rw [hbuild.1] at hr
        cases hr
      · obtain ⟨hk, hroll⟩ := hready hr
        rw [hroll] at hr ⊢
        obtain ⟨-, hm, hlen, u, hu, huend⟩ := h.ready hr
        -- a later candle of the day is past the window as well
        have hout : window cfg (r.strategy.rows ++ [rowOf c.candle]) = window cfg r.strategy.rows := by
          rw [h.rows _ hk] at hu
          obtain ⟨hut, hud⟩ := List.mem_filter.mp hu
          have hmono := minuteOfDay_mono (hasc htakes u hut).le (of_decide_eq_true hud)
          rw [window, List.filter_append, window]
          have hnone : [rowOf c.candle].filter (fun r => cfg.sessionStartMin ≤ minuteOfDay r.ts ∧
              minuteOfDay r.ts < cfg.orbEndMin) = [] := by
            apply List.filter_eq_nil_iff.mpr
            intro v hv hin
            rw [List.mem_singleton.mp hv] at hin
            have := (of_decide_eq_true hin).2
            exact absurd (huend.trans hmono) (not_le.mpr this)
          rw [hnone, List.append_nil]
        dsimp only
        rw [hout]
        exact ⟨⟨hm.high, hm.low, hm.volume⟩, hlen, u, List.mem_append_left _ hu, huend⟩
  · have hsame : (onCandleClosed cfg c.candle c.balance r.strategy).1 = r.strategy := by
      rw [onCandleClosed, if_neg htakes]
    rw [hsame]
    have htaken : takenRows cfg (closes ++ [c]) = takenRows cfg closes := by
      rw [takenRows_concat, if_neg htakes, List.append_nil]
    refine ⟨?_, ?_, ?_, h.ready⟩
    · rw [htaken]
      exact h.idle
    · rw [htaken]
      exact h.last
    · simp only [dayRows, htaken]
      exact h.rows

theorem ranged_run {closes : List Close} (h : (takenRows cfg closes).Pairwise fun r r' => r.ts < r'.ts) :
    Ranged cfg closes (run cfg closes).strategy := by
  induction closes using List.reverseRecOn with
  | nil => exact ⟨fun _ => rfl, nofun, nofun, nofun⟩
  | append_singleton closes c ih =>
    rw [takenRows_concat, List.pairwise_append] at h
    rw [run_concat]
    refine ranged_step (ih h.1) fun htakes r hr => ?_
    exact h.2.2 r hr (rowOf c.candle) (by rw [if_pos htakes]; exact List.mem_singleton_self _)

theorem takenRows_append (closes more : List Close) :
    takenRows cfg (closes ++ more) = takenRows cfg closes ++ takenRows cfg more := by
  rw [takenRows, List.filter_append, List.map_append, takenRows, takenRows]

theorem dayRows_append (day : Int) (closes more : List Close) :
    dayRows cfg day (closes ++ more) = dayRows cfg day closes ++ dayRows cfg day more := by
  rw [dayRows, takenRows_append, List.filter_append, dayRows, dayRows]

/-- Once a candle of the day ends the range, those that follow are past it. -/
private theorem past_end {pre suf : List Close} (hm : Minutely (takenRows cfg (pre ++ suf))) {day : Int}
    {r : OrbRow} (hr : r ∈ dayRows cfg day pre) (hend : cfg.orbEndMin ≤ minuteOfDay r.ts) :
    ∀ v ∈ dayRows cfg day suf, cfg.orbEndMin < minuteOfDay v.ts := by
  intro v hv
  rw [takenRows_append] at hm
  obtain ⟨hv, hvday⟩ := List.mem_filter.mp hv
  obtain ⟨hr, hrday⟩ := List.mem_filter.mp hr
  have hlt := (List.pairwise_append.mp hm.ascending).2.2 r hr v hv
  have hrw := hm.whole r (List.mem_append_left _ hr)
  have hvw := hm.whole v (List.mem_append_right _ hv)
  have hvday := of_decide_eq_true hvday
  have hrday := of_decide_eq_true hrday
  rw [dayKeyOf, istSeconds, IST] at hvday hrday
  rw [minuteOfDay, istSeconds, IST] at hend ⊢
  omega

private theorem tradesInside_iff {day : Int} {r : OrbRow} (hday : dayKeyOf r.ts = day) (hwhole : r.ts % 60 = 0) :
    tradesInside cfg day r = true ↔ cfg.sessionStartMin < minuteOfDay r.ts ∧ minuteOfDay r.ts ≤ cfg.orbEndMin := by
  rw [tradesInside, decide_eq_true_iff, minuteOfDay]
  rw [dayKeyOf, istSeconds, IST] at hday
  rw [istSeconds, IST]
  omega

/-- On whole minutes the range reads one minute early, at its start and at its end. -/
private theorem window_eq_iff {day : Int} {rows : List OrbRow} (hrows : ∀ r ∈ rows, dayKeyOf r.ts = day ∧ r.ts % 60 = 0)
    (hlt : cfg.sessionStartMin < cfg.orbEndMin) :
    window cfg rows = rows.filter (tradesInside cfg day) ↔
      ∀ r ∈ rows, minuteOfDay r.ts ≠ cfg.sessionStartMin ∧ minuteOfDay r.ts ≠ cfg.orbEndMin := by
  constructor
  · intro h r hr
    have hmem : r ∈ window cfg rows ↔ r ∈ rows.filter (tradesInside cfg day) := by rw [h]
    rw [window, List.mem_filter, List.mem_filter, tradesInside_iff (hrows r hr).1 (hrows r hr).2,
      decide_eq_true_iff] at hmem
    have hiff := (and_congr_right_iff.mp hmem) hr
    omega
  · intro h
    apply List.filter_congr
    intro r hr
    have hne := h r hr
    rw [Bool.eq_iff_iff, tradesInside_iff (hrows r hr).1 (hrows r hr).2, decide_eq_true_iff]
    omega

/-- A range that is ready is that of the opening candles exactly if none of the day's candles ends at the start of the
session or at the end of the range. -/
theorem covers_iff {closes pre : List Close} (hpre : pre <+: closes) (hm : Minutely (takenRows cfg closes))
    (hready : (run cfg pre).strategy.orbReady = true) {day : Int} (hday : (run cfg pre).strategy.dayKey = some day) :
    (window cfg (run cfg pre).strategy.rows = openingCandles cfg day closes ∧
      Measures (openingCandles cfg day closes) (run cfg pre).strategy) ↔
    ∀ r ∈ dayRows cfg day closes, minuteOfDay r.ts ≠ cfg.sessionStartMin ∧ minuteOfDay r.ts ≠ cfg.orbEndMin := by
  obtain ⟨suf, rfl⟩ := hpre
  have hasc := hm.ascending
  rw [takenRows_append] at hasc
  have hran := ranged_run (List.pairwise_append.mp hasc).1
  obtain ⟨-, hmeas, hlen, r, hr, hend⟩ := hran.ready hready
  rw [hran.rows day hday] at hr hlen hmeas ⊢
  have hlt : cfg.sessionStartMin < cfg.orbEndMin := by
    obtain ⟨v, hv⟩ := List.exists_mem_of_length_pos (lt_of_lt_of_le Nat.zero_lt_two hlen)
    obtain ⟨hlo, hhi⟩ := of_decide_eq_true (List.mem_filter.mp hv).2
    exact lt_of_le_of_lt hlo hhi
  have hlater := past_end hm hr hend
  have hrows (v : OrbRow) (hv : v ∈ dayRows cfg day (pre ++ suf)) : dayKeyOf v.ts = day ∧ v.ts % 60 = 0 := by
    obtain ⟨hv, hd⟩ := List.mem_filter.mp hv
    exact ⟨of_decide_eq_true hd, hm.whole v hv⟩
  rw [dayRows_append] at hrows ⊢
  have hopening : openingCandles cfg day (pre ++ suf) = (dayRows cfg day pre).filter (tradesInside cfg day) := by
    rw [openingCandles, dayRows_append, List.filter_append]
    have hnone : (dayRows cfg day suf).filter (tradesInside cfg day) = [] := by
      apply List.filter_eq_nil_iff.mpr
      intro v hv hin
      obtain ⟨hd, hw⟩ := hrows v (List.mem_append_right _ hv)
      exact absurd ((tradesInside_iff hd hw).mp hin).2 (not_le.mpr (hlater v hv))
    rw [hnone, List.append_nil]
  have hiff := window_eq_iff (fun v hv => hrows v (List.mem_append_left _ hv)) hlt
  rw [hopening]
  constructor
  · rintro ⟨hw, -⟩ v hv
    rcases List.mem_append.mp hv with hv | hv
    · exact hiff.mp hw v hv
    · have := hlater v hv
      omega
  · intro h
    have hw := hiff.mpr fun v hv => h v (List.mem_append_left _ hv)
    rw [← hw]
    exact ⟨rfl, hmeas⟩

def Follows (cfg : OrbConfig) (symbol : String) (ticks : List TickEvent) : Prop :=
  ∀ t ∈ ticks, cfg.symbol = none ∨ cfg.symbol = some t.symbol → t.symbol = symbol

/-- The strategy finds the candles of one symbol's ticks minute by minute. -/
theorem minutely_of_ticks {symbol : String} {ticks : List TickEvent} (hf : Follows cfg symbol ticks) {e : CandleEngine}
    {maxCandles : Nat} {mode : Mode} (he : CandleEngine.init "1m" maxCandles mode = .ok e) {closes : List Close}
    (hc : closes.map Close.candle <+: ((e.run (ticks.map .tick)).flush none).published) :
    Minutely (takenRows cfg closes) := by
  obtain ⟨seconds, hsec, rfl⟩ := CandleEngine.init_eq_ok he
  have hsixty : seconds = 60 := by
    have h1m : timeframeSeconds "1m" = .ok 60 := by rfl
    rw [h1m] at hsec
    exact (Except.ok.inj hsec).symm
  obtain ⟨hin, hsame⟩ := @CandleEngine.inOrder_run (ticks.map fun t => t.symbol)
    { timeframe := "1m", seconds, maxCandles, mode } (CandleEngine.inOrder_start rfl rfl) ticks
    fun t ht => List.mem_map_of_mem ht
  obtain ⟨horder, hall⟩ := CandleEngine.inOrder_flush hin
  have htaken : ((closes.filter fun c => takes cfg c.candle).map Close.candle).Sublist
      ((((CandleEngine.run { timeframe := "1m", seconds, maxCandles, mode } (ticks.map .tick)).flush none).published).filter
        fun c => c.symbol = symbol) := by
    have hsub : (closes.map Close.candle).filter (takes cfg) = (closes.filter fun c => takes cfg c.candle).map Close.candle :=
      List.filter_map
    rw [← hsub]
    refine List.Sublist.trans ?_ (hc.sublist.filter _)
    have hmono : (closes.map Close.candle).filter (takes cfg) =
        ((closes.map Close.candle).filter fun c => c.symbol = symbol).filter (takes cfg) := by
      rw [List.filter_filter]
      apply List.filter_congr
      intro c hcm
      rw [Bool.eq_iff_iff, Bool.and_eq_true]
      refine ⟨fun h => ⟨h, ?_⟩, fun h => h.1⟩
      obtain ⟨t, ht, hts⟩ := List.mem_map.mp (hall c (hc.subset hcm)).1
      rw [← hts]
      exact decide_eq_true (hf t ht (hts ▸ (of_decide_eq_true h).1))
    rw [hmono]
    exact List.filter_sublist
  constructor
  · rw [takenRows, List.pairwise_map]
    have hclosed := (horder symbol).sublist htaken
    rw [List.pairwise_map] at hclosed
    exact hclosed
  · intro r hr
    obtain ⟨c, hcm, rfl⟩ := List.mem_map.mp hr
    have hts := (hall c.candle (hc.subset (List.mem_map_of_mem (List.mem_filter.mp hcm).1))).2
    rw [hsame.2.1, hsixty] at hts
    exact hts

/-- At every point at which the range is ready: it is measured on exactly the candles that trade in the opening window,
those to come included, if and only if no candle of the day ends with the first minute before the window or with its last. -/
theorem opening_range_iff {symbol : String} {ticks : List TickEvent} (hf : Follows cfg symbol ticks) {e : CandleEngine}
    {maxCandles : Nat} {mode : Mode} (he : CandleEngine.init "1m" maxCandles mode = .ok e) {closes pre : List Close}
    (hc : closes.map Close.candle <+: ((e.run (ticks.map .tick)).flush none).published) (hpre : pre <+: closes)
    (hready : (run cfg pre).strategy.orbReady = true) {day : Int} (hday : (run cfg pre).strategy.dayKey = some day) :
    (window cfg (run cfg pre).strategy.rows = openingCandles cfg day closes ∧
      Measures (openingCandles cfg day closes) (run cfg pre).strategy) ↔
    ∀ r ∈ dayRows cfg day closes, minuteOfDay r.ts ≠ cfg.sessionStartMin ∧ minuteOfDay r.ts ≠ cfg.orbEndMin :=
  covers_iff hpre (minutely_of_ticks hf he hc) hready hday

def minuteTicks (minutes : List (Int × Rat)) : List TickEvent :=
  minutes.map fun m => { symbol := "NIFTY", exchange := "NSE", price := m.2, quantity := 10,
                         ts := .naive ((m.1 * 60 + 10) * MICROS) }

private theorem minuteTicks_follow (cfg : OrbConfig) (minutes : List (Int × Rat)) : Follows cfg "NIFTY" (minuteTicks minutes) := by
  intro t ht _
  obtain ⟨m, -, rfl⟩ := List.mem_map.mp ht
  rfl

def minuteCloses (minutes : List (Int × Rat)) : List Close :=
  (((CandleEngine.minutes.run ((minuteTicks minutes).map .tick)).flush none).published).map fun candle => { candle, balance := 0 }

/-- Trades from 09:15 on, and none from 09:29 to 09:30. -/
theorem gap_before_end_measured :
    window {} (run {} (minuteCloses [(555, 100), (556, 101), (571, 110)])).strategy.rows =
      openingCandles {} 0 (minuteCloses [(555, 100), (556, 101), (571, 110)]) ∧
    Measures (openingCandles {} 0 (minuteCloses [(555, 100), (556, 101), (571, 110)]))
      (run {} (minuteCloses [(555, 100), (556, 101), (571, 110)])).strategy :=
  (@opening_range_iff {} "NIFTY" (minuteTicks [(555, 100), (556, 101), (571, 110)]) (minuteTicks_follow _ _)
    CandleEngine.minutes 10000 .live rfl (minuteCloses [(555, 100), (556, 101), (571, 110)]) _ (by decide +kernel)
    List.prefix_rfl (by decide +kernel) 0 (by decide +kernel)).mpr (by decide +kernel)

/-- The high of the minute from 09:29 to 09:30 is missing. -/
theorem last_minute_left_out :
    (run {} (minuteCloses [(555, 100), (556, 101), (569, 200)])).strategy.orbReady = true ∧
    ¬ Measures (openingCandles {} 0 (minuteCloses [(555, 100), (556, 101), (569, 200)]))
      (run {} (minuteCloses [(555, 100), (556, 101), (569, 200)])).strategy := by
  refine ⟨by decide +kernel, fun h => ?_⟩
  have hhigh := h.high
  revert hhigh
  decide +kernel

end OrbRun
end NTrade.Engines
