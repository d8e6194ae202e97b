import NTrade.Api.LiveCandlePump
import NTrade.Engines.TickConservation

/-! The candles of the kernel beside the bars of the live chart. The kernel cuts time into spans since the
epoch, the pump since the open of the session; on most intervals both put the same ticks together. -/
namespace NTrade.Api
open NTrade.Domain NTrade.Lib NTrade.Engines

structure Trade where
  price : Rat
  qty : Int
  now : Nat
  positive : 0 < price
  nonneg : 0 ≤ qty

def Trade.event (symbol exchange : String) (t : Trade) : TickEvent :=
  { symbol, exchange, price := t.price, quantity := t.qty, ts := .aware (t.now - IST * MICROS) }

section Partitions

def bucketOf (seconds now : Nat) : Int := epochOf now - epochOf now % seconds

theorem bucket_event (e : CandleEngine) (symbol exchange : String) (t : Trade) :
    e.bucket (t.event symbol exchange).ts = bucketOf e.seconds t.now := rfl

/-- Whether two ways to cut time put two times together alike, neither of them going backwards. -/
@[mk_iff agree_iff] structure Agree (seconds : Nat) (exchange : String) (now now' : Nat) : Prop where
  together : bucketOf seconds now = bucketOf seconds now' ↔ barTime exchange seconds now = barTime exchange seconds now'
  bucket_le : bucketOf seconds now ≤ bucketOf seconds now'
  bar_le : barTime exchange seconds now ≤ barTime exchange seconds now'

private theorem day_cases {exchange : String} {now now' : Nat} (h : now ≤ now') :
    (now : Int) / DAY < now' / DAY ∨ (now : Int) / DAY = now' / DAY ∧ sinceOpen exchange now ≤ sinceOpen exchange now' := by
  have hle : (now : Int) ≤ now' := Int.ofNat_le.mpr h
  rcases lt_or_eq_of_le (Int.ediv_le_ediv (by decide : 0 < DAY) hle) with hlt | heq
  · exact .inl hlt
  · refine .inr ⟨heq, Int.ediv_le_ediv (by decide : 0 < MICROS) (Int.sub_le_sub_right ?_ _)⟩
    have h1 := Int.mul_ediv_add_emod now DAY
    have h2 := Int.mul_ediv_add_emod now' DAY
    rw [heq] at h1
    omega

/-- Times in session agree on every interval but that of an hour. -/
theorem agree_of_le {exchange : String} {now now' seconds : Nat} (h : inSession exchange now = true)
    (h' : inSession exchange now' = true) (hle : now ≤ now')
    (hs : seconds = 60 ∨ seconds = 300 ∨ seconds = 900 ∨ seconds = 86400) : Agree seconds exchange now now' := by
  have hday := @day_cases exchange now now' hle
  have h0 := sinceOpen_nonneg h
  have h0' := sinceOpen_nonneg h'
  have hlt := sinceOpen_lt h
  have hlt' := sinceOpen_lt h'
  rw [agree_iff, bucketOf, bucketOf, barTime_eq h, barTime_eq h', epochOf_now h, epochOf_now h', openEpoch, openEpoch]
  generalize sinceOpen exchange now = e at *
  generalize sinceOpen exchange now' = e' at *
  generalize (now : Int) / DAY = d at *
  generalize (now' : Int) / DAY = d' at *
  split_ifs at *
  · rcases hs with rfl | rfl | rfl | rfl
    all_goals
      push_cast
      omega
  · rcases hs with rfl | rfl | rfl | rfl
    all_goals
      push_cast
      omega

end Partitions

namespace LiveCandlePump

def watching (symbol exchange interval : String) : LiveCandlePump :=
  ({} : LiveCandlePump).run [.attachBrokerFeed, .subscribe symbol exchange interval none 0]

def barsOf (p : LiveCandlePump) (symbol : String) : List PumpBar :=
  p.persisted.map (fun e => e.2.2.2) ++ ((p.subs.get symbol).bind Sub.bar).toList

def chart (p : LiveCandlePump) : Dict Int PumpBar := Dict.collect PumpBar.time (p.emitted.map fun m => m.candle)

private theorem chart_concat {p p' : LiveCandlePump} {bar : PumpBar}
    (h : p'.emitted.map (fun m => m.candle) = p.emitted.map (fun m => m.candle) ++ [bar]) :
    p'.chart = p.chart.set bar.time bar := by
  rw [chart, h, Dict.collect, List.foldl_append]
  rfl

structure Charted (symbol : String) (p : LiveCandlePump) (start : Option Int) : Prop where
  drawn : p.chart.entries = (p.barsOf symbol).map fun bar => (bar.time, bar.shown)
  ordered : ∀ bar ∈ p.barsOf symbol, ∃ t, start = some t ∧ bar.time ≤ t

structure Lockstep (symbol exchange interval : String) (e : CandleEngine) (p : LiveCandlePump) (last : Option Trade) :
    Prop where
  feed : p.realFeed = true
  engine : e.seconds = spanSeconds interval ∧ e.mode = .live
  closed : e.published.map (fun c => c.toOhlcv) = p.persisted.map (fun e => e.2.2.2.toOhlcv)
  current : ∃ state, p.subs.get (symbolKey symbol) = some state ∧ state.exchange = exchange ∧
    state.spanS = spanSeconds interval ∧ Charted (symbolKey symbol) p state.barStart ∧
    match last with
    | none => e.opened.get (symbolKey symbol) = none ∧ state.bar = none ∧ state.barStart = none
    | some t => ∃ c bar, e.opened.get (symbolKey symbol) = some c ∧ state.bar = some bar ∧
        state.barStart = some bar.time ∧ c.toOhlcv = bar.toOhlcv ∧ c.bucket = bucketOf e.seconds t.now ∧
        bar.time = barTime exchange (spanSeconds interval) t.now

private theorem take_toOhlcv {c : Candle} {bar : PumpBar} (h : c.toOhlcv = bar.toOhlcv) (t : Trade) :
    (c.take t.price t.qty).toOhlcv = (bar.take t.price t.qty).toOhlcv := by
  obtain ⟨c, _, _⟩ := c
  obtain ⟨b, _⟩ := bar
  obtain rfl : c = b := h
  simp only [Candle.take, PumpBar.take, max_eq_left t.nonneg]

private theorem set_drawn_new {d : Dict Int PumpBar} {bars : List PumpBar}
    (h : d.entries = bars.map fun bar => (bar.time, bar.shown)) {bar : PumpBar} (hnew : ∀ b ∈ bars, b.time ≠ bar.time) :
    (d.set bar.time bar.shown).entries = (bars ++ [bar]).map fun bar => (bar.time, bar.shown) := by
  have hk : bar.time ∉ d.keys := by
    rw [Dict.keys, h, List.map_map]
    intro hm
    obtain ⟨b, hb, ht⟩ := List.mem_map.mp hm
    exact hnew b hb ht
  rw [Dict.entries_set_of_not_mem hk, h, List.map_append]
  rfl

private theorem set_drawn_last {d : Dict Int PumpBar} {bars : List PumpBar} {bar bar' : PumpBar}
    (h : d.entries = (bars ++ [bar]).map fun bar => (bar.time, bar.shown)) (ht : bar'.time = bar.time) :
    (d.set bar'.time bar'.shown).entries = (bars ++ [bar']).map fun bar => (bar.time, bar.shown) := by
  rw [List.map_append, List.map_singleton, ← ht] at h
  rw [Dict.entries_set_last h, List.map_append]
  rfl

variable {symbol exchange interval : String} {e : CandleEngine} {p : LiveCandlePump} {last : Option Trade}

section Roll
variable {state : Sub} {bar : PumpBar} {start : Int} {price : Rat}

private theorem roll_first (h : state.bar = none) : state.roll start price = (PumpBar.start start price, none) := by
  rw [Sub.roll, h]

private theorem roll_same (h : state.bar = some bar) (hs : state.barStart = some start) :
    state.roll start price = (bar, none) := by
  rw [Sub.roll, h, hs]
  exact if_neg (not_not_intro rfl)

private theorem roll_next (h : state.bar = some bar) (hs : state.barStart ≠ some start) :
    state.roll start price = (PumpBar.start start price, some bar) := by
  rw [Sub.roll, h]
  exact if_pos hs

end Roll

/-- The chart keeps up with a tick that goes on with the bar in progress, or starts a later one. -/
private theorem charted_step {p' : LiveCandlePump} {state : Sub} {start : Int} {price : Rat} {qty : Int}
    (h : Charted symbol p state.barStart) (hget : p.subs.get symbol = some state)
    (hstate : ∀ bar, state.bar = some bar → state.barStart = some bar.time) (hnone : state.bar = none → state.barStart = none)
    (hle : ∀ prev, state.barStart = some prev → prev ≤ start)
    (hbars : p'.barsOf symbol = p.persisted.map (fun e => e.2.2.2) ++ (state.roll start price).2.toList ++
      [(state.roll start price).1.take price qty])
    (hchart : p'.chart = p.chart.set ((state.roll start price).1.take price qty).shown.time
      ((state.roll start price).1.take price qty).shown) : Charted symbol p' (some start) := by
  obtain ⟨hdrawn, hordered⟩ := h
  have hdone {b : PumpBar} (hb : b ∈ p.barsOf symbol) : b.time ≤ start := by
    obtain ⟨prev, hprev, hle'⟩ := hordered b hb
    exact hle'.trans (hle prev hprev)
  cases hbar : state.bar with
  | none =>
    have hroll := @roll_first state start price hbar
    have hnil : p.barsOf symbol = [] :=
      List.eq_nil_iff_forall_not_mem.mpr fun b hb => by
        obtain ⟨prev, hprev, -⟩ := hordered b hb
        rw [hnone hbar] at hprev
        cases hprev
    rw [hroll, (List.append_eq_nil_iff.mp hnil).1] at hbars
    rw [hroll] at hchart
    rw [hnil] at hdrawn
    refine ⟨?_, fun b hb => ⟨start, rfl, ?_⟩⟩
    · rw [hchart, hbars]
      exact @set_drawn_new _ [] hdrawn ((PumpBar.start start price).take price qty) nofun
    · rw [hbars] at hb
      rw [List.mem_singleton.mp hb]
      exact le_refl start
  | some bar =>
    have hold : p.barsOf symbol = p.persisted.map (fun e => e.2.2.2) ++ [bar] := by
      rw [barsOf, hget, Option.bind_some, hbar]
      rfl
    have hstart := hstate bar hbar
    by_cases hsame : bar.time = start
    · have hroll := @roll_same state bar start price hbar (hsame ▸ hstart)
      rw [hroll, Option.toList_none, List.append_nil] at hbars
      rw [hroll] at hchart
      refine ⟨?_, fun b hb => ⟨start, rfl, ?_⟩⟩
      · rw [hold] at hdrawn
        rw [hchart, hbars]
        exact @set_drawn_last _ _ bar (bar.take price qty) hdrawn rfl
      · rw [hbars] at hb
        rcases List.mem_append.mp hb with hb | hb
        · exact hdone (hold ▸ List.mem_append_left _ hb)
        · rw [List.mem_singleton.mp hb]
          exact hsame.le
    · have hroll := @roll_next state bar start price hbar fun he => hsame (Option.some.inj (hstart.symm.trans he))
      rw [hroll, Option.toList_some, ← hold] at hbars
      rw [hroll] at hchart
      refine ⟨?_, fun b hb => ⟨start, rfl, ?_⟩⟩
      · rw [hchart, hbars]
        refine @set_drawn_new _ _ hdrawn ((PumpBar.start start price).take price qty) fun b hb he => hsame ?_
        have hb' : b.time = start := he
        obtain ⟨prev, hprev, hle'⟩ := hordered b hb
        rw [hstart] at hprev
        rw [hb', ← Option.some.inj hprev] at hle'
        exact le_antisymm (hle _ hstart) hle'
      · rw [hbars] at hb
        rcases List.mem_append.mp hb with hb | hb
        · exact hdone hb
        · rw [List.mem_singleton.mp hb]
          exact le_refl start

/-- What a tick leaves in a live engine: the candle in progress, and one more closed or none. -/
private def After (e e' : CandleEngine) (symbol : String) (c : Candle) (closed : List CandleClosedEvent) : Prop :=
  (e'.seconds = e.seconds ∧ e'.mode = e.mode) ∧ e'.opened.get symbol = some c ∧ e'.published = e.published ++ closed

private theorem tick_first {ev : TickEvent} (hm : e.mode = .live) (hg : e.opened.get ev.symbol = none) :
    After e (e.step (.tick ev)) ev.symbol ((Candle.start (e.bucket ev.ts) ev.exchange ev.price).take ev.price ev.quantity)
      [] := by
  rw [CandleEngine.step, CandleEngine.onTick, if_neg (by simp [hm]), CandleEngine.ingest, hg]
  exact ⟨⟨rfl, rfl⟩, Dict.get_set_self _ _ _, (List.append_nil _).symm⟩

private theorem tick_same {ev : TickEvent} {c : Candle} (hm : e.mode = .live) (hg : e.opened.get ev.symbol = some c)
    (hb : c.bucket = e.bucket ev.ts) : After e (e.step (.tick ev)) ev.symbol (c.take ev.price ev.quantity) [] := by
  rw [CandleEngine.step, CandleEngine.onTick, if_neg (by simp [hm]), CandleEngine.ingest, hg]
  dsimp only
  rw [if_neg (by rw [hb]; exact lt_irrefl _), if_pos hb]
  exact ⟨⟨rfl, rfl⟩, Dict.get_set_self _ _ _, (List.append_nil _).symm⟩

private theorem tick_next {ev : TickEvent} {c : Candle} (hm : e.mode = .live) (hg : e.opened.get ev.symbol = some c)
    (hb : c.bucket < e.bucket ev.ts) :
    After e (e.step (.tick ev)) ev.symbol ((Candle.start (e.bucket ev.ts) ev.exchange ev.price).take ev.price ev.quantity)
      [e.closing ev.symbol c] := by
  rw [CandleEngine.step, CandleEngine.onTick, if_neg (by simp [hm]), CandleEngine.ingest, hg]
  dsimp only
  rw [if_neg hb.not_gt, if_neg hb.ne]
  exact ⟨⟨rfl, rfl⟩, Dict.get_set_self _ _ _, rfl⟩

/-- The kernel and the pump both start a bar, go on with theirs, or close it and start another. -/
private theorem tick_follows {state : Sub} (hsec : e.seconds = spanSeconds interval) (hmode : e.mode = .live) (t : Trade)
    (hcur : match last with
      | none => e.opened.get (symbolKey symbol) = none ∧ state.bar = none ∧ state.barStart = none
      | some u => ∃ c bar, e.opened.get (symbolKey symbol) = some c ∧ state.bar = some bar ∧
          state.barStart = some bar.time ∧ c.toOhlcv = bar.toOhlcv ∧ c.bucket = bucketOf e.seconds u.now ∧
          bar.time = barTime state.exchange (spanSeconds interval) u.now)
    (hagree : ∀ u, last = some u → Agree (spanSeconds interval) state.exchange u.now t.now) :
    let rolled := state.roll (barTime state.exchange (spanSeconds interval) t.now) t.price
    ∃ c done, After e (e.step (.tick (t.event (symbolKey symbol) state.exchange))) (symbolKey symbol) c done ∧
      c.toOhlcv = (rolled.1.take t.price t.qty).toOhlcv ∧ c.bucket = bucketOf (spanSeconds interval) t.now ∧
      done.map (fun c => c.toOhlcv) = rolled.2.toList.map (fun bar => bar.toOhlcv) ∧
      rolled.1.time = barTime state.exchange (spanSeconds interval) t.now := by
  have hbucket : e.bucket (t.event (symbolKey symbol) state.exchange).ts = bucketOf (spanSeconds interval) t.now := by
    rw [bucket_event, hsec]
  generalize hstart : barTime state.exchange (spanSeconds interval) t.now = start
  dsimp only
  cases last with
  | none =>
    obtain ⟨hopened, hbar, -⟩ := hcur
    rw [@roll_first state start t.price hbar]
    exact ⟨_, _, @tick_first e (t.event (symbolKey symbol) state.exchange) hmode hopened, take_toOhlcv rfl t, hbucket, rfl,
      rfl⟩
  | some u =>
    obtain ⟨c, bar, hopened, hbar, hbarStart, hohlcv, hcbucket, htime⟩ := hcur
    obtain ⟨htogether, hbucketLe, -⟩ := hagree u rfl
    rw [hsec] at hcbucket
    rw [← hcbucket, ← htime, hstart] at htogether
    rw [← hcbucket] at hbucketLe
    by_cases hsame : c.bucket = bucketOf (spanSeconds interval) t.now
    · rw [@roll_same state bar start t.price hbar (htogether.mp hsame ▸ hbarStart)]
      exact ⟨_, _, @tick_same e (t.event (symbolKey symbol) state.exchange) c hmode hopened (hsame.trans hbucket.symm),
        take_toOhlcv hohlcv t, hsame, rfl, htogether.mp hsame⟩
    · have hnext : state.barStart ≠ some start := fun he =>
        hsame (htogether.mpr (Option.some.inj (hbarStart.symm.trans he)))
      rw [@roll_next state bar start t.price hbar hnext]
      exact ⟨_, _, @tick_next e (t.event (symbolKey symbol) state.exchange) c hmode hopened
        (hbucket ▸ lt_of_le_of_ne hbucketLe hsame), take_toOhlcv rfl t, hbucket, congrArg (fun c => [c]) hohlcv, rfl⟩

/-- One more tick keeps the kernel and the pump together. -/
theorem lockstep_step (h : Lockstep symbol exchange interval e p last) (t : Trade)
    (hopen : isMarketOpen exchange t.now = true)
    (hagree : ∀ u, last = some u → Agree (spanSeconds interval) exchange u.now t.now) :
    Lockstep symbol exchange interval (e.step (.tick (t.event (symbolKey symbol) exchange)))
      (p.step (.ingestTick symbol t.price t.qty t.now)) (some t) := by
  obtain ⟨hfeed, ⟨hsec, hmode⟩, hclosed, ⟨state, hget, rfl, hspan, hcharted, hcur⟩⟩ := h
  have hstate : (∀ bar, state.bar = some bar → state.barStart = some bar.time) ∧
      (state.bar = none → state.barStart = none) ∧
      ∀ prev, state.barStart = some prev → prev ≤ barTime state.exchange state.spanS t.now := by
    cases last with
    | none => simp [hcur.2.1, hcur.2.2]
    | some u =>
      obtain ⟨c, bar, -, hbar, hstart, -, -, htime⟩ := hcur
      have hle := (hagree u rfl).bar_le
      rw [← htime, ← hspan] at hle
      rw [hbar, hstart]
      simpa using hle
  obtain ⟨hbarStart, hnone, hle⟩ := hstate
  obtain ⟨hfeed', hsubs, hpersisted, hemitted⟩ :=
    @ingestTick_applied p symbol state hfeed hget t.price t.qty t.now t.positive hopen hle
  rw [hspan] at hsubs hpersisted hemitted hle
  obtain ⟨c, done, ⟨hsetup, hopened, hpublished⟩, hohlcv, hbucket, hdone, htime⟩ :=
    tick_follows hsec hmode t hcur hagree
  rw [step]
  generalize p.ingestTick symbol t.price t.qty t.now = p' at hfeed' hsubs hpersisted hemitted ⊢
  generalize hrolled : state.roll (barTime state.exchange (spanSeconds interval) t.now) t.price = rolled at *
  have hget' := (congrArg (fun subs => subs.get (symbolKey symbol)) hsubs).trans (Dict.get_set_self _ _ _)
  have hpers : p'.persisted.map (fun e => e.2.2.2) = p.persisted.map (fun e => e.2.2.2) ++ rolled.2.toList := by
    rw [hpersisted, List.map_append, List.map_map]
    exact congrArg (_ ++ ·) (List.map_id _)
  have hemit := congrArg (List.map fun m => m.candle) hemitted
  rw [List.map_append, List.map_singleton] at hemit
  have hbars : p'.barsOf (symbolKey symbol) =
      p.persisted.map (fun e => e.2.2.2) ++ rolled.2.toList ++ [rolled.1.take t.price t.qty] := by
    rw [barsOf, hpers, hget']
    rfl
  have hcharted' := charted_step hcharted hget hbarStart hnone hle (hrolled ▸ hbars) (hrolled ▸ chart_concat hemit)
  have hpers' := congrArg (List.map fun bar => bar.toOhlcv) hpers
  rw [List.map_append, List.map_map, List.map_map] at hpers'
  refine ⟨hfeed', ⟨hsetup.1.trans hsec, hsetup.2.trans hmode⟩, ?_, _, hget', rfl, rfl, hcharted', c, _, hopened, rfl, ?_,
    hohlcv, ?_, htime⟩
  · rw [hpublished, List.map_append, hdone, hclosed]
    exact hpers'.symm
  · exact congrArg some htime.symm
  · rw [hsetup.1, hsec]
    exact hbucket

def InSession (exchange : String) (ticks : List Trade) : Prop :=
  (∀ t ∈ ticks, isMarketOpen exchange t.now = true) ∧ ticks.Pairwise fun t u => t.now ≤ u.now

def fed (symbol exchange interval : String) (ticks : List Trade) : LiveCandlePump :=
  (watching symbol exchange interval).run (ticks.map fun t => .ingestTick symbol t.price t.qty t.now)

def heard (e : CandleEngine) (symbol exchange : String) (ticks : List Trade) : CandleEngine :=
  e.run (ticks.map fun t => .tick (t.event (symbolKey symbol) (exchangeKey exchange)))

private theorem lockstep_start (symbol exchange interval : String) {e : CandleEngine} (he : e.Started)
    (hs : e.seconds = spanSeconds interval) (hm : e.mode = .live) :
    Lockstep symbol (exchangeKey exchange) interval e (watching symbol exchange interval) none := by
  have hget : (watching symbol exchange interval).subs.get (symbolKey symbol) = some
      { symbol := symbolKey symbol, exchange := exchangeKey exchange, interval, spanS := spanSeconds interval } :=
    Dict.get_set_self _ _ _
  have hnil : (watching symbol exchange interval).barsOf (symbolKey symbol) = [] := by
    rw [barsOf, hget]
    rfl
  refine ⟨rfl, ⟨hs, hm⟩, ?_, _, hget, rfl, rfl, ⟨?_, ?_⟩, ?_, rfl, rfl⟩
  · rw [he.published]
    rfl
  · rw [hnil]
    rfl
  · rw [hnil]
    exact nofun
  · rw [he.opened]
    rfl

theorem lockstep_run {symbol exchange interval : String} {e : CandleEngine} (he : e.Started)
    (hs : e.seconds = spanSeconds interval) (hm : e.mode = .live)
    (hspan : spanSeconds interval = 60 ∨ spanSeconds interval = 300 ∨ spanSeconds interval = 900 ∨
      spanSeconds interval = 86400) {ticks : List Trade} (ht : InSession (exchangeKey exchange) ticks) :
    Lockstep symbol (exchangeKey exchange) interval (heard e symbol exchange ticks) (fed symbol exchange interval ticks)
      ticks.getLast? := by
  induction ticks using List.reverseRecOn with
  | nil => exact lockstep_start symbol exchange interval he hs hm
  | append_singleton ticks t ih =>
    obtain ⟨hopen, hsorted⟩ := ht
    obtain ⟨hsorted', -, hle⟩ := List.pairwise_append.mp hsorted
    have hopen' (u : Trade) (hu : u ∈ ticks) := hopen u (List.mem_append_left _ hu)
    have hlast := hopen t (by simp)
    rw [List.getLast?_concat, heard, fed, List.map_append, List.map_append, CandleEngine.run_append, run, List.foldl_append]
    refine lockstep_step (ih ⟨hopen', hsorted'⟩) t hlast fun u hu => ?_
    have hmem := List.mem_of_getLast? hu
    exact agree_of_le (of_decide_eq_true (hopen' u hmem)).2 (of_decide_eq_true hlast).2
      (hle u hmem t (List.mem_singleton_self _)) hspan

/-- Two ticks are in one candle of the kernel exactly if they are in one bar of the pump. -/
def SamePartition (e : CandleEngine) (symbol exchange interval : String) (ticks : List Trade) : Prop :=
  ∀ t ∈ ticks, ∀ u ∈ ticks, e.bucket (t.event symbol exchange).ts = e.bucket (u.event symbol exchange).ts ↔
    barTime exchange (spanSeconds interval) t.now = barTime exchange (spanSeconds interval) u.now

/-- The candles of the kernel, once flushed, are the bars of the pump, and the chart shows them rounded. -/
def SameCandles (e : CandleEngine) (symbol exchange interval : String) (ticks : List Trade) : Prop :=
  let candles := ((heard e symbol exchange ticks).flush (some (symbolKey symbol))).published.map fun c => c.toOhlcv
  candles = ((fed symbol exchange interval ticks).barsOf (symbolKey symbol)).map (fun bar => bar.toOhlcv) ∧
    (fed symbol exchange interval ticks).chart.entries.map (fun e => e.2.toOhlcv) = candles.map rounded

private theorem Lockstep.sameCandles {e : CandleEngine} {symbol exchange interval : String} {ticks : List Trade}
    (h : Lockstep symbol (exchangeKey exchange) interval (heard e symbol exchange ticks)
      (fed symbol exchange interval ticks) ticks.getLast?) : SameCandles e symbol exchange interval ticks := by
  obtain ⟨-, -, hclosed, state, hget, -, -, ⟨hdrawn, -⟩, hcur⟩ := h
  have hcandles : ((heard e symbol exchange ticks).flush (some (symbolKey symbol))).published.map (fun c => c.toOhlcv) =
      ((fed symbol exchange interval ticks).barsOf (symbolKey symbol)).map fun bar => bar.toOhlcv := by
    rw [barsOf, hget, List.map_append, List.map_map, CandleEngine.flush, List.foldl_cons, List.foldl_nil,
      CandleEngine.flushSymbol]
    cases hlast : ticks.getLast? with
    | none =>
      rw [hlast] at hcur
      rw [hcur.1, Option.bind_some, hcur.2.1]
      exact hclosed.trans (List.append_nil _).symm
    | some t =>
      rw [hlast] at hcur
      obtain ⟨c, bar, hopened, hbar, -, hohlcv, -, -⟩ := hcur
      have hclose (e : CandleEngine) : (e.close (symbolKey symbol) c).published =
          e.published ++ [e.closing (symbolKey symbol) c] := rfl
      rw [hopened, Option.bind_some, hbar, hclose, List.map_append]
      exact congrArg₂ (· ++ ·) hclosed (congrArg (fun c => [c]) hohlcv)
  refine ⟨hcandles, ?_⟩
  rw [hcandles, hdrawn, List.map_map, List.map_map]
  rfl

private theorem wire_cases {interval : String} (h : interval ∈ WIRE_INTERVALS) :
    timeframeSeconds interval = .ok (spanSeconds interval) ∧ (interval ≠ "1h" →
      spanSeconds interval = 60 ∨ spanSeconds interval = 300 ∨ spanSeconds interval = 900 ∨
        spanSeconds interval = 86400) := by
  rw [spanSeconds, tableOf_span]
  simp only [WIRE_INTERVALS, List.mem_cons, List.not_mem_nil, or_false] at h
  rcases h with rfl | rfl | rfl | rfl | rfl <;> decide +kernel

/-- A trade on 2 January 2024, so many minutes after 10:20. -/
private def trade (minutes : Nat) : Trade :=
  { price := 100, qty := 1, now := (1704190800 + minutes * 60) * 1000000, positive := by decide, nonneg := by decide }

/-- Between 10:20 and 10:40 an hour starts in UTC, but none since the open. -/
private theorem hour_splits (exchange : String) :
    isMarketOpen exchange (trade 0).now = true ∧ isMarketOpen exchange (trade 20).now = true ∧
      bucketOf 3600 (trade 0).now ≠ bucketOf 3600 (trade 20).now ∧
      barTime exchange 3600 (trade 0).now = barTime exchange 3600 (trade 20).now := by
  rw [isMarketOpen, isMarketOpen, inSession, inSession, barTime, barTime, sessionStart, sessionStart, sessionOpen, sessionClose]
  split_ifs <;> decide +kernel

private theorem trades_inSession (exchange : String) : InSession exchange [trade 0, trade 20] := by
  obtain ⟨hopen, hopen', -, -⟩ := hour_splits exchange
  constructor
  · simp only [List.mem_cons, List.not_mem_nil, or_false, forall_eq_or_imp, forall_eq]
    exact ⟨hopen, hopen'⟩
  · rw [List.pairwise_pair]
    exact Nat.mul_le_mul_right _ (Nat.add_le_add_left (by decide) _)

private theorem hour_parts {e : CandleEngine} (hs : e.seconds = 3600) (symbol exchange : String) :
    ¬ SamePartition e symbol exchange "1h" [trade 0, trade 20] := by
  intro h
  obtain ⟨-, -, hne, heq⟩ := hour_splits exchange
  have hspan : spanSeconds "1h" = 3600 := by decide +kernel
  have hiff := h (trade 0) (by simp) (trade 20) (by simp)
  rw [bucket_event, bucket_event, hs, hspan] at hiff
  exact hne (hiff.mpr heq)

/-- The candles of the kernel are the bars of the chart, whatever the ticks, exactly on all intervals but
that of an hour. -/
theorem kernel_candles_match_chart_iff (symbol exchange interval : String) (maxCandles : Nat)
    (h : interval ∈ WIRE_INTERVALS) :
    ∃ e, CandleEngine.init interval maxCandles .live = .ok e ∧
      ((∀ ticks, InSession (exchangeKey exchange) ticks →
        SamePartition e (symbolKey symbol) (exchangeKey exchange) interval ticks ∧
          SameCandles e symbol exchange interval ticks) ↔ interval ≠ "1h") := by
  obtain ⟨hseconds, hspan⟩ := wire_cases h
  have hinit : CandleEngine.init interval maxCandles .live =
      .ok { timeframe := interval, seconds := spanSeconds interval, maxCandles, mode := .live } := by
    rw [CandleEngine.init, hseconds]
    rfl
  refine ⟨_, hinit, ?_, ?_⟩
  · rintro hall rfl
    have hspan : spanSeconds "1h" = 3600 := by decide +kernel
    exact hour_parts hspan _ _ (hall _ (trades_inSession _)).1
  · intro hne ticks hticks
    refine ⟨fun t ht u hu => ?_, ?_⟩
    · have ht' := (of_decide_eq_true (hticks.1 t ht)).2
      have hu' := (of_decide_eq_true (hticks.1 u hu)).2
      rw [bucket_event, bucket_event]
      rcases le_total t.now u.now with hle | hle
      · exact (agree_of_le ht' hu' hle (hspan hne)).together
      · rw [eq_comm, @eq_comm _ (barTime _ _ t.now)]
        exact (agree_of_le hu' ht' hle (hspan hne)).together
    · exact (lockstep_run (CandleEngine.init_started hinit (by decide)) rfl rfl (hspan hne) hticks).sameCandles

theorem five_minutes_match :
    ∃ e, CandleEngine.init "5m" 100 .live = .ok e ∧
      SamePartition e "NIFTY" "NFO" "5m" [trade 0, trade 20] ∧ SameCandles e "NIFTY" "NFO" "5m" [trade 0, trade 20] := by
  have hkeys : symbolKey "NIFTY" = "NIFTY" ∧ exchangeKey "NFO" = "NFO" := by decide +kernel
  obtain ⟨e, he, hiff⟩ := kernel_candles_match_chart_iff "NIFTY" "NFO" "5m" 100 (by decide)
  have hmatch := hiff.mpr (by decide) [trade 0, trade 20] (trades_inSession _)
  rw [hkeys.1, hkeys.2] at hmatch
  exact ⟨e, he, hmatch⟩

/-- Trades at 10:20 and 10:40 on an hourly chart: one bar of the pump, two candles of the kernel. -/
theorem hour_candles_differ :
    ¬ ∀ e, CandleEngine.init "1h" 100 .live = .ok e → SamePartition e "NIFTY" "NFO" "1h" [trade 0, trade 20] := by
  intro h
  exact hour_parts rfl _ _ (h { timeframe := "1h", seconds := 3600, maxCandles := 100, mode := .live } rfl)

end LiveCandlePump

end NTrade.Api
