import NTrade.Api.LiveCandlePump
import NTrade.Lib.Trace

/-! A symbol keeps its bar in progress when it is subscribed again with another interval. The ticks of the bar
are then of one interval, and its label of another. -/
namespace NTrade.Api
open NTrade.Domain NTrade.Lib NTrade.Engines

section Spans

/-- Seconds since the open, none before it. -/
def elapsedOf (exchange : String) (now : Nat) : Int := max (now % DAY - sessionOpen exchange) 0 / MICROS

theorem barTime_eq_elapsed (exchange : String) (spanS now : Nat) :
    barTime exchange spanS now = openEpoch exchange now + elapsedOf exchange now / spanS * spanS := by
  have hsub : (now : Int) - sessionStart exchange now = now % DAY - sessionOpen exchange := by
    have := Int.mul_ediv_add_emod now DAY
    rw [sessionStart]
    linarith
  rw [barTime, hsub, epochOf_start, elapsedOf]

theorem elapsedOf_nonneg (exchange : String) (now : Nat) : 0 ≤ elapsedOf exchange now :=
  Int.ediv_nonneg (le_max_right _ _) (by decide)

/-- Wall time from the first day on has a date in Indian time. -/
theorem epochOf_eq {now : Nat} (h : IST * MICROS ≤ now) : epochOf now = now / MICROS - IST := by
  rw [IST, MICROS] at h
  rw [epochOf, Timestamp.epoch, Timestamp.micros, IST, MICROS, Int.tdiv_eq_ediv_of_nonneg (by omega)]
  omega

theorem dated_of_inSession {exchange : String} {now : Nat} (h : inSession exchange now = true) :
    IST * MICROS ≤ now := by
  obtain ⟨ho, -⟩ := of_decide_eq_true h
  rw [sessionOpen, DAY, MICROS] at ho
  rw [IST, MICROS]
  split_ifs at ho
  · rw [timeOfDay, MICROS] at ho
    omega
  · rw [timeOfDay, MICROS] at ho
    omega

private theorem floor_le {e s : Int} (he : 0 ≤ e) : e / s * s ≤ e := by
  by_cases hs : s = 0
  · rw [hs, mul_zero]
    exact he
  · exact Int.ediv_mul_le e hs

private theorem floor_mono {e e' s : Int} (hs : 0 ≤ s) (h : e ≤ e') : e / s * s ≤ e' / s * s := by
  rcases hs.eq_or_lt with rfl | hpos
  · rw [mul_zero, mul_zero]
  · exact mul_le_mul_of_nonneg_right (Int.ediv_le_ediv hpos h) hs

/-- A number between a multiple and a number whose multiple it is has that multiple too. -/
private theorem floor_eq {e e' s : Int} (hs : 0 ≤ s) (h : e' / s * s ≤ e) (hle : e ≤ e') : e / s * s = e' / s * s := by
  apply le_antisymm (floor_mono hs hle)
  rcases hs.eq_or_lt with rfl | hpos
  · rw [mul_zero, mul_zero]
  · exact mul_le_mul_of_nonneg_right (Int.le_ediv_of_mul_le hpos h) hs

/-- A bar starts no later than its tick. -/
theorem barTime_le {exchange : String} {now : Nat} (h : inSession exchange now = true) (spanS : Nat) :
    barTime exchange spanS now ≤ epochOf now := by
  rw [barTime_eq h, epochOf_now h]
  exact (add_le_add_iff_left _).mpr (floor_le (sinceOpen_nonneg h))

private theorem elapsed_cases (exchange : String) {now now' : Nat} (h : now ≤ now') :
    openEpoch exchange now + elapsedOf exchange now ≤ openEpoch exchange now' ∨
      openEpoch exchange now = openEpoch exchange now' ∧ elapsedOf exchange now ≤ elapsedOf exchange now' := by
  rw [openEpoch, openEpoch, elapsedOf, elapsedOf, sessionOpen, DAY, MICROS]
  split_ifs
  · rw [timeOfDay, MICROS]
    omega
  · rw [timeOfDay, MICROS]
    omega

theorem barTime_mono (exchange : String) (spanS : Nat) {now now' : Nat} (h : now ≤ now') :
    barTime exchange spanS now ≤ barTime exchange spanS now' := by
  have hs : (0 : Int) ≤ spanS := Int.natCast_nonneg _
  rw [barTime_eq_elapsed, barTime_eq_elapsed]
  rcases elapsed_cases exchange h with hday | ⟨hday, hle⟩
  · have hlow := floor_le (s := spanS) (elapsedOf_nonneg exchange now)
    have hhigh := mul_nonneg (Int.ediv_nonneg (elapsedOf_nonneg exchange now') hs) hs
    omega
  · rw [hday]
    exact (add_le_add_iff_left _).mpr (floor_mono hs hle)

/-- Between the start of a bar and one of its ticks, every tick is of the bar. -/
theorem barTime_between (exchange : String) (spanS : Nat) {now now' : Nat} (hd : IST * MICROS ≤ now) (h : now ≤ now')
    (hb : barTime exchange spanS now' ≤ epochOf now) : barTime exchange spanS now = barTime exchange spanS now' := by
  have hs : (0 : Int) ≤ spanS := Int.natCast_nonneg _
  rw [barTime_eq_elapsed, epochOf_eq hd] at hb
  rw [barTime_eq_elapsed, barTime_eq_elapsed]
  have hfloor := mul_nonneg (Int.ediv_nonneg (elapsedOf_nonneg exchange now') hs) hs
  have hday : openEpoch exchange now = openEpoch exchange now' ∧ now / MICROS - IST ≤ openEpoch exchange now + elapsedOf exchange now ∧
      elapsedOf exchange now ≤ elapsedOf exchange now' := by
    generalize elapsedOf exchange now' / spanS * spanS = q at hb hfloor
    rw [openEpoch, MICROS, IST] at hb
    rw [openEpoch, openEpoch, elapsedOf, elapsedOf, sessionOpen, DAY, IST, MICROS]
    rw [DAY, MICROS] at hb
    split_ifs at hb ⊢
    · rw [timeOfDay, MICROS]
      omega
    · rw [timeOfDay, MICROS]
      omega
  obtain ⟨hopen, hlow, hle⟩ := hday
  rw [hopen] at hlow ⊢
  rw [floor_eq hs (by omega) hle]

end Spans

section Ticks

def formed (time : Int) : List TickRecord → Option PumpBar
  | [] => none
  | t :: ts => some (ts.foldl (fun bar t => bar.take t.price t.qty) ((PumpBar.start time t.price).take t.price t.qty))

theorem formed_concat {time : Int} {ts : List TickRecord} {bar : PumpBar} (h : formed time ts = some bar)
    (t : TickRecord) : formed time (ts ++ [t]) = some (bar.take t.price t.qty) := by
  cases ts with
  | nil => cases h
  | cons u us =>
    rw [formed] at h
    rw [List.cons_append, formed, List.foldl_append, Option.some.inj h]
    rfl

@[simp] theorem take_volume (bar : PumpBar) (price : Rat) {qty : Int} (h : 0 ≤ qty) :
    (bar.take price qty).volume = bar.volume + qty := by
  rw [PumpBar.take]
  exact congrArg (bar.volume + ·) (max_eq_left h)

def ticksFor (symbol : String) (fed : List TickRecord) : List TickRecord := fed.filter fun t => t.symbol = symbol

theorem ticksFor_append_self {symbol : String} (fed : List TickRecord) {new : List TickRecord}
    (h : ∀ t ∈ new, t.symbol = symbol) : ticksFor symbol (fed ++ new) = ticksFor symbol fed ++ new := by
  rw [ticksFor, List.filter_append, ticksFor]
  exact congrArg _ (List.filter_eq_self.mpr fun t ht => decide_eq_true (h t ht))

theorem ticksFor_append_of_ne {symbol other : String} (fed : List TickRecord) {new : List TickRecord}
    (h : ∀ t ∈ new, t.symbol = symbol) (hne : other ≠ symbol) : ticksFor other (fed ++ new) = ticksFor other fed := by
  rw [ticksFor, List.filter_append, ticksFor]
  have hnone : new.filter (fun t => t.symbol = other) = [] :=
    List.filter_eq_nil_iff.mpr fun t ht ho => hne ((of_decide_eq_true ho).symm.trans (h t ht))
  rw [hnone, List.append_nil]

namespace LiveCandlePump

def Act.tick : Act → Option TickRecord
  | .ingestTick symbol price qty now => some { ts := now, symbol := symbolKey symbol, price, qty }
  | _ => none

def ticksOf (acts : List Act) : List TickRecord := acts.filterMap Act.tick

theorem ticksOf_concat (acts : List Act) (a : Act) : ticksOf (acts ++ [a]) = ticksOf acts ++ a.tick.toList := by
  rw [ticksOf, List.filterMap_append]
  cases h : a.tick <;> simp [ticksOf, h]

end LiveCandlePump

end Ticks

namespace LiveCandlePump

section Conservation

def Built (e : String × String × String × PumpBar) (ticks : List TickRecord) : Prop :=
  formed e.2.2.2.time ticks = some e.2.2.2 ∧ ∀ t ∈ ticks, barTime e.2.1 (spanSeconds e.2.2.1) t.ts = e.2.2.2.time

def written (symbol : String) (p : LiveCandlePump) : Int :=
  ((p.persisted.filter fun e => e.1 = symbol).map fun e => e.2.2.2.volume).sum

def inProgress (symbol : String) (p : LiveCandlePump) : Int :=
  ((p.subs.get symbol).bind Sub.bar).elim 0 fun bar => bar.volume

structure Conserves (fed : List TickRecord) (p : LiveCandlePump) : Prop where
  /-- Each tick was applied to a bar, in the order of the feed. -/
  applied : p.emitted.map (fun m => (m.symbol, m.ts)) = fed.map fun t => (t.symbol, t.ts)
  labelled : ∀ e ∈ p.persisted, ∃ ticks, ticks <:+: ticksFor e.1 fed ∧ Built e ticks
  volume : ∀ symbol, written symbol p + inProgress symbol p = ((ticksFor symbol fed).map (·.qty)).sum

/-- What the feed and the clients do: trades of subscribed symbols come in session and in order, and no bar in
progress is dropped with its subscription. -/
def Fed (p : LiveCandlePump) : Act → Prop
  | .ingestTick symbol price qty now => 0 < price ∧ 0 ≤ qty ∧ ∃ state, p.subs.get (symbolKey symbol) = some state ∧
      isMarketOpen state.exchange now = true ∧ ∀ last, state.lastTick = some last → last ≤ now
  | .unsubscribe symbol => (p.subs.get (symbolKey symbol)).bind Sub.bar = none
  | _ => True

def InStep (state : Sub) : Prop :=
  ∀ bar last, state.bar = some bar → state.lastTick = some last → barTime state.exchange state.spanS last = bar.time

def Kept (p : LiveCandlePump) : Act → Prop
  | .ingestTick symbol _ _ _ => ∀ state, p.subs.get (symbolKey symbol) = some state → InStep state
  | .runOnce now => ∀ symbol state, p.subs.get symbol = some state → isMarketOpen state.exchange now = false → InStep state
  | _ => True

instance (state : Sub) : Decidable (InStep state) :=
  decidable_of_iff (∀ bar ∈ state.bar, ∀ last ∈ state.lastTick, barTime state.exchange state.spanS last = bar.time)
    ⟨fun h bar last hb hl => h bar hb last hl, fun h bar hb last hl => h bar last hb hl⟩

instance (p : LiveCandlePump) (a : Act) : Decidable (Fed p a) :=
  match a with
  | .ingestTick symbol price qty now =>
    decidable_of_iff (0 < price ∧ 0 ≤ qty ∧ ∃ state ∈ p.subs.get (symbolKey symbol),
      isMarketOpen state.exchange now = true ∧ ∀ last ∈ state.lastTick, last ≤ now) Iff.rfl
  | .unsubscribe symbol =>
    decidable_of_iff ((p.subs.get (symbolKey symbol)).bind Sub.bar = none) Iff.rfl
  | .attachBrokerFeed | .subscribe .. | .runOnce _ => .isTrue trivial

instance (p : LiveCandlePump) (a : Act) : Decidable (Kept p a) :=
  match a with
  | .ingestTick symbol _ _ _ =>
    decidable_of_iff (∀ state ∈ p.subs.get (symbolKey symbol), InStep state) Iff.rfl
  | .runOnce now =>
    decidable_of_iff (∀ e ∈ p.subs.entries, isMarketOpen e.2.exchange now = false → InStep e.2)
      ⟨fun h symbol state hg => h (symbol, state) ((Dict.mem_entries_iff _ _ _).mpr hg),
        fun h e he => h e.1 e.2 ((Dict.mem_entries_iff _ _ _).mp he)⟩
  | .attachBrokerFeed | .subscribe .. | .unsubscribe _ => .isTrue trivial

structure Underway (ticks : List TickRecord) (bar : PumpBar) (state : Sub) : Prop where
  start : state.barStart = some bar.time
  formed : formed bar.time ticks = some bar
  last : ∃ last, state.lastTick = some last ∧ ∀ t ∈ ticks, t.ts ≤ last
  inside : ∀ t ∈ ticks, IST * MICROS ≤ t.ts ∧ bar.time ≤ epochOf t.ts

structure Tracked (symbol : String) (fed : List TickRecord) (state : Sub) : Prop where
  named : state.symbol = symbol
  span : state.spanS = spanSeconds state.interval
  idle : state.bar = none → state.barStart = none
  busy : ∀ bar, state.bar = some bar → ∃ ticks, ticks <:+ fed ∧ Underway ticks bar state

structure Steady (fed : List TickRecord) (p : LiveCandlePump) : Prop extends Conserves fed p where
  tracked : ∀ symbol state, p.subs.get symbol = some state → Tracked symbol (ticksFor symbol fed) state
  feed : ∀ symbol state, p.subs.get symbol = some state → p.realFeed = true

/-- A bar in step is of its label's span. -/
theorem Underway.built {ticks : List TickRecord} {bar : PumpBar} {state : Sub} (h : Underway ticks bar state)
    (hb : state.bar = some bar) (hspan : state.spanS = spanSeconds state.interval) (hs : InStep state) :
    Built (state.symbol, state.exchange, state.interval, bar) ticks := by
  obtain ⟨last, hlast, hle⟩ := h.last
  have hstart := hs bar last hb hlast
  rw [Built, ← hspan]
  refine ⟨h.formed, fun t ht => ?_⟩
  obtain ⟨hd, hin⟩ := h.inside t ht
  rw [← hstart] at hin ⊢
  exact barTime_between state.exchange state.spanS hd (hle t ht) hin

/-- A tick in order is not of an earlier bar. -/
theorem Underway.start_le {ticks : List TickRecord} {bar : PumpBar} {state : Sub} (h : Underway ticks bar state)
    (hb : state.bar = some bar) (hs : InStep state) {now : Nat} (hn : ∀ last, state.lastTick = some last → last ≤ now) :
    bar.time ≤ barTime state.exchange state.spanS now := by
  obtain ⟨last, hlast, -⟩ := h.last
  rw [← hs bar last hb hlast]
  exact barTime_mono state.exchange state.spanS (hn last hlast)

/-- A tick of the bar in progress. -/
theorem Underway.concat {ticks : List TickRecord} {bar : PumpBar} {state : Sub} (h : Underway ticks bar state)
    {t : TickRecord} (hn : ∀ last, state.lastTick = some last → last ≤ t.ts) (hd : IST * MICROS ≤ t.ts)
    (hin : bar.time ≤ epochOf t.ts) {next : Sub} (hstart : next.barStart = some bar.time) (hlast : next.lastTick = some t.ts) :
    Underway (ticks ++ [t]) (bar.take t.price t.qty) next := by
  obtain ⟨last, hl, hle⟩ := h.last
  have hall {P : TickRecord → Prop} (ho : ∀ u ∈ ticks, P u) (ht : P t) : ∀ u ∈ ticks ++ [t], P u := by
    intro u hu
    rcases List.mem_append.mp hu with hu | hu
    · exact ho u hu
    · rw [List.mem_singleton.mp hu]
      exact ht
  refine ⟨hstart, formed_concat h.formed t, ⟨t.ts, hlast, ?_⟩, ?_⟩
  · exact hall (fun u hu => (hle u hu).trans (hn last hl)) le_rfl
  · exact hall h.inside ⟨hd, hin⟩

/-- The first tick of a bar. -/
theorem Underway.first {time : Int} {t : TickRecord} (hd : IST * MICROS ≤ t.ts) (hin : time ≤ epochOf t.ts) {next : Sub}
    (hstart : next.barStart = some time) (hlast : next.lastTick = some t.ts) :
    Underway [t] ((PumpBar.start time t.price).take t.price t.qty) next := by
  refine ⟨hstart, rfl, ⟨t.ts, hlast, ?_⟩, ?_⟩
  · intro u hu
    rw [List.mem_singleton.mp hu]
  · intro u hu
    rw [List.mem_singleton.mp hu]
    exact ⟨hd, hin⟩

private theorem roll_kept {symbol : String} {fed : List TickRecord} {state : Sub} (h : Tracked symbol fed state)
    (hs : InStep state) {t : TickRecord} (hq : 0 ≤ t.qty) (hopen : isMarketOpen state.exchange t.ts = true)
    (hn : ∀ last, state.lastTick = some last → last ≤ t.ts) {s : Sub}
    (hstart : s.barStart = some (barTime state.exchange state.spanS t.ts)) (hlast : s.lastTick = some t.ts) :
    let rolled := state.roll (barTime state.exchange state.spanS t.ts) t.price
    (∃ ticks, ticks <:+ fed ++ [t] ∧ Underway ticks (rolled.1.take t.price t.qty) s) ∧
    (∀ bar, rolled.2 = some bar → ∃ ticks, ticks <:+ fed ∧ Built (state.symbol, state.exchange, state.interval, bar) ticks) ∧
    rolled.2.elim 0 (fun bar => bar.volume) + (rolled.1.take t.price t.qty).volume =
      state.bar.elim 0 (fun bar => bar.volume) + t.qty := by
  have hin : inSession state.exchange t.ts = true := (of_decide_eq_true hopen).2
  have hd := dated_of_inSession hin
  have hle := barTime_le hin state.spanS
  have hnew : ∃ ticks, ticks <:+ fed ++ [t] ∧ Underway ticks
      ((PumpBar.start (barTime state.exchange state.spanS t.ts) t.price).take t.price t.qty) s :=
    ⟨[t], List.suffix_append fed [t], Underway.first hd hle hstart hlast⟩
  have hzero (time : Int) : ((PumpBar.start time t.price).take t.price t.qty).volume = t.qty := by
    rw [take_volume _ _ hq]
    exact zero_add _
  rw [Sub.roll]
  cases hb : state.bar with
  | none => exact ⟨hnew, fun _ hdone => (by cases hdone), congrArg (0 + ·) (hzero _)⟩
  | some bar =>
    obtain ⟨ticks, hsuf, hway⟩ := h.busy bar hb
    by_cases hsame : state.barStart ≠ some (barTime state.exchange state.spanS t.ts)
    · dsimp only
      rw [if_pos hsame]
      refine ⟨hnew, fun done hdone => ?_, congrArg (bar.volume + ·) (hzero _)⟩
      rw [← Option.some.inj hdone]
      exact ⟨ticks, hsuf, hway.built hb h.span hs⟩
    · dsimp only
      rw [if_neg hsame]
      rw [ne_eq, not_not, hway.start] at hsame
      have htime := Option.some.inj hsame
      rw [← htime] at hle hstart
      refine ⟨⟨ticks ++ [t], ?_, hway.concat hn hd hle hstart hlast⟩, fun _ hdone => (by cases hdone), ?_⟩
      · obtain ⟨before, hfed⟩ := hsuf
        exact ⟨before, by rw [← List.append_assoc, hfed]⟩
      · rw [take_volume _ _ hq]
        exact zero_add _

/-- A tick that finds its bar in step is applied. -/
theorem ingestTick_kept {p : LiveCandlePump} {symbol : String} {price : Rat} {qty : Int} {now : Nat} {state : Sub}
    {fed : List TickRecord} (h : Tracked (symbolKey symbol) fed state) (hg : p.subs.get (symbolKey symbol) = some state)
    (hs : InStep state) (hp : 0 < price) (hopen : isMarketOpen state.exchange now = true)
    (hn : ∀ last, state.lastTick = some last → last ≤ now) (hf : p.realFeed = true) :
    let start := barTime state.exchange state.spanS now
    let rolled := state.roll start price
    let next := { state with lastTick := some now, barStart := some start, bar := some (rolled.1.take price qty) }
    (p.ingestTick symbol price qty now).subs = p.subs.set (symbolKey symbol) next ∧
    (p.ingestTick symbol price qty now).realFeed = true ∧
    (p.ingestTick symbol price qty now).persisted =
      p.persisted ++ rolled.2.toList.map (fun bar => (state.symbol, state.exchange, state.interval, bar)) ∧
    (p.ingestTick symbol price qty now).emitted.map (fun m => (m.symbol, m.ts)) =
      p.emitted.map (fun m => (m.symbol, m.ts)) ++ [(state.symbol, now)] := by
  have hle (prev : Int) (hprev : state.barStart = some prev) : prev ≤ barTime state.exchange state.spanS now := by
    cases hb : state.bar with
    | none =>
      rw [h.idle hb] at hprev
      cases hprev
    | some bar =>
      obtain ⟨ticks, -, hway⟩ := h.busy bar hb
      rw [hway.start] at hprev
      rw [← Option.some.inj hprev]
      exact hway.start_le hb hs hn
  obtain ⟨hfeed, hsubs, hpers, hemit⟩ := @ingestTick_applied p symbol state hf hg price qty now hp hopen hle
  refine ⟨hsubs, hfeed, hpers, ?_⟩
  rw [hemit, List.map_append, List.map_singleton]

/-- What a subscription gives up to the store and takes from the feed. -/
theorem Steady.move {fed : List TickRecord} {p q : LiveCandlePump} (h : Steady fed p) {symbol : String} {next : Sub}
    {d : Option PumpBar} {x i : String} {n : List TickRecord} (hnew : ∀ t ∈ n, t.symbol = symbol)
    (hsubs : q.subs = p.subs.set symbol next) (hf : q.realFeed = true)
    (hpers : q.persisted = p.persisted ++ d.toList.map fun bar => (symbol, x, i, bar))
    (hemit : q.emitted.map (fun m => (m.symbol, m.ts)) =
      p.emitted.map (fun m => (m.symbol, m.ts)) ++ n.map fun t => (t.symbol, t.ts))
    (hnext : Tracked symbol (ticksFor symbol fed ++ n) next)
    (hdone : ∀ bar, d = some bar → ∃ ticks, ticks <:+ ticksFor symbol fed ∧ Built (symbol, x, i, bar) ticks)
    (hvol : d.elim 0 (fun bar => bar.volume) + next.bar.elim 0 (fun bar => bar.volume) =
      inProgress symbol p + (n.map (·.qty)).sum) : Steady (fed ++ n) q := by
  have hpart (other : String) : ticksFor other fed <:+: ticksFor other (fed ++ n) := by
    rw [ticksFor, ticksFor, List.filter_append]
    exact (List.prefix_append _ _).isInfix
  have hself := ticksFor_append_self fed hnew
  constructor
  · constructor
    · rw [hemit, h.applied, List.map_append]
    · intro e he
      rw [hpers] at he
      rcases List.mem_append.mp he with he | he
      · obtain ⟨ticks, hin, hb⟩ := h.labelled e he
        exact ⟨ticks, hin.trans (hpart e.1), hb⟩
      · obtain ⟨bar, hbar, rfl⟩ := List.mem_map.mp he
        obtain ⟨ticks, hsuf, hb⟩ := hdone bar (Option.mem_toList.mp hbar)
        exact ⟨ticks, hsuf.isInfix.trans (hpart symbol), hb⟩
    · intro other
      have hold := h.volume other
      rw [written, hpers, List.filter_append, List.map_append, List.sum_append]
      rw [written] at hold
      rw [inProgress, hsubs]
      by_cases ho : other = symbol
      · subst ho
        rw [Dict.get_set_self, Option.bind_some, hself, List.map_append, List.sum_append, ← hold]
        have hmoved : ((d.toList.map fun bar => (other, x, i, bar)).filter fun e => e.1 = other).map
            (fun e => e.2.2.2.volume) = d.toList.map fun bar => bar.volume := by
          cases d <;> simp
        rw [hmoved]
        have hsum : (d.toList.map fun bar => bar.volume).sum = d.elim 0 fun bar => bar.volume := by
          cases d <;> simp
        rw [hsum]
        linarith
      · have hnone : (d.toList.map fun bar => (symbol, x, i, bar)).filter (fun e => e.1 = other) = [] := by
          cases d <;> simp [Ne.symm ho]
        rw [Dict.get_set_of_ne ho, hnone, ticksFor_append_of_ne fed hnew ho, ← hold, inProgress]
        simp
  · intro other state hget
    rw [hsubs] at hget
    by_cases ho : other = symbol
    · subst ho
      rw [Dict.get_set_self] at hget
      rw [← Option.some.inj hget, hself]
      exact hnext
    · rw [Dict.get_set_of_ne ho] at hget
      rw [ticksFor_append_of_ne fed hnew ho]
      exact h.tracked other state hget
  · exact fun _ _ _ => hf

private theorem inProgress_of_get {p : LiveCandlePump} {symbol : String} {state : Sub} (hg : p.subs.get symbol = some state) :
    inProgress symbol p = state.bar.elim 0 fun bar => bar.volume := by
  rw [inProgress, hg]
  rfl

private theorem steady_ingestTick {fed : List TickRecord} {p : LiveCandlePump} (h : Steady fed p) {symbol : String}
    {price : Rat} {qty : Int} {now : Nat} (hfed : Fed p (.ingestTick symbol price qty now))
    (hkept : Kept p (.ingestTick symbol price qty now)) :
    Steady (fed ++ [{ ts := now, symbol := symbolKey symbol, price, qty }]) (p.ingestTick symbol price qty now) := by
  obtain ⟨hp, hq, state, hg, hopen, hn⟩ := hfed
  have ht := h.tracked _ _ hg
  have hs := hkept state hg
  obtain ⟨hsubs, hf, hpers, hemit⟩ := ingestTick_kept ht hg hs hp hopen hn (h.feed _ _ hg)
  rw [ht.named] at hpers hemit
  obtain ⟨⟨ticks, hsuf, hway⟩, hdone, hvol⟩ := roll_kept ht hs
    (t := { ts := now, symbol := symbolKey symbol, price, qty }) hq hopen hn
    (s := { state with
      lastTick := some now, barStart := some (barTime state.exchange state.spanS now),
      bar := some ((state.roll (barTime state.exchange state.spanS now) price).1.take price qty) }) rfl rfl
  rw [ht.named] at hdone
  refine h.move (fun t ht => ?_) hsubs hf hpers hemit ⟨ht.named, ht.span, nofun, fun bar hbar => ?_⟩ hdone ?_
  · rw [List.mem_singleton.mp ht]
  · rw [← Option.some.inj hbar]
    exact ⟨ticks, hsuf, hway⟩
  · rw [inProgress_of_get hg]
    simpa using hvol

private theorem steady_edge {fed : List TickRecord} {p : LiveCandlePump} (h : Steady fed p) {now : Nat} {e : String × Sub}
    (hg : p.subs.get e.1 = some e.2) (hkept : isMarketOpen e.2.exchange now = false → InStep e.2) :
    Steady fed (edge now p e) := by
  have ht := h.tracked _ _ hg
  have hf := h.feed _ _ hg
  rw [edge]
  cases hb : e.2.bar with
  | none => exact h
  | some bar =>
    obtain ⟨ticks, hsuf, hway⟩ := ht.busy bar hb
    obtain ⟨last, hlast, -⟩ := hway.last
    dsimp only
    split_ifs with hclose
    · have hclosed : isMarketOpen e.2.exchange now = false := by simpa [hlast] using hclose
      have hpers : (({ p with subs := p.subs.set e.1 { e.2 with bar := none, barStart := none } } :
          LiveCandlePump).persistBar e.2 bar).persisted = p.persisted ++ [(e.1, e.2.exchange, e.2.interval, bar)] := by
        rw [persistBar, ← ht.named]
        simp [hf]
      have hmoved := h.move (q := ({ p with subs := p.subs.set e.1 { e.2 with bar := none, barStart := none } } :
        LiveCandlePump).persistBar e.2 bar) (d := some bar) (n := []) (List.forall_mem_nil _) (persistBar_subs _ _)
        ((persistBar_realFeed _ _).trans hf) hpers (by rw [persistBar_emitted, List.map_nil, List.append_nil])
        ⟨ht.named, ht.span, fun _ => rfl, fun _ hbar => by cases hbar⟩ (fun done hdone => ?_) ?_
      · rwa [List.append_nil] at hmoved
      · rw [← Option.some.inj hdone, ← ht.named]
        exact ⟨ticks, ht.named ▸ hsuf, hway.built hb ht.span (hkept hclosed)⟩
      · rw [inProgress_of_get hg, hb]
        rfl
    · exact h

private theorem get_edge_of_ne {p : LiveCandlePump} {now : Nat} {e : String × Sub} {symbol : String} (hne : symbol ≠ e.1) :
    (edge now p e).subs.get symbol = p.subs.get symbol := by
  rw [edge]
  split
  · rfl
  · split_ifs
    · rw [persistBar_subs]
      exact Dict.get_set_of_ne hne _ _
    · rfl

private theorem steady_edges {fed : List TickRecord} {now : Nat} (entries : List (String × Sub))
    (hnodup : (entries.map Prod.fst).Nodup) {p : LiveCandlePump} (h : Steady fed p)
    (hg : ∀ e ∈ entries, p.subs.get e.1 = some e.2)
    (hkept : ∀ e ∈ entries, isMarketOpen e.2.exchange now = false → InStep e.2) :
    Steady fed (entries.foldl (edge now) p) := by
  induction entries generalizing p with
  | nil => exact h
  | cons e entries ih =>
    rw [List.map_cons, List.nodup_cons] at hnodup
    rw [List.foldl_cons]
    apply ih hnodup.2 (steady_edge h (hg e List.mem_cons_self) (hkept e List.mem_cons_self))
    · intro other ho
      rw [get_edge_of_ne fun he => hnodup.1 (he ▸ List.mem_map_of_mem ho)]
      exact hg other (List.mem_cons_of_mem _ ho)
    · exact fun other ho => hkept other (List.mem_cons_of_mem _ ho)

/-- A subscription that is made again keeps its bar and the ticks of it. -/
private theorem Tracked.relabel {symbol : String} {fed : List TickRecord} {state : Sub} (h : Tracked symbol fed state)
    (exchange interval : String) :
    Tracked symbol fed { state with exchange, interval, spanS := spanSeconds interval } where
  named := h.named
  span := rfl
  idle := h.idle
  busy bar hbar := by
    obtain ⟨ticks, hsuf, hway⟩ := h.busy bar hbar
    exact ⟨ticks, hsuf, hway.start, hway.formed, hway.last, hway.inside⟩

private theorem steady_subscribe {fed : List TickRecord} {p : LiveCandlePump} (h : Steady fed p)
    {symbol exchange interval : String} {feedError : Option String} {now : Nat} {res : LiveStatus × LiveCandlePump}
    (hres : p.subscribe symbol exchange interval feedError now = .ok res) : Steady fed res.2 := by
  rw [subscribe] at hres
  dsimp only at hres
  split_ifs at hres with he hf hfull
  · rw [← Except.ok.inj hres]
    exact h
  · rw [← Except.ok.inj hres]
    exact h
  · rw [← Except.ok.inj hres]
    have hold : Tracked (symbolKey symbol) (ticksFor (symbolKey symbol) fed) ((p.subs.get (symbolKey symbol)).getD
        { symbol := symbolKey symbol, exchange := exchangeKey exchange, interval, spanS := spanSeconds interval }) := by
      cases hg : p.subs.get (symbolKey symbol) with
      | none => exact ⟨rfl, rfl, fun _ => rfl, fun _ hbar => by cases hbar⟩
      | some state => exact h.tracked _ _ hg
    have hmoved := h.move (q := { p with subs := p.subs.set (symbolKey symbol) { (p.subs.get (symbolKey symbol)).getD
          { symbol := symbolKey symbol, exchange := exchangeKey exchange, interval, spanS := spanSeconds interval } with
        exchange := exchangeKey exchange, interval, spanS := spanSeconds interval } })
      (d := none) (x := exchange) (i := interval) (n := []) (List.forall_mem_nil _) rfl (by simpa using hf)
      (List.append_nil _).symm (List.append_nil _).symm
      (by rw [List.append_nil]; exact hold.relabel _ _) (fun _ hdone => by cases hdone) ?_
    · rwa [List.append_nil] at hmoved
    · rw [inProgress]
      cases hg : p.subs.get (symbolKey symbol) <;> simp

private theorem steady_unsubscribe {fed : List TickRecord} {p : LiveCandlePump} (h : Steady fed p) {symbol : String}
    (hfed : Fed p (.unsubscribe symbol)) : Steady fed (p.unsubscribe symbol) := by
  have hget {other : String} {state : Sub} (hg : (p.unsubscribe symbol).subs.get other = some state) :
      p.subs.get other = some state := by
    rw [unsubscribe, Dict.get_pop] at hg
    split_ifs at hg
    exact hg
  refine ⟨⟨h.applied, h.labelled, fun other => ?_⟩, fun other state hg => h.tracked _ _ (hget hg),
    fun other state hg => h.feed _ _ (hget hg)⟩
  rw [← h.volume other]
  refine congrArg (written other p + ·) ?_
  rw [inProgress, inProgress, unsubscribe, Dict.get_pop]
  split_ifs with ho
  · rw [ho, hfed]
    rfl
  · rfl

theorem steady_step {fed : List TickRecord} {p : LiveCandlePump} (h : Steady fed p) {a : Act} (hfed : Fed p a)
    (hkept : Kept p a) : Steady (fed ++ a.tick.toList) (p.step a) := by
  have hnone {a : Act} (ha : a.tick = none) : fed ++ a.tick.toList = fed := by
    rw [ha]
    exact List.append_nil fed
  cases a with
  | attachBrokerFeed =>
    rw [hnone rfl]
    exact ⟨⟨h.applied, h.labelled, h.volume⟩, h.tracked, fun _ _ _ => rfl⟩
  | subscribe symbol exchange interval feedError now =>
    rw [hnone rfl, step]
    cases hres : p.subscribe symbol exchange interval feedError now with
    | ok res => exact steady_subscribe h hres
    | error err => exact h
  | unsubscribe symbol =>
    rw [hnone rfl]
    exact steady_unsubscribe h hfed
  | ingestTick symbol price qty now => exact steady_ingestTick h hfed hkept
  | runOnce now =>
    rw [hnone rfl, step]
    split_ifs with hf
    · refine steady_edges p.subs.entries p.subs.nodup h (fun e he => ?_) fun e he => ?_
      · exact (Dict.mem_entries_iff _ _ _).mp he
      · exact hkept e.1 e.2 ((Dict.mem_entries_iff _ _ _).mp he)
    · exact h

private theorem steady_start (serviceName : String) (enabled : Bool) :
    Steady [] ({ serviceName, enabled } : LiveCandlePump) := by
  refine ⟨⟨rfl, fun e he => ?_, fun _ => rfl⟩, fun symbol sub hsub => ?_, fun symbol sub hsub => ?_⟩
  · cases he
  · cases hsub
  · cases hsub

/-- While every bar is in step with the subscription that continues or completes it, each tick is applied, each bar of
the store has the ticks of its label's span, and no volume is lost. -/
theorem ticks_conserved (serviceName : String) (enabled : Bool) {acts : List Act}
    (hfed : Trace.Each (fun pre a => Fed (({ serviceName, enabled } : LiveCandlePump).run pre) a) acts)
    (hkept : Trace.Each (fun pre a => Kept (({ serviceName, enabled } : LiveCandlePump).run pre) a) acts) :
    Conserves (ticksOf acts) (({ serviceName, enabled } : LiveCandlePump).run acts) := by
  have hrun : Steady (ticksOf acts) (({ serviceName, enabled } : LiveCandlePump).run acts) := by
    induction acts using List.reverseRecOn with
    | nil => exact steady_start serviceName enabled
    | append_singleton acts a ih =>
      obtain ⟨hfeds, hfed⟩ := Trace.each_concat.mp hfed
      obtain ⟨hkepts, hkept⟩ := Trace.each_concat.mp hkept
      rw [run_concat, ticksOf_concat]
      exact steady_step (ih hfeds hkepts) hfed hkept
  exact hrun.toConserves

def switching (minute : Nat) (interval : String) : List Act :=
  [.attachBrokerFeed, .subscribe "NIFTY" "NFO" "1m" none 0,
    .ingestTick "NIFTY" 100 10 ((minute * 60 + 10) * 1000000), .subscribe "NIFTY" "NFO" interval none 0,
    .ingestTick "NIFTY" 101 5 ((minute * 60 + 30) * 1000000)]

theorem switch_at_open_conserved : Conserves (ticksOf (switching 555 "5m")) (({} : LiveCandlePump).run (switching 555 "5m")) :=
  ticks_conserved "dhan" true (by decide +kernel) (by decide +kernel)

/-- A bar of the second minute, and then a bar of five minutes that started before it. -/
theorem switch_within_bar_lost : ∃ acts, Trace.Each (fun pre a => Fed (({} : LiveCandlePump).run pre) a) acts ∧
    ¬ Conserves (ticksOf acts) (({} : LiveCandlePump).run acts) := by
  refine ⟨switching 556 "5m", by decide +kernel, fun h => ?_⟩
  have hvol := h.volume "NIFTY"
  revert hvol
  decide +kernel

end Conservation

end LiveCandlePump
end NTrade.Api
