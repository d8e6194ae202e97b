import NTrade.Engines.CandleEngine

/-! Conservation of ticks: in live and replay mode every tick is late or in one candle, and the candles
are what their ticks add up to. The candles of a symbol close in order as long as no tick reopens a
bucket that a flush has closed. -/
namespace NTrade.Engines
open NTrade.Domain NTrade.Lib

abbrev Placed := TickEvent × Nat

def summary (g : Group Int Placed) : Candle := Candle.gather g.bucket g.first.1 (g.rest.map Prod.fst)

theorem summary_single (b : Int) (x : Placed) :
    summary (.single b x) = (Candle.start b x.1.exchange x.1.price).take x.1.price x.1.quantity := rfl

theorem summary_push (x : Placed) (g : Group Int Placed) :
    summary (g.push x) = (summary g).take x.1.price x.1.quantity := by
  simp [summary, Group.push, Candle.gather_concat]

@[simp] theorem summary_bucket (g : Group Int Placed) : (summary g).bucket = g.bucket := Candle.gather_bucket _ _ _

theorem summary_of (g : Group Int Placed) : (summary g).toOhlcv.Of (g.items.map Prod.fst) := Candle.gather_of _ _ _

namespace CandleEngine

structure Summarizes (e : CandleEngine) (s : Buckets String Int Placed) : Prop where
  opened : e.opened = s.opened.map summary
  published : e.published = s.closed.map fun p => e.closing p.1 (summary p.2)
  lateTicks : e.lateTicks = s.late.length

variable {e : CandleEngine} {s : Buckets String Int Placed}

private theorem flushSymbol_spec (h : Summarizes e s) (symbol : String) :
    SameSetup e (e.flushSymbol symbol) ∧ Summarizes (e.flushSymbol symbol) (s.flushKey symbol) := by
  have hg : e.opened.get symbol = (s.opened.get symbol).map summary := by rw [h.opened, Dict.get_map]
  rw [flushSymbol, Buckets.flushKey]
  cases ho : s.opened.get symbol with
  | none =>
    rw [hg, ho]
    exact ⟨.rfl, h⟩
  | some g =>
    rw [hg, ho]
    refine ⟨.rfl, ?_, ?_, h.lateTicks⟩
    · exact (congrArg (Dict.pop · symbol) h.opened).trans (Dict.map_pop _ _ _).symm
    · rw [List.map_append]
      exact congrArg (· ++ _) h.published

theorem flush_spec (h : Summarizes e s) (symbol : Option String) :
    SameSetup e (e.flush symbol) ∧ Summarizes (e.flush symbol) (s.flush symbol) := by
  have hfold (symbols : List String) : ∀ {e' s'}, SameSetup e e' → Summarizes e' s' →
      SameSetup e (symbols.foldl flushSymbol e') ∧
        Summarizes (symbols.foldl flushSymbol e') (symbols.foldl Buckets.flushKey s') := by
    induction symbols with
    | nil => exact fun he hs => ⟨he, hs⟩
    | cons symbol symbols ih =>
      intro e' s' he hs
      obtain ⟨he', hs'⟩ := flushSymbol_spec hs symbol
      exact ih (he.trans he') hs'
  have hkeys : e.opened.keys = s.opened.keys := by rw [h.opened, Dict.keys_map]
  cases symbol with
  | none =>
    rw [flush, Buckets.flush, hkeys]
    exact hfold _ .rfl h
  | some symbol => exact hfold [symbol] .rfl h

def symbolOf (x : Placed) : String := x.1.symbol

def bucketOf (e : CandleEngine) (x : Placed) : Int := e.bucket x.1.ts

theorem onTick_spec (h : Summarizes e s) (hm : e.mode ≠ .backtest) (x : Placed) :
    SameSetup e (e.onTick x.1) ∧ Summarizes (e.onTick x.1) (s.add symbolOf e.bucketOf x) := by
  have hg : e.opened.get x.1.symbol = (s.opened.get x.1.symbol).map summary := by rw [h.opened, Dict.get_map]
  rw [onTick, if_neg fun hb => hm hb.1, ingest, Buckets.add, symbolOf]
  cases ho : s.opened.get x.1.symbol with
  | none =>
    rw [hg, ho]
    refine ⟨.rfl, ?_, h.published, h.lateTicks⟩
    rw [Dict.map_set, ← h.opened]
    rfl
  | some g =>
    rw [hg, ho]
    simp only [Option.map_some, summary_bucket]
    by_cases hlt : e.bucketOf x < g.bucket
    · rw [if_pos hlt, if_pos (show e.bucket x.1.ts < g.bucket from hlt)]
      refine ⟨.rfl, h.opened, h.published, ?_⟩
      rw [List.length_append]
      exact congrArg (· + 1) h.lateTicks
    rw [if_neg hlt, if_neg (show ¬e.bucket x.1.ts < g.bucket from hlt)]
    by_cases heq : e.bucketOf x = g.bucket
    · rw [if_pos heq, if_pos (show g.bucket = e.bucket x.1.ts from heq.symm)]
      refine ⟨.rfl, ?_, h.published, h.lateTicks⟩
      rw [Dict.map_set, ← h.opened, summary_push]
    · rw [if_neg heq, if_neg (show ¬g.bucket = e.bucket x.1.ts from Ne.symm heq)]
      refine ⟨.rfl, ?_, ?_, h.lateTicks⟩
      · rw [Dict.map_set, ← h.opened, summary_single]
        rfl
      · rw [List.map_append]
        exact congrArg (· ++ _) h.published

def ticksAt (acts : List Act) : List Placed :=
  acts.zipIdx.filterMap fun | (.tick t, i) => some (t, i) | _ => none

def ops (acts : List Act) : List (Buckets.Op String Placed) :=
  acts.zipIdx.filterMap fun
    | (.tick t, i) => some (.add (t, i))
    | (.quote _, _) => none
    | (.flush symbol, _) => some (.flush symbol)

theorem added_ops (acts : List Act) : Buckets.added (ops acts) = ticksAt acts := by
  rw [Buckets.added, ops, ticksAt, List.filterMap_filterMap]
  congr 1
  funext p
  obtain ⟨a, i⟩ := p
  cases a <;> rfl

private theorem ops_concat (acts : List Act) (a : Act) :
    ops (acts ++ [a]) = ops acts ++ match a with
      | .tick t => [.add (t, acts.length)]
      | .quote _ => []
      | .flush symbol => [.flush symbol] := by
  rw [ops, List.zipIdx_append, List.filterMap_append]
  cases a <;> simp [ops]

structure Started (e : CandleEngine) : Prop where
  opened : e.opened = Dict.empty
  published : e.published = []
  lateTicks : e.lateTicks = 0
  mode : e.mode ≠ .backtest

theorem init_started {timeframe : String} {maxCandles : Nat} {mode : Mode}
    (h : init timeframe maxCandles mode = .ok e) (hm : mode ≠ .backtest) : e.Started := by
  obtain ⟨seconds, -, rfl⟩ := init_eq_ok h
  exact ⟨rfl, rfl, rfl, hm⟩

/-- The engine computes the candles of the groups. -/
theorem run_spec (h : e.Started) (acts : List Act) :
    SameSetup e (e.run acts) ∧ Summarizes (e.run acts) (Buckets.run symbolOf e.bucketOf (ops acts)) := by
  induction acts using List.reverseRecOn with
  | nil =>
    refine ⟨.rfl, h.opened, h.published, h.lateTicks⟩
  | append_singleton acts a ih =>
    obtain ⟨hsame, hs⟩ := ih
    have hmode : (e.run acts).mode ≠ .backtest := by rw [hsame.2.2]; exact h.mode
    rw [run_concat, ops_concat]
    cases a with
    | tick t =>
      obtain ⟨hsame', hs'⟩ := onTick_spec hs hmode (t, acts.length)
      rw [Buckets.run_concat]
      have hb : (e.run acts).bucketOf = e.bucketOf := by
        funext x
        rw [bucketOf, bucketOf, hsame.bucket]
      rw [hb] at hs'
      exact ⟨hsame.trans hsame', hs'⟩
    | quote q =>
      rw [List.append_nil, step, onQuote, if_neg hmode]
      exact ⟨hsame, hs⟩
    | flush symbol =>
      obtain ⟨hsame', hs'⟩ := flush_spec hs symbol
      rw [Buckets.run_concat]
      exact ⟨hsame.trans hsame', hs'⟩

structure Gathers (e : CandleEngine) (ticks : List Placed) (symbol : String) (bucket : Int) (c : Ohlcv) : Prop where
  member : ∀ x ∈ ticks, x.1.symbol = symbol ∧ e.bucket x.1.ts = bucket
  ordered : ticks.Pairwise fun x y => x.2 < y.2
  candle : c.Of (ticks.map Prod.fst)

/-- Every tick of the acts is counted as late, or is in exactly one closed or open candle. -/
def Accounted (acts : List Act) (e : CandleEngine) : Prop :=
  ∃ (late : List Placed) (closed opened : List (List Placed)),
    (late ++ closed.flatten ++ opened.flatten).Perm (ticksAt acts) ∧
    late.length = e.lateTicks ∧
    closed.Forall₂ (fun ticks c => e.Gathers ticks c.symbol (c.ts - e.seconds) c.toOhlcv) e.published ∧
    opened.Forall₂ (fun ticks o => e.Gathers ticks o.1 o.2.bucket o.2.toOhlcv) e.opened.entries

/-- The closed candles of each symbol have strictly increasing timestamps. -/
def ClosesInOrder (e : CandleEngine) : Prop :=
  ∀ symbol, (e.published.filter fun c => c.symbol = symbol).Pairwise fun c c' => c.ts < c'.ts

/-- A tick of a symbol without an open candle whose bucket has closed already, or comes before one that has. -/
def Reopens (e : CandleEngine) : Act → Prop
  | .tick t => e.opened.get t.symbol = none ∧ ∃ c ∈ e.published, c.symbol = t.symbol ∧ e.bucket t.ts + e.seconds ≤ c.ts
  | _ => False

instance decidableReopens (e : CandleEngine) : (a : Act) → Decidable (e.Reopens a)
  | .tick _ => inferInstanceAs (Decidable (_ ∧ _))
  | .quote _ => inferInstanceAs (Decidable False)
  | .flush _ => inferInstanceAs (Decidable False)

private theorem ticksAt_ordered (acts : List Act) : (ticksAt acts).Pairwise fun x y => x.2 < y.2 := by
  rw [ticksAt, List.pairwise_filterMap]
  have hnum : acts.zipIdx.Pairwise fun p q => p.2 < q.2 :=
    List.pairwise_iff_getElem.mpr fun i j hi hj hij => by simpa using hij
  refine hnum.imp ?_
  rintro ⟨a, i⟩ ⟨b, j⟩ hij x hx y hy
  cases a with
  | tick t =>
    cases b with
    | tick u =>
      cases hx
      cases hy
      exact hij
    | _ => cases hy
  | _ => cases hx

private theorem gathers_of_holds {acts : List Act} {k : String} {g : Group Int Placed}
    (h : (Buckets.run symbolOf e.bucketOf (ops acts)).Holds (k, g)) :
    e.Gathers g.items k g.bucket (summary g).toOhlcv := by
  obtain ⟨hmem, hsub⟩ := Buckets.holds_run h
  rw [added_ops] at hsub
  exact ⟨hmem, (ticksAt_ordered acts).sublist hsub, summary_of g⟩

theorem accounted_run (h : e.Started) (acts : List Act) : (e.run acts).Accounted acts := by
  obtain ⟨hsame, hs⟩ := run_spec h acts
  have hperm := Buckets.run_perm symbolOf e.bucketOf (ops acts)
  have hg {k : String} {g : Group Int Placed} (hh : (Buckets.run symbolOf e.bucketOf (ops acts)).Holds (k, g)) :
      (e.run acts).Gathers g.items k g.bucket (summary g).toOhlcv := by
    obtain ⟨hm, ho, hc⟩ := gathers_of_holds hh
    exact ⟨by rw [hsame.bucket]; exact hm, ho, hc⟩
  refine ⟨_, (Buckets.run symbolOf e.bucketOf (ops acts)).closed.map fun p => p.2.items,
    (Buckets.run symbolOf e.bucketOf (ops acts)).opened.entries.map fun p => p.2.items, ?_, hs.lateTicks.symm, ?_, ?_⟩
  · rw [added_ops, List.flatMap_def, List.flatMap_def] at hperm
    exact hperm
  · rw [hs.published, List.forall₂_map_left_iff, List.forall₂_map_right_iff, List.forall₂_same]
    rintro ⟨k, g⟩ hp
    have hts : ((e.run acts).closing k (summary g)).ts - (e.run acts).seconds = g.bucket := by
      rw [closing, summary_bucket]
      exact add_sub_cancel_right _ _
    rw [hts]
    exact hg (.inl hp)
  · rw [hs.opened]
    simp only [Dict.map]
    rw [List.forall₂_map_left_iff, List.forall₂_map_right_iff, List.forall₂_same]
    rintro ⟨k, g⟩ hp
    rw [summary_bucket]
    exact hg (.inr ((Dict.mem_entries_iff _ _ _).mp hp))

private theorem closesInOrder_iff (h : Summarizes e s) :
    e.ClosesInOrder ↔ ∀ k, (s.closedBuckets k).Pairwise (· < ·) := by
  refine forall_congr' fun k => ?_
  rw [h.published, List.filter_map, List.pairwise_map, Buckets.closedBuckets, List.pairwise_map]
  have hts (p q : String × Group Int Placed) :
      (e.closing p.1 (summary p.2)).ts < (e.closing q.1 (summary q.2)).ts ↔ p.2.bucket < q.2.bucket := by
    rw [closing, closing, summary_bucket, summary_bucket]
    exact add_lt_add_iff_right _
  simp only [hts]
  rfl

private theorem not_reopens_iff (h : Summarizes e s) (t : TickEvent) (i : Nat) :
    ¬e.Reopens (.tick t) ↔ Buckets.FreshItem symbolOf e.bucketOf s (t, i) := by
  have hts (p : String × Group Int Placed) :
      ¬e.bucket t.ts + e.seconds ≤ (e.closing p.1 (summary p.2)).ts ↔ p.2.bucket < e.bucketOf (t, i) := by
    rw [closing, summary_bucket, not_le]
    exact add_lt_add_iff_right _
  rw [Reopens, Buckets.FreshItem, h.opened, h.published, Dict.get_map, Option.map_eq_none_iff]
  push Not
  refine imp_congr_right fun _ => ?_
  rw [List.forall_mem_map]
  refine forall_congr' fun p => imp_congr_right fun _ => imp_congr_right fun _ => ?_
  rw [← not_le]
  exact hts p

private theorem each_fresh_iff (h : e.Started) (acts : List Act) :
    Trace.Each (fun pre op => Buckets.Fresh symbolOf e.bucketOf (Buckets.run symbolOf e.bucketOf pre) op) (ops acts) ↔
      Trace.Each (fun pre a => ¬(e.run pre).Reopens a) acts := by
  induction acts using List.reverseRecOn with
  | nil => exact ⟨fun _ => .nil _, fun _ => .nil _⟩
  | append_singleton acts a ih =>
    obtain ⟨hsame, hs⟩ := run_spec h acts
    have hb : (e.run acts).bucketOf = e.bucketOf := by
      funext x
      rw [bucketOf, bucketOf, hsame.bucket]
    rw [ops_concat, Trace.each_concat]
    cases a with
    | tick t =>
      rw [Trace.each_concat, ih, not_reopens_iff hs t acts.length, hb]
      rfl
    | quote q =>
      rw [List.append_nil, ih]
      exact (and_iff_left id).symm
    | flush symbol =>
      rw [Trace.each_concat, ih]
      exact and_congr_right fun _ => ⟨fun _ => id, fun _ => trivial⟩

end CandleEngine

open CandleEngine in
/-- Ticks are conserved in every run, and the candles of each symbol close with increasing timestamps
as long as no tick reopens a bucket; where one does, they do not once everything has been flushed. -/
theorem candles_conserve_ticks {timeframe : String} {maxCandles : Nat} {mode : Mode} {e : CandleEngine}
    (h : init timeframe maxCandles mode = .ok e) (hm : mode ≠ .backtest) (acts : List Act) :
    (e.run acts).Accounted acts ∧
    (Trace.Each (fun pre a => ¬(e.run pre).Reopens a) acts → (e.run acts).ClosesInOrder) ∧
    ((e.run (acts ++ [.flush none])).ClosesInOrder ↔ Trace.Each (fun pre a => ¬(e.run pre).Reopens a) acts) := by
  have hst := init_started h hm
  obtain ⟨hsame, hs⟩ := run_spec hst acts
  refine ⟨accounted_run hst acts, ?_, ?_⟩
  · intro hfresh
    have hinc := (Buckets.increasing_run_iff _).mpr ((each_fresh_iff hst acts).mpr hfresh)
    exact (closesInOrder_iff hs).mpr hinc.closed
  · obtain ⟨-, hs'⟩ := flush_spec hs none
    rw [run_concat, step, closesInOrder_iff hs', Buckets.closed_flush_iff, Buckets.increasing_run_iff,
      each_fresh_iff hst]

namespace CandleEngine

def minutes : CandleEngine := { timeframe := "1m", seconds := 60 }

def trade (symbol : String) (price : Rat) (quantity : Int) (seconds : Int) : Act :=
  .tick { symbol, exchange := "NSE", price, quantity, ts := .aware ((1704167100 + seconds) * MICROS) }

theorem trades_conserved :
    ∃ acts, acts = [trade "NIFTY" 100 5 10, trade "SBIN" 7 1 20, trade "NIFTY" 98 5 61, trade "NIFTY" 99 2 59,
        .flush (some "NIFTY"), trade "NIFTY" 97 1 125, .flush none] ∧
      (minutes.run acts).Accounted acts ∧ (minutes.run acts).ClosesInOrder := by
  have h := @candles_conserve_ticks "1m" 10000 .live minutes rfl (by decide)
  exact ⟨_, rfl, (h _).1, (h _).2.1 (by decide +kernel)⟩

/-- Two trades of one minute with a flush between them: its candle closes twice. -/
theorem minute_closes_twice :
    init "1m" 10000 .live = .ok minutes ∧
      ((minutes.run [trade "NIFTY" 100 5 10, .flush none, trade "NIFTY" 101 5 20, .flush none]).published.map
        fun c => (c.symbol, c.ts)) = [("NIFTY", 1704167160), ("NIFTY", 1704167160)] ∧
      ¬(minutes.run [trade "NIFTY" 100 5 10, .flush none, trade "NIFTY" 101 5 20, .flush none]).ClosesInOrder := by
  refine ⟨rfl, by decide +kernel, ?_⟩
  intro h
  have hs := h "NIFTY"
  revert hs
  decide +kernel

end CandleEngine
end NTrade.Engines
