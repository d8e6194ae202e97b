import NTrade.Sim.TickSimulator

/-! A frame of bars run through a backtest, and through a replay of synthetic ticks: both close the
candles that the frame has. -/
namespace NTrade.Sim
open NTrade.Domain NTrade.Engines NTrade.Engines.CandleEngine

structure Bar extends Ohlcv where
  ts : Timestamp
  deriving DecidableEq, Repr

structure Frame where
  bars : List Bar
  nonempty : bars ≠ []
  valid : ∀ b ∈ bars, ValidBar b.toOhlcv
  aligned : ∀ b ∈ bars, b.ts.micros % (60 * MICROS) = 0
  increasing : bars.Pairwise fun b b' => b.ts.micros < b'.ts.micros

section Runs
variable (symbol exchange : String)

def Bar.quote (b : Bar) : Act :=
  .quote { symbol, exchange, ltp := b.close, open_ := b.open_, high := b.high, low := b.low, volume := b.volume, ts := b.ts }

/-- `BacktestSimulator.run`, one row: a quote, the closing tick, and a flush. -/
def backtestBar (b : Bar) : List Act :=
  [b.quote symbol exchange, .tick { symbol, exchange, price := b.close, quantity := b.volume, ts := b.ts },
    .flush (some symbol)]

def backtest (frame : Frame) : List Act := frame.bars.flatMap (backtestBar symbol exchange) ++ [.flush none]

variable {σ : Type} (rng : Rng σ) (fuel : Nat) (seed : Int) (seconds : Nat)

/-- `SyntheticMarketFeedSource._produce`, one row: a quote, the ticks of the bar, and a flush. -/
def produceBar (b : Bar) : Option (Except SynthError (List Act)) :=
  (synthesize1mTicks rng fuel b.ts b.toOhlcv seed seconds).map fun ticks => do
    return b.quote symbol exchange :: ((← ticks).map fun t => .tick (t.event symbol exchange)) ++ [.flush (some symbol)]

def produce : List Bar → Option (Except SynthError (List Act))
  | [] => some (.ok [])
  | b :: bars =>
    match produceBar symbol exchange rng fuel seed seconds b with
    | some (.ok acts) => (produce bars).map fun rest => do return acts ++ (← rest)
    | failed => failed

def Bar.candle (b : Bar) : CandleClosedEvent :=
  { b.toOhlcv with symbol, exchange, timeframe := DEFAULT_TIMEFRAME, ts := b.ts.epoch + 60 }

end Runs

section Minutes
variable {e : CandleEngine} (symbol exchange : String) {b : Bar}

/-- A time within the minute of a bar has its bucket. -/
theorem bucket_shift (hs : e.seconds = 60) (ha : b.ts.micros % (60 * MICROS) = 0) {i : Nat} (hi : i < 60) :
    e.bucket (b.ts.shift i) = b.ts.epoch := by
  obtain ⟨k, hk⟩ := Int.dvd_of_emod_eq_zero ha
  have h0 : b.ts.epoch = 60 * k := by
    rw [Timestamp.epoch, hk, mul_assoc, mul_left_comm]
    exact Int.mul_tdiv_cancel_left _ (by decide)
  have hi' : (b.ts.shift i).epoch = 60 * k + i := by
    rw [Timestamp.epoch, Timestamp.micros_shift, hk]
    have : 60 * MICROS * k + i * MICROS = MICROS * (60 * k + i) := by ring
    rw [this]
    exact Int.mul_tdiv_cancel_left _ (by decide)
  rw [bucket, hi', h0, hs]
  omega

structure Closes (e e' : CandleEngine) (c : CandleClosedEvent) : Prop where
  setup : SameSetup e e'
  idle : ∀ s, e'.opened.get s = none
  published : e'.published = e.published ++ [c]

private theorem flushSymbol_closes {symbol : String} {e' : CandleEngine} {c : Candle} (h : SameSetup e e')
    (hidle : ∀ s, s ≠ symbol → e'.opened.get s = none) (ho : e'.opened.get symbol = some c)
    (hp : e'.published = e.published) : Closes e (e'.flush (some symbol)) (e'.closing symbol c) := by
  have hf : e'.flush (some symbol) = { e' with opened := e'.opened.pop symbol }.close symbol c := by
    rw [flush, List.foldl_cons, List.foldl_nil, flushSymbol, ho]
  rw [hf]
  refine ⟨h.trans .rfl, fun s => ?_, ?_⟩
  · refine (Lib.Dict.get_pop _ _ _).trans ?_
    split
    · rfl
    · next hs => exact hidle s hs
  · exact congrArg (· ++ [_]) hp

private theorem closing_candle {c : Candle} (hs : e.seconds = 60) (ht : e.timeframe = DEFAULT_TIMEFRAME)
    (hx : c.exchange = exchange) (hb : c.bucket = b.ts.epoch) (ho : c.toOhlcv = b.toOhlcv) :
    e.closing symbol c = b.candle symbol exchange := by
  rw [closing, Bar.candle, hs, ht, hx, hb, ho]
  rfl

/-- A row of a backtest: the quote is the candle, and the closing tick adds nothing to it. -/
theorem backtestBar_closes (hm : e.mode = .backtest) (hs : e.seconds = 60) (ht : e.timeframe = DEFAULT_TIMEFRAME)
    (hidle : ∀ s, e.opened.get s = none) (ha : b.ts.micros % (60 * MICROS) = 0) :
    Closes e (e.run (backtestBar symbol exchange b)) (b.candle symbol exchange) := by
  have hb : e.bucket b.ts = b.ts.epoch := by
    have h := bucket_shift hs ha (show 0 < 60 by decide)
    have h0 : b.ts.shift (0 : Nat) = b.ts := by cases b.ts <;> simp [Timestamp.shift]
    rwa [h0] at h
  obtain ⟨c, hq⟩ : ∃ c : Candle, c.toOhlcv = b.toOhlcv ∧ c.bucket = b.ts.epoch ∧ c.exchange = exchange ∧
      e.step (b.quote symbol exchange) = { e with
        opened := e.opened.set symbol c
        barSeeded := e.barSeeded.set symbol b.ts.epoch } := by
    refine ⟨{ b.toOhlcv with bucket := b.ts.epoch, exchange }, rfl, rfl, rfl, ?_⟩
    simp only [Bar.quote, step, onQuote, if_pos hm, ingestBar, hidle, hb]
  obtain ⟨ho, hcb, hx, hq⟩ := hq
  have htick : (e.step (b.quote symbol exchange)).step
      (.tick { symbol, exchange, price := b.close, quantity := b.volume, ts := b.ts }) =
        e.step (b.quote symbol exchange) := by
    rw [hq]
    refine if_pos ⟨hm, ?_⟩
    exact (Lib.Dict.get_set_self _ _ _).trans (congrArg some hb.symm)
  have hrun : e.run (backtestBar symbol exchange b) = (e.step (b.quote symbol exchange)).flush (some symbol) := by
    rw [backtestBar, run, List.foldl_cons, List.foldl_cons, htick]
    rfl
  rw [hrun, hq, ← closing_candle symbol exchange hs ht hx hcb ho]
  refine flushSymbol_closes .rfl (fun s hne => ?_) ?_ rfl
  · exact (Lib.Dict.get_set_of_ne hne _ _).trans (hidle s)
  · exact Lib.Dict.get_set_self _ _ _

/-- Ticks of one minute make one candle. -/
private theorem run_ticks {symbol : String} (hm : e.mode ≠ .backtest) (hidle : ∀ s, e.opened.get s = none) {bucket : Int}
    (first : TickEvent) (rest : List TickEvent) (hsym : ∀ t ∈ first :: rest, t.symbol = symbol)
    (hts : ∀ t ∈ first :: rest, e.bucket t.ts = bucket) :
    SameSetup e (e.run ((first :: rest).map .tick)) ∧
      (e.run ((first :: rest).map .tick)).published = e.published ∧
      (e.run ((first :: rest).map .tick)).opened.get symbol = some (Candle.gather bucket first rest) ∧
      ∀ s, s ≠ symbol → (e.run ((first :: rest).map .tick)).opened.get s = none := by
  induction rest using List.reverseRecOn with
  | nil =>
    have hf := hsym first (List.mem_singleton_self _)
    have hb := hts first (List.mem_singleton_self _)
    have hone : e.run ([first].map .tick) = { e with opened := e.opened.set symbol (Candle.gather bucket first []) } := by
      rw [List.map_singleton, run, List.foldl_cons, List.foldl_nil, step, CandleEngine.onTick, if_neg fun h => hm h.1, ingest, hidle,
        hb, hf]
      rfl
    rw [hone]
    refine ⟨.rfl, rfl, Lib.Dict.get_set_self _ _ _, fun s hs => ?_⟩
    exact (Lib.Dict.get_set_of_ne hs _ _).trans (hidle s)
  | append_singleton rest t ih =>
    obtain ⟨hsame, hp, ho, hother⟩ := ih
      (fun u hu => hsym u (by rw [← List.cons_append]; exact List.mem_append_left _ hu))
      (fun u hu => hts u (by rw [← List.cons_append]; exact List.mem_append_left _ hu))
    have hmem : t ∈ first :: (rest ++ [t]) := by simp
    have hb : (e.run ((first :: rest).map .tick)).bucket t.ts = bucket := by rw [hsame.bucket]; exact hts t hmem
    rw [← List.cons_append, List.map_append, List.map_singleton, run_concat]
    generalize e.run ((first :: rest).map .tick) = e' at hsame hp ho hother hb ⊢
    have hone : e'.step (.tick t) =
        { e' with opened := e'.opened.set symbol ((Candle.gather bucket first rest).take t.price t.quantity) } := by
      have hm' : e'.mode ≠ .backtest := by rw [hsame.2.2]; exact hm
      rw [step, CandleEngine.onTick, if_neg fun h => hm' h.1, ingest, hsym t hmem, ho, hb]
      simp
    rw [hone, Candle.gather_concat]
    refine ⟨hsame.trans .rfl, hp, Lib.Dict.get_set_self _ _ _, fun s hs => ?_⟩
    exact (Lib.Dict.get_set_of_ne hs _ _).trans (hother s hs)

/-- A row of a replay: the quote is ignored, and the ticks make up the candle again. -/
theorem produceBar_closes {σ : Type} (rng : Rng σ) {seconds : Nat} (h4 : 4 ≤ seconds) (h60 : seconds ≤ 60) (seed : Int) :
    ∃ N, ∀ fuel ≥ N, ∀ (b : Bar), ValidBar b.toOhlcv → b.ts.micros % (60 * MICROS) = 0 →
      ∃ acts, produceBar symbol exchange rng fuel seed seconds b = some (.ok acts) ∧
        ∀ e : CandleEngine, e.mode ≠ .backtest → e.seconds = 60 → e.timeframe = DEFAULT_TIMEFRAME →
          (∀ s, e.opened.get s = none) → Closes e (e.run acts) (b.candle symbol exchange) := by
  obtain ⟨N, hN⟩ := synthesize1mTicks_spec rng h4 seed
  refine ⟨N, fun fuel hf b hv ha => ?_⟩
  obtain ⟨ticks, hsyn, hof, hshift⟩ := hN fuel hf b.ts b.toOhlcv hv symbol exchange
  refine ⟨_, by rw [produceBar, hsyn]; rfl, fun e hm hs ht hidle => ?_⟩
  cases ticks with
  | nil => cases hof.open_
  | cons first rest =>
    have hbucket : ∀ t ∈ (first :: rest).map (SimTick.event symbol exchange), e.bucket t.ts = b.ts.epoch := by
      intro t ht
      obtain ⟨u, hu, rfl⟩ := List.mem_map.mp ht
      obtain ⟨i, hi, hts⟩ := hshift u hu
      rw [SimTick.event, hts]
      exact bucket_shift hs ha (hi.trans_le h60)
    have hsym : ∀ t ∈ (first :: rest).map (SimTick.event symbol exchange), t.symbol = symbol := by
      intro t ht
      obtain ⟨u, -, rfl⟩ := List.mem_map.mp ht
      rfl
    obtain ⟨hsame, hp, ho, hother⟩ := run_ticks hm hidle _ _ hsym hbucket
    have hrun : e.run (b.quote symbol exchange :: ((first :: rest).map fun t => Act.tick (t.event symbol exchange)) ++
        [.flush (some symbol)]) =
          (e.run (((first :: rest).map (SimTick.event symbol exchange)).map .tick)).flush (some symbol) := by
      rw [run_concat, run, List.foldl_cons, List.map_map]
      have hquote : e.step (b.quote symbol exchange) = e := if_neg hm
      rw [hquote]
      rfl
    have hbar := (Candle.gather_of b.ts.epoch _ _).unique hof
    have hc := closing_candle symbol exchange hs ht (Candle.gather_exchange _ _ _)
      (Candle.gather_bucket _ _ _) hbar
    rw [← hsame.closing] at hc
    rw [hrun, ← hc]
    exact flushSymbol_closes hsame hother ho hp

/-- Rows that close a candle each leave nothing for the last flush. -/
private theorem run_closes (mode : Mode → Prop) {actsOf : Bar → List Act} {bars : List Bar}
    (hrow : ∀ b ∈ bars, ∀ e : CandleEngine, mode e.mode → e.seconds = 60 → e.timeframe = DEFAULT_TIMEFRAME →
      (∀ s, e.opened.get s = none) → Closes e (e.run (actsOf b)) (b.candle symbol exchange))
    {e : CandleEngine} (hm : mode e.mode) (hs : e.seconds = 60) (ht : e.timeframe = DEFAULT_TIMEFRAME)
    (hidle : ∀ s, e.opened.get s = none) :
    (e.run (bars.flatMap actsOf ++ [Act.flush none])).published =
      e.published ++ bars.map fun b => b.candle symbol exchange := by
  induction bars generalizing e with
  | nil =>
    have hkeys : e.opened.keys = [] :=
      List.eq_nil_iff_forall_not_mem.mpr fun k => (Lib.Dict.get_eq_none_iff _ _).mp (hidle k)
    have hf : e.run [.flush none] = e := by
      rw [run, List.foldl_cons, List.foldl_nil, step, flush, hkeys, List.foldl_nil]
    rw [List.flatMap_nil, List.nil_append, hf, List.map_nil, List.append_nil]
  | cons b bars ih =>
    obtain ⟨hsame, hidle', hp⟩ := hrow b List.mem_cons_self e hm hs ht hidle
    rw [List.flatMap_cons, List.append_assoc, run_append,
      ih (fun c hc => hrow c (List.mem_cons_of_mem _ hc)) (by rw [hsame.2.2]; exact hm) (hsame.2.1.trans hs)
        (hsame.1.trans ht) hidle', hp, List.map_cons, List.append_assoc]
    rfl

private theorem produce_ok {symbol exchange : String} {σ : Type} {rng : Rng σ} {fuel seconds : Nat} {seed : Int} {actsOf : Bar → List Act}
    {bars : List Bar}
    (h : ∀ b ∈ bars, produceBar symbol exchange rng fuel seed seconds b = some (.ok (actsOf b))) :
    produce symbol exchange rng fuel seed seconds bars = some (.ok (bars.flatMap actsOf)) := by
  induction bars with
  | nil => rfl
  | cons b bars ih =>
    rw [produce, h b List.mem_cons_self, ih fun c hc => h c (List.mem_cons_of_mem _ hc)]
    rfl

end Minutes

/-- The candles of a backtest and of a synthetic replay of the same frame are those of the frame,
whatever is drawn. -/
theorem replay_matches_backtest {σ : Type} (rng : Rng σ) (frame : Frame) (symbol exchange : String) (seed : Int)
    {seconds : Nat} (h4 : 4 ≤ seconds) (h60 : seconds ≤ 60) {maxCandles : Nat} {e e' : CandleEngine}
    (h : init DEFAULT_TIMEFRAME maxCandles .backtest = .ok e) (h' : init DEFAULT_TIMEFRAME maxCandles .replay = .ok e') :
    (e.run (backtest symbol exchange frame)).published = frame.bars.map (Bar.candle symbol exchange) ∧
    ∃ N, ∀ fuel ≥ N, ∃ acts, produce symbol exchange rng fuel seed seconds frame.bars = some (.ok acts) ∧
      (e'.run (acts ++ [.flush none])).published = (e.run (backtest symbol exchange frame)).published := by
  have hstart {mode : Mode} {e : CandleEngine} (h : init DEFAULT_TIMEFRAME maxCandles mode = .ok e) :
      e.mode = mode ∧ e.seconds = 60 ∧ e.timeframe = DEFAULT_TIMEFRAME ∧ (∀ s, e.opened.get s = none) ∧ e.published = [] := by
    obtain ⟨seconds, hs, rfl⟩ := init_eq_ok h
    exact ⟨rfl, (Except.ok.inj hs).symm, rfl, fun _ => rfl, rfl⟩
  obtain ⟨hm, hs, ht, hidle, hp⟩ := hstart h
  obtain ⟨hm', hs', ht', hidle', hp'⟩ := hstart h'
  have hback : (e.run (backtest symbol exchange frame)).published = frame.bars.map (Bar.candle symbol exchange) := by
    have hr := run_closes symbol exchange (· = .backtest) (fun b (hb : b ∈ frame.bars) e hm hs ht hidle =>
      backtestBar_closes symbol exchange hm hs ht hidle (frame.aligned b hb)) hm hs ht hidle
    rw [hp, List.nil_append] at hr
    exact hr
  refine ⟨hback, ?_⟩
  obtain ⟨N, hN⟩ := produceBar_closes symbol exchange rng h4 h60 seed
  refine ⟨N, fun fuel hf => ?_⟩
  have hbar (b : Bar) : ∃ acts, b ∈ frame.bars → produceBar symbol exchange rng fuel seed seconds b = some (.ok acts) ∧
      ∀ e : CandleEngine, e.mode ≠ .backtest → e.seconds = 60 → e.timeframe = DEFAULT_TIMEFRAME →
        (∀ s, e.opened.get s = none) → Closes e (e.run acts) (b.candle symbol exchange) := by
    by_cases hb : b ∈ frame.bars
    · obtain ⟨acts, h⟩ := hN fuel hf b (frame.valid b hb) (frame.aligned b hb)
      exact ⟨acts, fun _ => h⟩
    · exact ⟨[], fun h => absurd h hb⟩
  choose actsOf hacts using hbar
  refine ⟨_, produce_ok fun b hb => (hacts b hb).1, ?_⟩
  have hr := run_closes symbol exchange (· ≠ .backtest) (fun b hb => (hacts b hb).2) (by rw [hm']; decide) hs' ht' hidle'
  rw [hr, hp', List.nil_append, hback]

section TwoBars

/-- The draws from 1 and 2 that `Random(0)` starts with; a state is the number of draws before it. -/
def draws : Rng Nat where
  seeded _ := 0
  randrange k a b := (if a = 1 ∧ b = 3 ∧ k < 8 then [2, 2, 1, 2, 2, 2, 2, 2].getD k 0 else a + k % (b - a), k + 1)
  uniform k a b := ((a + b) / 2, k + 1)
  randrange_mem := by
    intro k a b hab
    split
    · next h =>
      obtain ⟨rfl, rfl, hk⟩ := h
      revert k
      decide
    · have hm := Nat.mod_lt k (Nat.sub_pos_of_lt hab)
      constructor
      · exact Nat.le_add_right _ _
      · show a + k % (b - a) < b
        omega
  randrange_hits := by
    intro s a b v hav hvb
    have hiter (k s : Nat) : (fun s => s + 1)^[k] s = s + k := by
      induction k generalizing s with
      | zero => rfl
      | succ k ih => rw [Function.iterate_succ_apply, ih, Nat.add_right_comm, Nat.add_assoc]
    have hge : s + 8 ≤ (s + 8) * (b - a) := Nat.le_mul_of_pos_right _ (by omega)
    refine ⟨(s + 8) * (b - a) + (v - a) - s, ?_⟩
    have hs : s + ((s + 8) * (b - a) + (v - a) - s) = v - a + (b - a) * (s + 8) := by
      rw [Nat.mul_comm (b - a)]
      omega
    rw [hiter, hs, if_neg (by rw [Nat.mul_comm]; omega), Nat.add_mul_mod_self_left, Nat.mod_eq_of_lt (by omega)]
    omega

def bar (open_ high low close : Rat) (volume : Int) (minute : Int) : Bar where
  open_ := open_
  high := high
  low := low
  close := close
  volume := volume
  ts := .naive ((1704167100 + IST + 60 * minute) * MICROS)

private theorem mem_grid (n : Int) : (n : Rat) / 100 ∈ Execution.grid 2 := by
  refine AddSubgroup.mem_zmultiples_iff.mpr ⟨n, ?_⟩
  rw [zsmul_eq_mul]
  ring

def twoBars : Frame where
  bars := [bar 100 (203 / 2) (397 / 4) (403 / 4) 1000 0, bar (403 / 4) (403 / 4) (403 / 4) (403 / 4) 0 1]
  nonempty := List.cons_ne_nil _ _
  valid := by
    have h1 := mem_grid 10150
    have h2 := mem_grid 9925
    have h3 := mem_grid 10075
    norm_num at h1 h2 h3
    intro b hb
    simp only [List.mem_cons, List.not_mem_nil, or_false] at hb
    rcases hb with rfl | rfl
    · constructor <;> simp only [bar] <;> first | assumption | norm_num
    · constructor <;> simp only [bar] <;> first | assumption | norm_num
  aligned := by decide
  increasing := by decide

theorem two_bars_replayed :
    ∃ e e', init DEFAULT_TIMEFRAME 10000 .backtest = .ok e ∧ init DEFAULT_TIMEFRAME 10000 .replay = .ok e' ∧
      (e.run (backtest "SYM" "NSE" twoBars)).published = twoBars.bars.map (Bar.candle "SYM" "NSE") ∧
      ∃ N, ∀ fuel ≥ N, ∃ acts, produce "SYM" "NSE" draws fuel 0 4 twoBars.bars = some (.ok acts) ∧
        (e'.run (acts ++ [.flush none])).published = (e.run (backtest "SYM" "NSE" twoBars)).published :=
  ⟨_, _, rfl, rfl, replay_matches_backtest draws twoBars "SYM" "NSE" 0 (by decide) (by decide) rfl rfl⟩

/-- The first bar drawn out into four ticks. -/
example :
    (synthesize1mTicks draws 8 (.naive 0) (bar 100 (203 / 2) (397 / 4) (403 / 4) 1000 0).toOhlcv 0 4).map
        (fun ticks => ticks.toOption.map fun ticks => ticks.map fun t => (t.price, t.quantity)) =
      some (some [(100, 0), (397 / 4, 200), (203 / 2, 600), (403 / 4, 200)]) := by
  decide +kernel

end TwoBars
end NTrade.Sim
