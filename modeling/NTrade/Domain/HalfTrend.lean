import NTrade.Domain.Indicators
import Mathlib.Data.List.GetD
import Mathlib.Tactic.Linarith

/-! The HalfTrend indicator: a trend that turns when the averages of highs or lows cross the extreme
they follow. A value that is not a number is `none`. -/
namespace NTrade.Domain
open NTrade.Engines NTrade.Lib

inductive HalfTrendError where
  /-- `1 / period` -/
  | zeroDivision
  /-- "alpha must satisfy: 0 < alpha <= 1" -/
  | alpha
  /-- "window must be an integer 0 or greater" -/
  | window
  deriving DecidableEq, Repr

structure Columns where
  atr2 : List (Option Rat)
  dev : List (Option Rat)
  highPrice : List (Option Rat)
  lowPrice : List (Option Rat)
  highma : List (Option Rat)
  lowma : List (Option Rat)

def columns (df : List Ohlcv) (amplitude : Nat) (channelDeviation : Int) (atrPeriod : Nat) : Columns where
  atr2 := (atr atrPeriod df).map fun a => a.map (· / 2)
  dev := (atr atrPeriod df).map fun a => a.map fun a => channelDeviation * (a / 2)
  highPrice := rolling amplitude highest (df.map (·.high))
  lowPrice := rolling amplitude lowest (df.map (·.low))
  highma := rolling amplitude mean (df.map (·.high))
  lowma := rolling amplitude mean (df.map (·.low))

structure Cols where
  atr2 : Option Rat
  dev : Option Rat
  highPrice : Option Rat
  lowPrice : Option Rat
  highma : Option Rat
  lowma : Option Rat
  deriving DecidableEq, Repr

def Columns.at (c : Columns) (i : Nat) : Cols where
  atr2 := c.atr2.getD i none
  dev := c.dev.getD i none
  highPrice := c.highPrice.getD i none
  lowPrice := c.lowPrice.getD i none
  highma := c.highma.getD i none
  lowma := c.lowma.getD i none

structure Row where
  trend : Int
  nextTrend : Int
  maxLowPrice : Option Rat
  minHighPrice : Option Rat
  up : Option Rat := none
  down : Option Rat := none
  atrHigh : Option Rat := none
  atrLow : Option Rat := none
  arrowUp : Option Rat := none
  arrowDown : Option Rat := none
  deriving DecidableEq, Repr

namespace Row

/-- The price a trend follows: the extreme of the new one and the one before, where there are both. -/
def follow (extreme : Rat → Rat → Rat) : Option Rat → Option Rat → Option Rat
  | some p, some q => some (extreme p q)
  | some p, none => some p
  | none, q => q

/-- The highs fall below the highest low, and the bar closes below the low before it. -/
def breaksDown (prev : Row) (before bar : Ohlcv) (c : Cols) : Bool :=
  match c.highma, follow max c.lowPrice prev.maxLowPrice with
  | some hma, some m => hma < m ∧ bar.close < before.low
  | _, _ => false

/-- The lows rise above the lowest high, and the bar closes above the high before it. -/
def breaksUp (prev : Row) (before bar : Ohlcv) (c : Cols) : Bool :=
  match c.lowma, follow min c.highPrice prev.minHighPrice with
  | some lma, some m => m < lma ∧ before.high < bar.close
  | _, _ => false

def turn (prev : Row) (before bar : Ohlcv) (c : Cols) : Row :=
  if prev.nextTrend = 1 then
    if prev.breaksDown before bar c then
      { trend := 1, nextTrend := 0, maxLowPrice := follow max c.lowPrice prev.maxLowPrice,
        minHighPrice := c.highPrice.or prev.minHighPrice }
    else
      { trend := prev.trend, nextTrend := prev.nextTrend, maxLowPrice := follow max c.lowPrice prev.maxLowPrice,
        minHighPrice := prev.minHighPrice }
  else
    if prev.breaksUp before bar c then
      { trend := 0, nextTrend := 1, minHighPrice := follow min c.highPrice prev.minHighPrice,
        maxLowPrice := c.lowPrice.or prev.maxLowPrice }
    else
      { trend := prev.trend, nextTrend := prev.nextTrend, minHighPrice := follow min c.highPrice prev.minHighPrice,
        maxLowPrice := prev.maxLowPrice }

def channel (line : Option Rat) (c : Cols) (r : Row) : Row :=
  { r with
    atrHigh := line.bind fun l => c.dev.map fun d => l + d
    atrLow := line.bind fun l => c.dev.map fun d => l - d }

def draw (prev : Row) (c : Cols) (r : Row) : Row :=
  if r.trend = 0 then
    let up := if prev.trend ≠ 0 then prev.down else
      match prev.up with
      | none => r.maxLowPrice
      | some p => some (match r.maxLowPrice with | some m => max m p | none => p)
    channel up c { r with
      up := up
      arrowUp := if prev.trend ≠ 0 then up.bind fun u => c.atr2.map fun a => u - a else none }
  else
    let down := if prev.trend ≠ 1 then prev.up else
      match prev.down with
      | none => r.minHighPrice
      | some p => some (match r.minHighPrice with | some m => min m p | none => p)
    channel down c { r with
      down := down
      arrowDown := if prev.trend ≠ 1 then down.bind fun d => c.atr2.map fun a => d + a else none }

def start (bar : Ohlcv) : Row where
  trend := 0
  nextTrend := 0
  maxLowPrice := some bar.low
  minHighPrice := some bar.high

def next (prev : Row) (before bar : Ohlcv) (c : Cols) : Row := draw prev c (prev.turn before bar c)

end Row

instance : Inhabited Ohlcv := ⟨⟨0, 0, 0, 0, 0⟩⟩

def loop (df : List Ohlcv) (c : Columns) : Nat → Row
  | 0 => .start (df.getD 0 default)
  | i + 1 => (loop df c i).next (df.getD i default) (df.getD (i + 1) default) (c.at (i + 1))

structure HalfTrendRow extends Row, Cols where
  ht : Option Rat
  buySignal : Bool
  sellSignal : Bool
  deriving DecidableEq, Repr

def halftrendRow (prev : Option Row) (r : Row) (c : Cols) : HalfTrendRow :=
  { r with
    toCols := c
    ht := if r.trend = 0 then r.up else if r.trend = 1 then r.down else none
    buySignal := prev.any fun p => r.arrowUp.isSome && r.trend = 0 && p.trend = 1
    sellSignal := prev.any fun p => r.arrowDown.isSome && r.trend = 1 && p.trend = 0 }

def rowAt (df : List Ohlcv) (amplitude : Nat) (channelDeviation : Int) (atrPeriod : Nat) (i : Nat) : HalfTrendRow :=
  let c := columns df amplitude channelDeviation atrPeriod
  halftrendRow (if i = 0 then none else some (loop df c (i - 1))) (loop df c i) (c.at i)

def halftrend (df : List Ohlcv) (amplitude channelDeviation atrPeriod : Int) : Except HalfTrendError (List HalfTrendRow) :=
  if df = [] then .ok []
  else if atrPeriod = 0 then .error .zeroDivision
  else if atrPeriod < 0 then .error .alpha
  else if amplitude < 0 then .error .window
  else .ok ((List.range df.length).map (rowAt df amplitude.toNat channelDeviation atrPeriod.toNat))

section Prefix
variable (amplitude : Nat) (channelDeviation : Int) (atrPeriod : Nat)

private theorem causal_rolling (window : Nat) (agg : List Rat → Rat) (f : Ohlcv → Rat) :
    Causal fun df : List Ohlcv => rolling window agg (df.map f) :=
  (Causal.map f).comp (.prefixwise _)

private theorem causal_atr : Causal (atr atrPeriod) := (Causal.mapPrev _ _).comp (.prefixwise _)

/-- What the loop reads for a bar depends on the bars up to it. -/
theorem columns_take {n i : Nat} (hi : i < n) (df : List Ohlcv) :
    (columns (df.take n) amplitude channelDeviation atrPeriod).at i =
      (columns df amplitude channelDeviation atrPeriod).at i := by
  simp only [columns, Columns.at]
  rw [((causal_atr atrPeriod).comp (.map _)).getD hi, ((causal_atr atrPeriod).comp (.map _)).getD hi,
    (causal_rolling amplitude highest (·.high)).getD hi, (causal_rolling amplitude lowest (·.low)).getD hi,
    (causal_rolling amplitude mean (·.high)).getD hi, (causal_rolling amplitude mean (·.low)).getD hi]

private theorem getD_take {n i : Nat} (hi : i < n) (df : List Ohlcv) : (df.take n).getD i default = df.getD i default := by
  rw [List.getD_eq_getElem?_getD, List.getD_eq_getElem?_getD, List.getElem?_take_of_lt hi]

theorem loop_take {n i : Nat} (hi : i < n) (df : List Ohlcv) :
    loop (df.take n) (columns (df.take n) amplitude channelDeviation atrPeriod) i =
      loop df (columns df amplitude channelDeviation atrPeriod) i := by
  induction i with
  | zero => rw [loop, loop, getD_take hi]
  | succ i ih => rw [loop, loop, ih (by omega), getD_take (by omega), getD_take hi, columns_take _ _ _ hi]

theorem rowAt_take {n i : Nat} (hi : i < n) (df : List Ohlcv) :
    rowAt (df.take n) amplitude channelDeviation atrPeriod i = rowAt df amplitude channelDeviation atrPeriod i := by
  rw [rowAt, rowAt, loop_take _ _ _ hi, loop_take _ _ _ (by omega), columns_take _ _ _ hi]

end Prefix

section Turns

namespace Row
variable {prev : Row} {before bar : Ohlcv} {c : Cols}

def turns (prev : Row) (before bar : Ohlcv) (c : Cols) : Bool :=
  (prev.trend = 0 ∧ prev.nextTrend = 1 ∧ prev.breaksDown before bar c) ∨
    (prev.trend = 1 ∧ prev.nextTrend ≠ 1 ∧ prev.breaksUp before bar c)

structure Sound (r : Row) : Prop where
  low : r.maxLowPrice.isSome
  high : r.minHighPrice.isSome
  line : (r.trend = 0 ∧ (r.up.isSome ∨ r.nextTrend = 0)) ∨ (r.trend = 1 ∧ r.down.isSome)

private theorem follow_isSome (extreme : Rat → Rat → Rat) (p : Option Rat) {q : Option Rat} (h : q.isSome) :
    (follow extreme p q).isSome := by
  obtain ⟨q, rfl⟩ := Option.isSome_iff_exists.mp h
  cases p <;> rfl

private theorem or_isSome (p : Option Rat) {q : Option Rat} (h : q.isSome) : (p.or q).isSome := by
  rw [Option.isSome_or, h, Bool.or_true]

theorem turn_trend (prev : Row) (before bar : Ohlcv) (c : Cols) :
    (prev.turn before bar c).trend =
      if prev.nextTrend = 1 then if prev.breaksDown before bar c then 1 else prev.trend
      else if prev.breaksUp before bar c then 0 else prev.trend := by
  rw [turn]
  split_ifs <;> rfl

theorem turn_prices (h : prev.Sound) (before bar : Ohlcv) (c : Cols) :
    (prev.turn before bar c).maxLowPrice.isSome ∧ (prev.turn before bar c).minHighPrice.isSome := by
  rw [turn]
  split_ifs
  · exact ⟨follow_isSome _ _ h.low, or_isSome _ h.high⟩
  · exact ⟨follow_isSome _ _ h.low, h.high⟩
  · exact ⟨or_isSome _ h.low, follow_isSome _ _ h.high⟩
  · exact ⟨h.low, follow_isSome _ _ h.high⟩

@[simp] theorem draw_trend (prev : Row) (c : Cols) (r : Row) : (draw prev c r).trend = r.trend := by
  rw [draw]
  split <;> rfl

private theorem draw_prices (prev : Row) (c : Cols) (r : Row) :
    (draw prev c r).maxLowPrice = r.maxLowPrice ∧ (draw prev c r).minHighPrice = r.minHighPrice := by
  rw [draw]
  split <;> exact ⟨rfl, rfl⟩

/-- A trend of 0 has its line from the highest low, or from the line it turned from. -/
theorem draw_up {r : Row} (h0 : r.trend = 0) (hlow : r.maxLowPrice.isSome)
    (hprev : prev.trend ≠ 0 → prev.down.isSome) : (draw prev c r).up.isSome := by
  obtain ⟨m, hm⟩ := Option.isSome_iff_exists.mp hlow
  rw [draw, if_pos h0, hm]
  simp only [channel]
  split
  · next hp => exact hprev hp
  · cases prev.up <;> rfl

theorem draw_down {r : Row} (h1 : r.trend = 1) (hhigh : r.minHighPrice.isSome)
    (hprev : prev.trend ≠ 1 → prev.up.isSome) : (draw prev c r).down.isSome := by
  obtain ⟨m, hm⟩ := Option.isSome_iff_exists.mp hhigh
  rw [draw, if_neg (by rw [h1]; decide), hm]
  simp only [channel]
  split
  · next hp => exact hprev hp
  · cases prev.down <;> rfl

/-- A trend that is 0 and about to turn has a line. -/
theorem Sound.up {r : Row} (h : r.Sound) (h0 : r.trend = 0) (h1 : r.nextTrend = 1) : r.up.isSome := by
  rcases h.line with ⟨-, hu | hn⟩ | ⟨ht, -⟩
  · exact hu
  · rw [h1] at hn
    cases hn
  · rw [h0] at ht
    cases ht

theorem Sound.down {r : Row} (h : r.Sound) (h1 : r.trend = 1) : r.down.isSome := by
  rcases h.line with ⟨ht, -⟩ | ⟨-, hd⟩
  · rw [h1] at ht
    cases ht
  · exact hd

theorem Sound.trend {r : Row} (h : r.Sound) : r.trend = 0 ∨ r.trend = 1 := h.line.imp And.left And.left

theorem sound_start (bar : Ohlcv) : (start bar).Sound := ⟨rfl, rfl, .inl ⟨rfl, .inr rfl⟩⟩

/-- Where the trend of a bar comes from. -/
theorem trend_cases (h : prev.Sound) (before bar : Ohlcv) (c : Cols) :
    ((prev.turn before bar c).trend = prev.trend ∧ prev.turns before bar c = false) ∨
    (prev.trend = 0 ∧ prev.nextTrend = 1 ∧ (prev.turn before bar c).trend = 1 ∧ prev.turns before bar c = true) ∨
    (prev.trend = 1 ∧ (prev.turn before bar c).trend = 0 ∧ prev.turns before bar c = true) := by
  rw [turn_trend]
  rcases h.trend with h0 | h1
  · by_cases hn : prev.nextTrend = 1
    · by_cases hb : prev.breaksDown before bar c = true
      · exact .inr (.inl ⟨h0, hn, by rw [if_pos hn, if_pos hb], by simp [turns, h0, hn, hb]⟩)
      · exact .inl ⟨by rw [if_pos hn, if_neg hb], by simp [turns, h0, hb]⟩
    · refine .inl ⟨?_, by simp [turns, h0, hn]⟩
      rw [if_neg hn, h0]
      split <;> rfl
  · by_cases hn : prev.nextTrend = 1
    · refine .inl ⟨?_, by simp [turns, h1, hn]⟩
      rw [if_pos hn, h1]
      split <;> rfl
    · by_cases hb : prev.breaksUp before bar c = true
      · exact .inr (.inr ⟨h1, by rw [if_neg hn, if_pos hb], by simp [turns, h1, hn, hb]⟩)
      · exact .inl ⟨by rw [if_neg hn, if_neg hb], by simp [turns, h1, hb]⟩

theorem Sound.next (h : prev.Sound) (before bar : Ohlcv) (c : Cols) : (prev.next before bar c).Sound := by
  obtain ⟨hlow, hhigh⟩ := turn_prices h before bar c
  obtain ⟨el, eh⟩ := draw_prices prev c (prev.turn before bar c)
  refine ⟨by rw [Row.next, el]; exact hlow, by rw [Row.next, eh]; exact hhigh, ?_⟩
  rw [Row.next, draw_trend]
  rcases trend_cases h before bar c with ⟨ht, -⟩ | ⟨h0, hn, ht, -⟩ | ⟨h1, ht, -⟩
  · rcases h.trend with h0 | h1
    · exact .inl ⟨ht.trans h0, .inl (draw_up (ht.trans h0) hlow fun hne => absurd h0 hne)⟩
    · exact .inr ⟨ht.trans h1, draw_down (ht.trans h1) hhigh fun hne => absurd h1 hne⟩
  · exact .inr ⟨ht, draw_down ht hhigh fun _ => h.up h0 hn⟩
  · exact .inl ⟨ht, .inl (draw_up ht hlow fun _ => h.down h1)⟩

/-- With a range to draw arrows by, a bar has a signal exactly if the trend turns there. -/
theorem signal_iff (h : prev.Sound) (before bar : Ohlcv) (c : Cols) (ha : c.atr2.isSome) :
    (halftrendRow (some prev) (prev.next before bar c) c).buySignal = true ∨
      (halftrendRow (some prev) (prev.next before bar c) c).sellSignal = true ↔ prev.turns before bar c = true := by
  obtain ⟨a, ha⟩ := Option.isSome_iff_exists.mp ha
  simp only [halftrendRow, Option.any_some, Bool.and_eq_true, decide_eq_true_eq, Row.next, draw_trend]
  rcases trend_cases h before bar c with ⟨ht, hf⟩ | ⟨h0, hn, ht, hf⟩ | ⟨h1, ht, hf⟩
  · rw [ht, hf]
    constructor
    · rintro (⟨⟨-, h0⟩, h1⟩ | ⟨⟨-, h1⟩, h0⟩)
      · omega
      · omega
    · intro hc
      cases hc
  · obtain ⟨u, hu⟩ := Option.isSome_iff_exists.mp (h.up h0 hn)
    refine iff_of_true (.inr ⟨⟨?_, ht⟩, h0⟩) hf
    rw [draw, if_neg (by rw [ht]; decide)]
    simp [channel, h0, hu, ha]
  · obtain ⟨d, hd⟩ := Option.isSome_iff_exists.mp (h.down h1)
    refine iff_of_true (.inl ⟨⟨?_, ht⟩, h1⟩) hf
    rw [draw, if_pos ht]
    simp [channel, h1, hd, ha]

end Row

variable (df : List Ohlcv) (amplitude : Nat) (channelDeviation : Int) (atrPeriod : Nat)

def turnsAt : Nat → Bool
  | 0 => false
  | i + 1 =>
    let c := columns df amplitude channelDeviation atrPeriod
    (loop df c i).turns (df.getD i default) (df.getD (i + 1) default) (c.at (i + 1))

theorem sound_loop (c : Columns) (i : Nat) : (loop df c i).Sound := by
  induction i with
  | zero => exact Row.sound_start _
  | succ i ih => exact ih.next _ _ _

/-- The range is there from the bar on which the period is full. -/
theorem atr2_isSome_iff {i : Nat} (hi : i < df.length) :
    ((columns df amplitude channelDeviation atrPeriod).at i).atr2.isSome = true ↔ atrPeriod ≤ i + 1 := by
  have hlen : i < (trueRange df).length := by rwa [trueRange, length_mapPrev]
  have hat : ((columns df amplitude channelDeviation atrPeriod).at i).atr2 =
      ((atr atrPeriod df).getD i none).map (· / 2) :=
    List.getD_map _ none (Option.map (· / 2))
  rw [hat, Option.isSome_map, atr, ewmMean, getD_prefixwise _ hlen, List.length_take]
  split_ifs with hshort
  · simp only [Option.isSome_none, Bool.false_eq_true, false_iff]
    omega
  · simp only [Option.isSome_some, true_iff]
    omega

/-- Once the range is there, the bars with a signal are those at which the trend turns. -/
theorem rowAt_signal_iff {i : Nat} (hi : i < df.length) (hp : atrPeriod ≤ i + 1) :
    (rowAt df amplitude channelDeviation atrPeriod i).buySignal = true ∨
      (rowAt df amplitude channelDeviation atrPeriod i).sellSignal = true ↔
      turnsAt df amplitude channelDeviation atrPeriod i = true := by
  cases i with
  | zero =>
    rw [turnsAt]
    simp [rowAt, halftrendRow]
  | succ i => exact Row.signal_iff (sound_loop df _ i) _ _ _ ((atr2_isSome_iff df amplitude channelDeviation atrPeriod hi).mpr hp)

end Turns

section Result
variable {amplitude channelDeviation atrPeriod : Int} {df : List Ohlcv}

def Accepted (amplitude atrPeriod : Int) : Prop := 0 < atrPeriod ∧ 0 ≤ amplitude

instance (amplitude atrPeriod : Int) : Decidable (Accepted amplitude atrPeriod) := inferInstanceAs (Decidable (_ ∧ _))

theorem halftrend_accepted (h : Accepted amplitude atrPeriod) :
    halftrend df amplitude channelDeviation atrPeriod =
      .ok ((List.range df.length).map (rowAt df amplitude.toNat channelDeviation atrPeriod.toNat)) := by
  rw [halftrend, if_neg (show ¬atrPeriod = 0 by have := h.1; omega), if_neg (not_lt.mpr h.1.le), if_neg (not_lt.mpr h.2)]
  split
  · next hdf => rw [hdf, List.length_nil, List.range_zero, List.map_nil]
  · rfl

theorem halftrend_not_accepted (h : ¬Accepted amplitude atrPeriod) (hdf : df ≠ []) :
    ∃ err, halftrend df amplitude channelDeviation atrPeriod = .error err := by
  rw [halftrend, if_neg hdf]
  split_ifs with h0 hneg hamp
  · exact ⟨_, rfl⟩
  · exact ⟨_, rfl⟩
  · exact ⟨_, rfl⟩
  · exact absurd ⟨by omega, by omega⟩ h

end Result

end NTrade.Domain
