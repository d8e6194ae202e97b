import NTrade.Domain.HalfTrend
import Mathlib.Data.List.Chain

/-! The states that the loop of the HalfTrend indicator reaches, the line that it draws in them, and the
signals at its turns. -/
namespace NTrade.Domain
open NTrade.Engines NTrade.Lib

namespace Row
variable {prev r : Row} {before bar : Ohlcv} {c : Cols}

def Reached (r : Row) : Prop := (r.trend, r.nextTrend) ∈ ([(0, 0), (0, 1), (1, 0)] : List (Int × Int))

def line (r : Row) : Option Rat := if r.trend = 0 then r.up else r.down

theorem reached_start (bar : Ohlcv) : (start bar).Reached := by
  exact List.mem_cons_self

theorem turn_nextTrend (prev : Row) (before bar : Ohlcv) (c : Cols) :
    (prev.turn before bar c).nextTrend =
      if prev.nextTrend = 1 then if prev.breaksDown before bar c then 0 else prev.nextTrend
      else if prev.breaksUp before bar c then 1 else prev.nextTrend := by
  rw [turn]
  split_ifs <;> rfl

theorem draw_nextTrend (prev : Row) (c : Cols) (r : Row) : (draw prev c r).nextTrend = r.nextTrend := by
  rw [draw]
  split <;> rfl

theorem Reached.next (h : prev.Reached) (before bar : Ohlcv) (c : Cols) : (prev.next before bar c).Reached := by
  rw [Reached, Row.next, draw_trend, draw_nextTrend, turn_trend, turn_nextTrend]
  simp only [Reached, List.mem_cons, List.not_mem_nil, or_false, Prod.mk.injEq] at h
  rcases h with ⟨ht, hn⟩ | ⟨ht, hn⟩ | ⟨ht, hn⟩
  · rw [ht, hn]
    split_ifs <;> simp
  · rw [ht, hn]
    split_ifs <;> simp
  · rw [ht, hn]
    split_ifs <;> simp

/-- After a row with the prices that its trend needs, the current trend has a line. -/
theorem line_next (h : prev.Sound) (before bar : Ohlcv) (c : Cols) : (prev.next before bar c).line.isSome := by
  obtain ⟨hlow, hhigh⟩ := turn_prices h before bar c
  rw [line, Row.next, draw_trend]
  rcases trend_cases h before bar c with ⟨ht, -⟩ | ⟨h0, hn, ht, -⟩ | ⟨h1, ht, -⟩
  · rcases h.trend with h0 | h1
    · rw [if_pos (ht.trans h0)]
      exact draw_up (ht.trans h0) hlow fun hne => absurd h0 hne
    · rw [if_neg (by rw [ht, h1]; decide)]
      exact draw_down (ht.trans h1) hhigh fun hne => absurd h1 hne
  · rw [if_neg (by rw [ht]; decide)]
    exact draw_down ht hhigh fun _ => h.up h0 hn
  · rw [if_pos ht]
    exact draw_up ht hlow fun _ => h.down h1

/-- A trend turns exactly if it changes. -/
theorem turns_iff (h : prev.Sound) (before bar : Ohlcv) (c : Cols) :
    prev.turns before bar c = true ↔ (prev.next before bar c).trend ≠ prev.trend := by
  rw [Row.next, draw_trend]
  rcases trend_cases h before bar c with ⟨ht, hf⟩ | ⟨h0, -, ht, hf⟩ | ⟨h1, ht, hf⟩
  · rw [hf, ht]
    simp
  · rw [hf, ht, h0]
    decide
  · rw [hf, ht, h1]
    decide

/-- Without the range there are no arrows. -/
theorem arrows_next (prev : Row) (before bar : Ohlcv) (h : c.atr2 = none) :
    (prev.next before bar c).arrowUp = none ∧ (prev.next before bar c).arrowDown = none := by
  have hturn : (prev.turn before bar c).arrowUp = none ∧ (prev.turn before bar c).arrowDown = none := by
    rw [turn]
    split_ifs <;> exact ⟨rfl, rfl⟩
  rw [Row.next, draw]
  split
  · simp [channel, h, hturn.2]
  · simp [channel, h, hturn.1]

end Row

def signals (rows : List HalfTrendRow) : List Bool :=
  rows.filterMap fun r => if r.buySignal then some true else if r.sellSignal then some false else none

structure StateMachine (atrPeriod : Int) (rows : List HalfTrendRow) : Prop where
  reached : ∀ r ∈ rows, r.Reached
  line : ∀ (i : Nat) r, 0 < i → rows[i]? = some r → r.line.isSome
  one : ∀ r ∈ rows, ¬(r.buySignal = true ∧ r.sellSignal = true)
  turns : ∀ (i : Nat) before r, rows[i]? = some before → rows[i + 1]? = some r → atrPeriod ≤ i + 2 →
    (r.trend ≠ before.trend ↔ r.buySignal = true ∨ r.sellSignal = true)
  alternate : (signals rows).IsChain (· ≠ ·)

section Loop
variable (df : List Ohlcv) (amplitude : Nat) (channelDeviation : Int) (atrPeriod : Nat)

theorem reached_loop (c : Columns) (i : Nat) : (loop df c i).Reached := by
  induction i with
  | zero => exact Row.reached_start _
  | succ i ih => exact ih.next _ _ _

/-- What a signal tells of the trends around it. -/
theorem trend_of_signal (i : Nat) :
    ((rowAt df amplitude channelDeviation atrPeriod (i + 1)).buySignal = true →
      (rowAt df amplitude channelDeviation atrPeriod i).trend = 1 ∧
        (rowAt df amplitude channelDeviation atrPeriod (i + 1)).trend = 0) ∧
    ((rowAt df amplitude channelDeviation atrPeriod (i + 1)).sellSignal = true →
      (rowAt df amplitude channelDeviation atrPeriod i).trend = 0 ∧
        (rowAt df amplitude channelDeviation atrPeriod (i + 1)).trend = 1) := by
  simp only [rowAt, halftrendRow, Nat.add_one_ne_zero, if_false, Nat.add_sub_cancel, Option.any_some, Bool.and_eq_true,
    decide_eq_true_eq]
  constructor
  · rintro ⟨⟨-, h0⟩, h1⟩
    exact ⟨h1, h0⟩
  · rintro ⟨⟨-, h1⟩, h0⟩
    exact ⟨h0, h1⟩

theorem signal_iff_change {i : Nat} (hi : i + 1 < df.length) (hp : atrPeriod ≤ i + 2) :
    (rowAt df amplitude channelDeviation atrPeriod (i + 1)).trend ≠ (rowAt df amplitude channelDeviation atrPeriod i).trend ↔
      (rowAt df amplitude channelDeviation atrPeriod (i + 1)).buySignal = true ∨
        (rowAt df amplitude channelDeviation atrPeriod (i + 1)).sellSignal = true := by
  rw [rowAt_signal_iff df amplitude channelDeviation atrPeriod hi hp]
  exact (Row.turns_iff (sound_loop df _ i) _ _ _).symm

/-- A signal has an arrow, which needs the range. -/
theorem period_le_of_signal {i : Nat} (hi : i + 1 < df.length)
    (h : (rowAt df amplitude channelDeviation atrPeriod (i + 1)).buySignal = true ∨
      (rowAt df amplitude channelDeviation atrPeriod (i + 1)).sellSignal = true) : atrPeriod ≤ i + 2 := by
  by_contra hp
  have hnone : ((columns df amplitude channelDeviation atrPeriod).at (i + 1)).atr2 = none := by
    rw [← Option.not_isSome_iff_eq_none, atr2_isSome_iff df amplitude channelDeviation atrPeriod hi]
    omega
  have harrow : (loop df (columns df amplitude channelDeviation atrPeriod) (i + 1)).arrowUp = none ∧
      (loop df (columns df amplitude channelDeviation atrPeriod) (i + 1)).arrowDown = none :=
    Row.arrows_next _ _ _ hnone
  simp only [rowAt, halftrendRow, Nat.add_one_ne_zero, if_false, Nat.add_sub_cancel, Option.any_some, harrow.1, harrow.2,
    Option.isSome_none, Bool.false_and, Bool.false_eq_true, or_self] at h

end Loop

section Run
variable {df : List Ohlcv} {amplitude channelDeviation atrPeriod : Int} {rows : List HalfTrendRow}

structure Told (df : List Ohlcv) (amplitude : Nat) (channelDeviation : Int) (atrPeriod n : Nat) : Prop where
  chain : (signals ((List.range n).map (rowAt df amplitude channelDeviation atrPeriod))).IsChain (· ≠ ·)
  last : ∀ b ∈ (signals ((List.range n).map (rowAt df amplitude channelDeviation atrPeriod))).getLast?,
    atrPeriod ≤ n ∧ ((rowAt df amplitude channelDeviation atrPeriod (n - 1)).trend = if b then 0 else 1)

theorem signals_concat (rows : List HalfTrendRow) (r : HalfTrendRow) :
    signals (rows ++ [r]) =
      signals rows ++ (if r.buySignal then some true else if r.sellSignal then some false else none).toList := by
  rw [signals, List.filterMap_append]
  cases hb : r.buySignal <;> cases hs : r.sellSignal <;> simp [signals, hb, hs]

theorem told_range (df : List Ohlcv) (amplitude : Nat) (channelDeviation : Int) (atrPeriod n : Nat) (hn : n ≤ df.length) :
    Told df amplitude channelDeviation atrPeriod n := by
  induction n with
  | zero => exact ⟨List.IsChain.nil, nofun⟩
  | succ n ih =>
    obtain ⟨hchain, hlast⟩ := ih (by omega)
    have hrange : (List.range (n + 1)).map (rowAt df amplitude channelDeviation atrPeriod) =
        (List.range n).map (rowAt df amplitude channelDeviation atrPeriod) ++
          [rowAt df amplitude channelDeviation atrPeriod n] := by
      rw [List.range_succ, List.map_append]
      rfl
    cases n with
    | zero =>
      have hnone : signals ((List.range 1).map (rowAt df amplitude channelDeviation atrPeriod)) = [] := rfl
      refine ⟨?_, fun b hb => ?_⟩
      · rw [hnone]
        exact List.IsChain.nil
      · rw [hnone] at hb
        cases hb
    | succ m =>
      obtain ⟨hbuy, hsell⟩ := trend_of_signal df amplitude channelDeviation atrPeriod m
      have hperiod := period_le_of_signal df amplitude channelDeviation atrPeriod (i := m) (by omega)
      -- a signal is not the one before it, which tells the trend that it turns
      have hnew {b : Bool} (hb : (rowAt df amplitude channelDeviation atrPeriod m).trend = if b then 1 else 0)
          (hb' : (rowAt df amplitude channelDeviation atrPeriod (m + 1)).trend = if b then 0 else 1)
          (hp : atrPeriod ≤ m + 2) (hs : signals ((List.range (m + 1 + 1)).map (rowAt df amplitude channelDeviation atrPeriod)) =
            signals ((List.range (m + 1)).map (rowAt df amplitude channelDeviation atrPeriod)) ++ [b]) :
          Told df amplitude channelDeviation atrPeriod (m + 1 + 1) := by
        refine ⟨?_, fun b' hl => ?_⟩
        · rw [hs, List.isChain_append]
          refine ⟨hchain, List.IsChain.singleton b, fun x hx y hy => ?_⟩
          obtain rfl : b = y := Option.some.inj hy
          have ht := (hlast x hx).2
          rw [Nat.add_sub_cancel, hb] at ht
          rintro rfl
          cases x <;> simp at ht
        · rw [hs, List.getLast?_concat] at hl
          obtain rfl : b = b' := Option.some.inj hl
          exact ⟨hp, hb'⟩
      by_cases hb : (rowAt df amplitude channelDeviation atrPeriod (m + 1)).buySignal = true
      · apply hnew (b := true) (hbuy hb).1 (hbuy hb).2 (hperiod (.inl hb))
        rw [hrange, signals_concat, if_pos hb]
        rfl
      · by_cases hs : (rowAt df amplitude channelDeviation atrPeriod (m + 1)).sellSignal = true
        · apply hnew (b := false) (hsell hs).1 (hsell hs).2 (hperiod (.inr hs))
          rw [hrange, signals_concat, if_neg hb, if_pos hs]
          rfl
        · have hsame : signals ((List.range (m + 1 + 1)).map (rowAt df amplitude channelDeviation atrPeriod)) =
              signals ((List.range (m + 1)).map (rowAt df amplitude channelDeviation atrPeriod)) := by
            rw [hrange, signals_concat, if_neg hb, if_neg hs]
            exact List.append_nil _
          refine ⟨?_, fun b hl => ?_⟩
          · rw [hsame]
            exact hchain
          · rw [hsame] at hl
            obtain ⟨hp, ht⟩ := hlast b hl
            have hkeep := (signal_iff_change df amplitude channelDeviation atrPeriod (i := m) (by omega) (by omega)).not.mpr
              (not_or.mpr ⟨hb, hs⟩)
            exact ⟨by omega, (not_not.mp hkeep).trans ht⟩

/-- The indicator has a row for each bar; its reachable states, its lines and its signals. -/
theorem halftrend_machine (h : halftrend df amplitude channelDeviation atrPeriod = .ok rows) :
    rows.length = df.length ∧ StateMachine atrPeriod rows := by
  by_cases hdf : df = []
  · rw [hdf, halftrend, if_pos rfl] at h
    obtain rfl := Except.ok.inj h
    refine ⟨(congrArg List.length hdf).symm, fun r hr => absurd hr List.not_mem_nil, fun i r _ hr => ?_,
      fun r hr => absurd hr List.not_mem_nil, fun i before r hb => ?_, List.IsChain.nil⟩
    · rw [List.getElem?_nil] at hr
      cases hr
    · rw [List.getElem?_nil] at hb
      cases hb
  by_cases hacc : Accepted amplitude atrPeriod
  · rw [halftrend_accepted hacc] at h
    have hrows := (Except.ok.inj h).symm
    have hp : ((atrPeriod.toNat : Nat) : Int) = atrPeriod := Int.toNat_of_nonneg hacc.1.le
    have hget {i : Nat} {r : HalfTrendRow} (hr : rows[i]? = some r) :
        i < df.length ∧ r = rowAt df amplitude.toNat channelDeviation atrPeriod.toNat i := by
      rw [hrows, List.getElem?_map, Option.map_eq_some_iff] at hr
      obtain ⟨j, hj, rfl⟩ := hr
      obtain ⟨hlt, rfl⟩ := List.getElem?_eq_some_iff.mp hj
      rw [List.length_range] at hlt
      rw [List.getElem_range]
      exact ⟨hlt, rfl⟩
    have hmem {r : HalfTrendRow} (hr : r ∈ rows) :
        ∃ i, i < df.length ∧ r = rowAt df amplitude.toNat channelDeviation atrPeriod.toNat i := by
      obtain ⟨i, hi⟩ := List.getElem?_of_mem hr
      exact ⟨i, hget hi⟩
    refine ⟨by rw [hrows, List.length_map, List.length_range], fun r hr => ?_, fun i r hi hr => ?_, fun r hr => ?_,
      fun i before r hb hr hle => ?_, ?_⟩
    · obtain ⟨i, -, rfl⟩ := hmem hr
      exact reached_loop df _ i
    · obtain ⟨-, rfl⟩ := hget hr
      obtain ⟨i, rfl⟩ := Nat.exists_eq_succ_of_ne_zero hi.ne'
      exact Row.line_next (sound_loop df _ i) _ _ _
    · rintro ⟨hbuy, hsell⟩
      obtain ⟨i, -, rfl⟩ := hmem hr
      cases i with
      | zero => cases hbuy
      | succ i =>
        obtain ⟨h1, h2⟩ := trend_of_signal df amplitude.toNat channelDeviation atrPeriod.toNat i
        have h0 := (h1 hbuy).1.symm.trans (h2 hsell).1
        cases h0
    · obtain ⟨-, rfl⟩ := hget hb
      obtain ⟨hlt, rfl⟩ := hget hr
      exact signal_iff_change df amplitude.toNat channelDeviation atrPeriod.toNat hlt (by omega)
    · rw [hrows]
      exact (told_range df amplitude.toNat channelDeviation atrPeriod.toNat df.length le_rfl).chain
  · obtain ⟨err, he⟩ := @halftrend_not_accepted amplitude channelDeviation atrPeriod df hacc hdf
    rw [he] at h
    cases h

private def turningBars : List Ohlcv :=
  [⟨10, 11, 9, 10, 5⟩, ⟨10, 12, 10, 12, 5⟩, ⟨12, 15, 12, 15, 5⟩, ⟨15, 15, 10, 10, 5⟩, ⟨10, 10, 6, 6, 5⟩, ⟨6, 6, 3, 3, 5⟩,
    ⟨3, 9, 3, 9, 5⟩, ⟨9, 14, 9, 14, 5⟩]

theorem turning_machine : ∃ rows, halftrend turningBars 1 2 1 = .ok rows ∧ signals rows = [false, true] ∧
    rows.length = 8 ∧ StateMachine 1 rows :=
  ⟨_, halftrend_accepted (by decide), by decide +kernel, halftrend_machine (halftrend_accepted (by decide))⟩

end Run

end NTrade.Domain
