import NTrade.Domain.Indicators
import NTrade.Domain.MarketHours
import NTrade.Execution.Costs
import NTrade.Lib.Timeline

/-! The VWAP that is drawn over the candles of a chart. The series of the session is put beside the whole
frame by position. -/
namespace NTrade.Analytics
open NTrade.Domain NTrade.Execution NTrade.Lib

/-- A candle as it is sent, by its start in seconds since the epoch. -/
structure WireCandle extends FrameBar where
  time : Int
  open_ : Rat
  deriving DecidableEq, Repr

inductive OverlayError where
  /-- "float() argument must be a string or a real number, not 'NAType'" -/
  | naType
  deriving DecidableEq, Repr

/-- `_candles_to_frame`: the first candle of each time, in the order of time. -/
def candlesToFrame (candles : List WireCandle) : List WireCandle := Timeline.timeline WireCandle.time candles

/-- Wall time in India of seconds since the epoch. -/
def wallOf (time : Int) : Int := (time + IST) * MICROS

def openTime (exchange : String) (time : Int) : Int :=
  (wallOf time / DAY * DAY + sessionOpen exchange) / MICROS - IST

def sessionAnchor (df : List WireCandle) (exchange : String) : List WireCandle :=
  match df.getLast? with
  | none => df
  | some last =>
    if isMarketOpen exchange (wallOf last.time) then df.filter (openTime exchange last.time ≤ ·.time)
    -- out of hours whatever there is is shown
    else df

def seriesOf (df : List WireCandle) : List (Option Rat) := vwap (df.map WireCandle.toFrameBar)

/-- The points of a series, its values put beside the times by position. -/
def points : List WireCandle → List (Option Rat) → Except OverlayError (List (Int × Option Rat))
  | [], _ => .ok []
  | bar :: df, [] => do return (bar.time, none) :: (← points df [])
  | _ :: _, none :: _ => .error .naType
  | bar :: df, some v :: ser => do return (bar.time, some (round v 4)) :: (← points df ser)

/-- The `vwap` of `_build_vwap`. -/
def buildVwap (df session : List WireCandle) : Except OverlayError (Option (List (Int × Option Rat))) :=
  if session = [] then .ok none else (points df (seriesOf session)).map some

/-- The `vwap` of `build_overlays`. -/
def overlayVwap (candles : List WireCandle) (exchange : String) : Except OverlayError (Option (List (Int × Option Rat))) :=
  let df := candlesToFrame candles
  buildVwap df (sessionAnchor df exchange)

def sessionUpTo (df : List WireCandle) (start time : Int) : List FrameBar :=
  (df.filter fun bar => start ≤ bar.time ∧ bar.time ≤ time).map WireCandle.toFrameBar

def sessionVwap (df : List WireCandle) (start : Int) : List (Int × Option Rat) :=
  df.map fun bar => (bar.time,
    if bar.time < start then none else (vwapOf (sessionUpTo df start bar.time)).map fun v => round v 4)

structure InSession (exchange : String) where
  candles : List WireCandle
  last : WireCandle
  isLast : (candlesToFrame candles).getLast? = some last
  opened : isMarketOpen exchange (wallOf last.time) = true

namespace InSession
variable {exchange : String} (s : InSession exchange)

def frame : List WireCandle := candlesToFrame s.candles

def start : Int := openTime exchange s.last.time

def Drawn : Prop := overlayVwap s.candles exchange = .ok (some (sessionVwap s.frame s.start))

/-- No candle is of an earlier session, and at every candle there is volume. -/
def OneSession : Prop :=
  ∀ bar ∈ s.frame, s.start ≤ bar.time ∧ totalVolume (sessionUpTo s.frame s.start bar.time) ≠ 0

end InSession

section Points
variable {df : List WireCandle} {ser : List (Option Rat)}

private theorem points_cons_eq_ok (bar : WireCandle) (v : Rat) (df : List WireCandle) (ser : List (Option Rat))
    (out : List (Int × Option Rat)) : points (bar :: df) (some v :: ser) = .ok out ↔
      ∃ rest, points df ser = .ok rest ∧ out = (bar.time, some (round v 4)) :: rest := by
  rw [points]
  cases points df ser with
  | error e => exact iff_of_false nofun nofun
  | ok rest =>
    constructor
    · intro h
      exact ⟨rest, rfl, (Except.ok.inj h).symm⟩
    · rintro ⟨rest', hr, rfl⟩
      rw [Except.ok.inj hr]
      rfl

/-- The points of a series as long as its frame. -/
theorem points_eq_ok_iff (hlen : ser.length = df.length) (out : List (Int × Option Rat)) : points df ser = .ok out ↔
    (∀ v ∈ ser, v.isSome) ∧ out = List.zipWith (fun bar v => (bar.time, v.map fun v => round v 4)) df ser := by
  induction df generalizing ser out with
  | nil =>
    obtain rfl := List.eq_nil_of_length_eq_zero hlen
    constructor
    · intro h
      exact ⟨fun v hv => absurd hv List.not_mem_nil, (Except.ok.inj h).symm⟩
    · rintro ⟨-, rfl⟩
      rfl
  | cons bar df ih =>
    cases ser with
    | nil => cases hlen
    | cons v ser =>
      have hser : ser.length = df.length := Nat.succ.inj hlen
      cases v with
      | none =>
        refine iff_of_false nofun fun h => ?_
        cases h.1 none List.mem_cons_self
      | some v =>
        rw [points_cons_eq_ok, List.zipWith_cons_cons, List.forall_mem_cons]
        constructor
        · rintro ⟨rest, hr, rfl⟩
          obtain ⟨hall, rfl⟩ := (ih hser rest).mp hr
          exact ⟨⟨rfl, hall⟩, rfl⟩
        · rintro ⟨⟨-, hall⟩, rfl⟩
          exact ⟨_, (ih hser _).mpr ⟨hall, rfl⟩, rfl⟩

theorem length_seriesOf (df : List WireCandle) : (seriesOf df).length = df.length := by
  rw [seriesOf, vwap, length_prefixwise, List.length_map]

theorem getElem?_seriesOf {i : Nat} (hi : i < df.length) :
    (seriesOf df)[i]? = some (vwapOf ((df.take (i + 1)).map WireCandle.toFrameBar)) := by
  rw [seriesOf, vwap, prefixwise, List.getElem?_map, List.getElem?_range (by rwa [List.length_map]), Option.map_some,
    List.map_take]

theorem vwapOf_isSome (bars : List FrameBar) : (vwapOf bars).isSome ↔ totalVolume bars ≠ 0 := by
  rw [vwapOf]
  split
  · next h => simp [h]
  · next h => simp [h]

end Points

namespace InSession
variable {exchange : String} (s : InSession exchange)

theorem start_le_last : s.start ≤ s.last.time := by
  have hin := (of_decide_eq_true s.opened).2
  obtain ⟨ho, -⟩ := of_decide_eq_true hin
  have hday := Int.mul_ediv_add_emod (wallOf s.last.time) DAY
  have hle : wallOf s.last.time / DAY * DAY + sessionOpen exchange ≤ wallOf s.last.time := by
    rw [Int.mul_comm] at hday
    omega
  have hdiv := Int.ediv_le_ediv (by decide : 0 < MICROS) hle
  have hwall : wallOf s.last.time / MICROS = s.last.time + IST := Int.mul_ediv_cancel _ (by decide)
  rw [start, openTime]
  omega

theorem increasing_frame : Timeline.Increasing WireCandle.time s.frame := Timeline.increasing_timeline _ _

/-- What the series is of. -/
theorem sessionAnchor_frame : sessionAnchor s.frame exchange = s.frame.filter (s.start ≤ ·.time) := by
  rw [sessionAnchor, frame, s.isLast]
  exact if_pos s.opened

theorem last_mem : s.last ∈ s.frame := List.mem_of_getLast? s.isLast

theorem session_ne_nil : s.frame.filter (s.start ≤ ·.time) ≠ [] := by
  intro h
  have hm : s.last ∈ s.frame.filter (s.start ≤ ·.time) := List.mem_filter.mpr ⟨s.last_mem, decide_eq_true s.start_le_last⟩
  rw [h] at hm
  cases hm

theorem drawn_iff_points : s.Drawn ↔
    points s.frame (seriesOf (s.frame.filter (s.start ≤ ·.time))) = .ok (sessionVwap s.frame s.start) := by
  have ho : overlayVwap s.candles exchange =
      (points s.frame (seriesOf (s.frame.filter (s.start ≤ ·.time)))).map some := by
    rw [overlayVwap]
    show buildVwap s.frame (sessionAnchor s.frame exchange) = _
    rw [s.sessionAnchor_frame, buildVwap, if_neg s.session_ne_nil]
  rw [Drawn, ho]
  cases points s.frame (seriesOf (s.frame.filter (s.start ≤ ·.time))) with
  | error e => exact iff_of_false nofun nofun
  | ok out => simp [Except.map]

/-- The part of a frame of one session up to a candle. -/
theorem sessionUpTo_eq_take (h : ∀ bar ∈ s.frame, s.start ≤ bar.time) {i : Nat} {bar : WireCandle}
    (hi : s.frame[i]? = some bar) :
    sessionUpTo s.frame s.start bar.time = (s.frame.take (i + 1)).map WireCandle.toFrameBar := by
  have hf : s.frame.filter (fun b => s.start ≤ b.time ∧ b.time ≤ bar.time) = s.frame.filter (fun b => b.time ≤ bar.time) := by
    apply List.filter_congr
    intro b hb
    rw [Bool.decide_and, decide_eq_true (h b hb), Bool.true_and]
  rw [sessionUpTo, hf, Timeline.filter_le_eq_take s.increasing_frame hi]

/-- Without earlier candles the series fits the frame. -/
theorem drawn_of_start_le (h : ∀ bar ∈ s.frame, s.start ≤ bar.time) :
    s.Drawn ↔ ∀ bar ∈ s.frame, totalVolume (sessionUpTo s.frame s.start bar.time) ≠ 0 := by
  have hall : s.frame.filter (s.start ≤ ·.time) = s.frame := by
    rw [List.filter_eq_self]
    intro bar hb
    exact decide_eq_true (h bar hb)
  have hzip : sessionVwap s.frame s.start =
      List.zipWith (fun bar v => (bar.time, v.map fun v => round v 4)) s.frame (seriesOf s.frame) := by
    apply List.ext_getElem?
    intro i
    rw [sessionVwap, List.getElem?_map, List.getElem?_zipWith]
    by_cases hi : i < s.frame.length
    · have hbar := List.getElem?_eq_getElem hi
      have hle := not_lt.mpr (h _ (List.mem_of_getElem? hbar))
      rw [hbar, getElem?_seriesOf hi, Option.map_some, if_neg hle, s.sessionUpTo_eq_take h hbar]
    · rw [List.getElem?_eq_none (not_lt.mp hi)]
      rfl
  rw [drawn_iff_points, hall, points_eq_ok_iff (length_seriesOf _), ← hzip, and_iff_left rfl]
  constructor
  · intro hv bar hb
    obtain ⟨i, hi⟩ := List.getElem?_of_mem hb
    have hlt := (List.getElem?_eq_some_iff.mp hi).1
    rw [s.sessionUpTo_eq_take h hi, ← vwapOf_isSome]
    exact hv _ (List.mem_of_getElem? (getElem?_seriesOf hlt))
  · intro hvol v hv
    obtain ⟨i, hi⟩ := List.getElem?_of_mem hv
    have hlt := (List.getElem?_eq_some_iff.mp hi).1
    rw [length_seriesOf] at hlt
    rw [getElem?_seriesOf hlt] at hi
    have hbar := List.getElem?_eq_getElem hlt
    rw [← Option.some.inj hi, vwapOf_isSome, ← s.sessionUpTo_eq_take h hbar]
    exact hvol _ (List.mem_of_getElem? hbar)

/-- The first candle has a value, whatever session it is of. -/
theorem start_le_of_drawn (h : s.Drawn) : ∀ bar ∈ s.frame, s.start ≤ bar.time := by
  rw [drawn_iff_points] at h
  cases hf : s.frame with
  | nil => exact nofun
  | cons first rest =>
    have hfirst : s.start ≤ first.time := by
      by_contra hlt
      have hlen : 0 < (seriesOf (s.frame.filter (s.start ≤ ·.time))).length := by
        rw [length_seriesOf]
        exact List.length_pos_iff.mpr s.session_ne_nil
      obtain ⟨v, ser, hser⟩ := List.exists_cons_of_length_pos hlen
      rw [hser, hf] at h
      cases v with
      | none => cases h
      | some v =>
        obtain ⟨rest', -, hout⟩ := (points_cons_eq_ok _ _ _ _ _).mp h
        rw [sessionVwap, List.map_cons, if_pos (not_le.mp hlt)] at hout
        cases (Prod.mk.inj (List.cons.inj hout).1).2
    intro bar hb
    rcases List.mem_cons.mp hb with rfl | hb
    · exact hfirst
    · have hinc := s.increasing_frame
      rw [hf] at hinc
      exact hfirst.trans ((List.pairwise_cons.mp hinc).1 bar hb).le

/-- The overlay is aligned with its candles exactly if the frame has one session, with volume at every candle. -/
theorem drawn_iff : s.Drawn ↔ s.OneSession := by
  constructor
  · intro h
    have hstart := s.start_le_of_drawn h
    exact fun bar hb => ⟨hstart bar hb, (s.drawn_of_start_le hstart).mp h bar hb⟩
  · intro h
    exact (s.drawn_of_start_le fun bar hb => (h bar hb).1).mpr fun bar hb => (h bar hb).2

end InSession

private def priced (time : Int) (price : Rat) : WireCandle :=
  { time, open_ := price, high := price, low := price, close := price, volume := 10 }

private def overnight : InSession "NFO" where
  candles := [priced 1786615140 100, priced 1786679100 120]
  last := priced 1786679100 120
  isLast := by decide +kernel
  opened := by decide +kernel

/-- The candle of the day before has the VWAP of the session, and the session's own candle has none. -/
theorem overnight_not_drawn : ¬ ∀ exchange (s : InSession exchange), s.Drawn := by
  intro h
  have hstart := (overnight.start_le_of_drawn (h "NFO" overnight)) (priced 1786615140 100)
  revert hstart
  decide +kernel

end NTrade.Analytics
