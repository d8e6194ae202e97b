import NTrade.Domain.HalfTrend
import NTrade.Execution.Costs

/-! The HalfTrend strategy and the chart's overlay of it. The strategy runs the indicator over the
candles it has seen at each close, the overlay runs it once over all of them. -/
namespace NTrade.Engines
open NTrade.Domain NTrade.Execution NTrade.Lib

inductive SignalSide where
  | buy
  | sell
  deriving DecidableEq, Repr

structure HalfTrendSignal where
  side : SignalSide
  price : Rat
  ht : Option Rat
  deriving DecidableEq, Repr

structure HalfTrendStrategy where
  symbol : Option String := none
  amplitude : Int := 2
  channelDeviation : Int := 2
  atrPeriod : Int := 100
  lotSize : Int := 1
  ht : List (Option Rat) := []
  trend : List Int := []
  buy : List Bool := []
  sell : List Bool := []
  buf : List Ohlcv := []

structure Emission where
  symbol : String
  exchange : String
  side : SignalSide
  quantity : Int
  price : Rat
  referencePrice : Rat
  orderType : String
  ht : Option Rat
  deriving DecidableEq, Repr

namespace HalfTrendStrategy

def bind (df : List Ohlcv) (s : HalfTrendStrategy) : Except HalfTrendError HalfTrendStrategy := do
  let out ← halftrend df s.amplitude s.channelDeviation s.atrPeriod
  return { s with
    ht := out.map (·.ht)
    trend := out.map (·.trend)
    buy := out.map (·.buySignal)
    sell := out.map (·.sellSignal) }

def latestSignal (close : Rat) (s : HalfTrendStrategy) : Option HalfTrendSignal :=
  if (s.buy.length : Int) < s.atrPeriod then none
  else if s.buy = [] ∨ s.sell = [] then none
  else
    let idx := s.buy.length - 1
    if s.buy.getD idx false then some ⟨.buy, close, s.ht.getD idx none⟩
    else if s.sell.getD idx false then some ⟨.sell, close, s.ht.getD idx none⟩
    else none

/-- The candles that are not skipped: those of the strategy's symbol, a minute each. -/
def takes (s : HalfTrendStrategy) (e : CandleClosedEvent) : Bool :=
  (s.symbol = none ∨ s.symbol = some e.symbol) ∧ e.timeframe = "1m"

def onCandleClosed (e : CandleClosedEvent) (s : HalfTrendStrategy) :
    HalfTrendStrategy × Except HalfTrendError (Option Emission) :=
  if s.takes e then
    let s := { s with buf := s.buf ++ [e.toOhlcv] }
    match s.bind s.buf with
    | .error err => (s, .error err)
    | .ok s => (s, .ok ((s.latestSignal e.close).map fun sig =>
        { symbol := e.symbol, exchange := e.exchange, side := sig.side, quantity := s.lotSize, price := e.close,
          referencePrice := e.close, orderType := "MARKET", ht := sig.ht }))
  else (s, .ok none)

def detection : Except HalfTrendError (Option Emission) → Option SignalSide
  | .ok (some e) => some e.side
  | _ => none

def detected : HalfTrendStrategy → List CandleClosedEvent → List (Nat × SignalSide)
  | _, [] => []
  | s, e :: events =>
    let r := s.onCandleClosed e
    (detection r.2).toList.map (fun side => (r.1.buf.length - 1, side)) ++ detected r.1 events

end HalfTrendStrategy

section Overlay

structure ChartBar extends Ohlcv where
  time : Int
  deriving DecidableEq, Repr

structure Marker where
  index : Nat
  time : Int
  side : SignalSide
  price : Rat
  ht : Option Rat
  trend : Int
  deriving DecidableEq, Repr

structure Overlay where
  markers : List Marker
  ht : List (Option Rat)
  trend : List Int
  atrHigh : List (Option Rat)
  atrLow : List (Option Rat)
  deriving DecidableEq, Repr

/-- The side of a row with a signal; a buy comes first. -/
def sideOf (row : HalfTrendRow) : Option SignalSide :=
  if row.buySignal then some .buy else if row.sellSignal then some .sell else none

/-- The markers of a result; trend flips before the period are on uninitialized state. -/
def markers (df : List ChartBar) (out : List HalfTrendRow) (atrPeriod : Nat) : List Marker :=
  ((df.zip out).zipIdx.drop atrPeriod).filterMap fun r =>
    (sideOf r.1.2).map fun side =>
      { index := r.2, time := r.1.1.time, side, price := round r.1.1.close 4, ht := r.1.2.ht.map (round · 4),
        trend := r.1.2.trend }

def buildHalftrendOverlay (df : List ChartBar) (params : Dict String Int) : Except HalfTrendError (Option Overlay) :=
  if df = [] then .ok none
  else do
    let out ← halftrend (df.map (·.toOhlcv)) (params.getD "amplitude" 2) (params.getD "channel_deviation" 2)
      (params.getD "atr_period" 100)
    return some {
      markers := markers df out (params.getD "atr_period" 100).toNat
      ht := out.map fun row => row.ht.map (round · 4)
      trend := out.map (·.trend)
      atrHigh := out.map fun row => row.atrHigh.map (round · 4)
      atrLow := out.map fun row => row.atrLow.map (round · 4) }

def Overlay.signals (o : Overlay) : List (Nat × SignalSide) := o.markers.map fun m => (m.index, m.side)

end Overlay

section Signals
variable (amplitude channelDeviation atrPeriod : Int)

def signalAt (df : List Ohlcv) (i : Nat) : Option SignalSide :=
  sideOf (rowAt df amplitude.toNat channelDeviation atrPeriod.toNat i)

theorem signalAt_take {n i : Nat} (hi : i < n) (df : List Ohlcv) :
    signalAt amplitude channelDeviation atrPeriod (df.take n) i = signalAt amplitude channelDeviation atrPeriod df i := by
  rw [signalAt, rowAt_take _ _ _ hi, signalAt]

theorem sideOf_isSome (row : HalfTrendRow) : (sideOf row).isSome ↔ row.buySignal = true ∨ row.sellSignal = true := by
  rw [sideOf]
  cases row.buySignal <;> cases row.sellSignal <;> simp

variable {amplitude channelDeviation atrPeriod}

private theorem mem_markers (df : List ChartBar) (out : List HalfTrendRow) (n i : Nat) (side : SignalSide) :
    (i, side) ∈ (markers df out n).map (fun m => (m.index, m.side)) ↔
      n ≤ i ∧ i < df.length ∧ ∃ row, out[i]? = some row ∧ sideOf row = some side := by
  have hmem (r : (ChartBar × HalfTrendRow) × Nat) : r ∈ (df.zip out).zipIdx.drop n ↔
      n ≤ r.2 ∧ df[r.2]? = some r.1.1 ∧ out[r.2]? = some r.1.2 := by
    rw [List.mem_iff_getElem?]
    simp only [List.getElem?_drop, List.getElem?_zipIdx, List.getElem?_zip_eq_some, Option.map_eq_some_iff]
    constructor
    · rintro ⟨j, p, ⟨h1, h2⟩, rfl⟩
      rw [Nat.zero_add]
      exact ⟨Nat.le_add_right _ _, h1, h2⟩
    · rintro ⟨hn, h1, h2⟩
      refine ⟨r.2 - n, r.1, ?_, ?_⟩
      · rw [Nat.add_sub_cancel' hn]
        exact ⟨h1, h2⟩
      · rw [Nat.add_sub_cancel' hn, Nat.zero_add]
  simp only [markers, List.mem_map, List.mem_filterMap, hmem, Option.map_eq_some_iff]
  constructor
  · rintro ⟨m, ⟨r, ⟨hn, h1, h2⟩, side', hs, rfl⟩, he⟩
    obtain ⟨rfl, rfl⟩ := Prod.mk.inj he
    exact ⟨hn, (List.getElem?_eq_some_iff.mp h1).1, _, h2, hs⟩
  · rintro ⟨hn, hlt, row, hrow, hs⟩
    exact ⟨_, ⟨((df[i], row), i), ⟨hn, List.getElem?_eq_getElem hlt, hrow⟩, side, hs, rfl⟩, rfl⟩

/-- The overlay marks the signals from the index `atr_period` on. -/
theorem mem_signals_iff {df : List ChartBar} {params : Dict String Int}
    (ha : params.getD "amplitude" 2 = amplitude) (hc : params.getD "channel_deviation" 2 = channelDeviation)
    (hp : params.getD "atr_period" 100 = atrPeriod) (i : Nat) (side : SignalSide) :
    (∃ o, buildHalftrendOverlay df params = .ok (some o) ∧ (i, side) ∈ o.signals) ↔
      Accepted amplitude atrPeriod ∧ i < df.length ∧ atrPeriod ≤ i ∧
        signalAt amplitude channelDeviation atrPeriod (df.map (·.toOhlcv)) i = some side := by
  rw [buildHalftrendOverlay, ha, hc, hp]
  by_cases hdf : df = []
  · rw [if_pos hdf, hdf]
    simp
  rw [if_neg hdf]
  by_cases hacc : Accepted amplitude atrPeriod
  · have hrow (row : HalfTrendRow) : ((List.range (df.map (·.toOhlcv)).length).map
        (rowAt (df.map (·.toOhlcv)) amplitude.toNat channelDeviation atrPeriod.toNat))[i]? = some row ↔
          i < df.length ∧ rowAt (df.map (·.toOhlcv)) amplitude.toNat channelDeviation atrPeriod.toNat i = row := by
      by_cases hi : i < df.length <;> simp [hi]
    rw [halftrend_accepted hacc]
    constructor
    · rintro ⟨o, ho, hm⟩
      obtain rfl := Option.some.inj (Except.ok.inj ho)
      obtain ⟨hn, hi, row, hr, hs⟩ := (mem_markers _ _ _ _ _).mp hm
      rw [← ((hrow row).mp hr).2] at hs
      exact ⟨hacc, hi, by omega, hs⟩
    · rintro ⟨-, hi, hn, hs⟩
      exact ⟨_, rfl, (mem_markers _ _ _ _ _).mpr ⟨by omega, hi, _, (hrow _).mpr ⟨hi, rfl⟩, hs⟩⟩
  · have hne : df.map (·.toOhlcv) ≠ [] := by simpa using hdf
    obtain ⟨err, herr⟩ := halftrend_not_accepted hacc hne
    rw [herr]
    constructor
    · rintro ⟨o, ho, -⟩
      cases ho
    · rintro ⟨h, -⟩
      exact absurd h hacc

namespace HalfTrendStrategy

private theorem latestSignal_side {s : HalfTrendStrategy} {n : Nat} {row : Nat → HalfTrendRow}
    (hb : s.buy = ((List.range (n + 1)).map row).map (·.buySignal))
    (hs : s.sell = ((List.range (n + 1)).map row).map (·.sellSignal)) (close : Rat) :
    (s.latestSignal close).map (·.side) = if s.atrPeriod ≤ n + 1 then sideOf (row n) else none := by
  have hlen : s.buy.length = n + 1 := by rw [hb, List.length_map, List.length_map, List.length_range]
  have hbn : s.buy.getD n false = (row n).buySignal := by simp [hb]
  have hsn : s.sell.getD n false = (row n).sellSignal := by simp [hs]
  have hne : ¬(s.buy = [] ∨ s.sell = []) := by
    rw [hb, hs]
    simp
  rw [latestSignal, hlen, if_neg hne]
  simp only [Nat.add_sub_cancel, hbn, hsn, sideOf]
  by_cases hp : s.atrPeriod ≤ n + 1
  · rw [if_neg (by push_cast; omega), if_pos hp]
    cases (row n).buySignal <;> cases (row n).sellSignal <;> rfl
  · rw [if_pos (by push_cast; omega), if_neg hp]
    rfl

private theorem detection_map (sig : Option HalfTrendSignal) (f : HalfTrendSignal → Emission)
    (hf : ∀ x, (f x).side = x.side) : detection (.ok (sig.map f)) = sig.map (·.side) := by
  cases sig with
  | none => rfl
  | some x => exact congrArg some (hf x)

/-- A candle that is taken is looked at as the last bar of those so far. -/
private theorem onCandleClosed_spec {s : HalfTrendStrategy} {e : CandleClosedEvent} (h : s.takes e = true) :
    (s.onCandleClosed e).1.buf = s.buf ++ [e.toOhlcv] ∧
    ((s.onCandleClosed e).1.symbol = s.symbol ∧ (s.onCandleClosed e).1.amplitude = s.amplitude ∧
      (s.onCandleClosed e).1.channelDeviation = s.channelDeviation ∧ (s.onCandleClosed e).1.atrPeriod = s.atrPeriod) ∧
    detection (s.onCandleClosed e).2 =
      if Accepted s.amplitude s.atrPeriod ∧ s.atrPeriod ≤ s.buf.length + 1 then
        signalAt s.amplitude s.channelDeviation s.atrPeriod (s.buf ++ [e.toOhlcv]) s.buf.length
      else none := by
  rw [onCandleClosed, if_pos h]
  by_cases hacc : Accepted s.amplitude s.atrPeriod
  · simp only [bind, halftrend_accepted hacc]
    refine ⟨rfl, ⟨rfl, rfl, rfl, rfl⟩, ?_⟩
    refine (detection_map _ _ fun _ => rfl).trans ?_
    have hlen : (s.buf ++ [e.toOhlcv]).length = s.buf.length + 1 := List.length_append
    rw [latestSignal_side (by rw [← hlen]) (by rw [← hlen])]
    by_cases hp : s.atrPeriod ≤ s.buf.length + 1
    · rw [if_pos hp, if_pos ⟨hacc, hp⟩]
      rfl
    · rw [if_neg hp, if_neg fun hc => hp hc.2]
  · have hne : s.buf ++ [e.toOhlcv] ≠ [] := by simp
    obtain ⟨err, herr⟩ : ∃ err, halftrend (s.buf ++ [e.toOhlcv]) s.amplitude s.channelDeviation s.atrPeriod = .error err :=
      halftrend_not_accepted hacc hne
    simp only [bind, herr]
    refine ⟨rfl, ⟨rfl, rfl, rfl, rfl⟩, ?_⟩
    rw [if_neg fun hc => hacc hc.1]
    rfl

def frame (s : HalfTrendStrategy) (events : List CandleClosedEvent) : List Ohlcv :=
  s.buf ++ (events.filter s.takes).map (·.toOhlcv)

/-- The strategy detects the signals of the whole frame from the index `atr_period - 1` on. -/
theorem mem_detected_iff (s : HalfTrendStrategy) (events : List CandleClosedEvent) (i : Nat) (side : SignalSide) :
    (i, side) ∈ s.detected events ↔
      Accepted s.amplitude s.atrPeriod ∧ (s.buf.length ≤ i ∧ i < (s.frame events).length) ∧ s.atrPeriod ≤ i + 1 ∧
        signalAt s.amplitude s.channelDeviation s.atrPeriod (s.frame events) i = some side := by
  induction events generalizing s with
  | nil =>
    simp only [detected, List.not_mem_nil, frame, List.filter_nil, List.map_nil, List.append_nil, false_iff]
    omega
  | cons e events ih =>
    rw [detected, List.mem_append, ih]
    cases ht : s.takes e with
    | false =>
      have hstay : s.onCandleClosed e = (s, .ok none) := by rw [onCandleClosed, if_neg (by rw [ht]; decide)]
      rw [hstay, frame, frame, List.filter_cons, ht]
      simp [detection]
    | true =>
      obtain ⟨hbuf, ⟨hsym, hamp, hdev, hper⟩, hdet⟩ := onCandleClosed_spec ht
      have htakes : (s.onCandleClosed e).1.takes = s.takes := by
        funext e'
        rw [takes, takes, hsym]
      have hframe : (s.onCandleClosed e).1.frame events = s.frame (e :: events) := by
        rw [frame, frame, hbuf, htakes, List.filter_cons, ht, List.append_assoc]
        rfl
      have hlen : s.buf.length < (s.frame (e :: events)).length := by
        rw [← hframe, frame, hbuf]
        simp
      have htake : s.buf ++ [e.toOhlcv] = (s.frame (e :: events)).take (s.buf.length + 1) := by
        rw [← hframe, frame, hbuf, List.take_left' (by simp)]
      rw [hframe, hamp, hdev, hper, hdet, hbuf, htake, signalAt_take _ _ _ (Nat.lt_succ_self _), ← htake]
      have hb : (s.buf ++ [e.toOhlcv]).length = s.buf.length + 1 := by simp
      rw [hb, Nat.add_sub_cancel]
      simp only [List.mem_map, Option.mem_toList, Prod.mk.injEq]
      constructor
      · rintro (⟨side', hs, rfl, rfl⟩ | ⟨hacc, ⟨hle, hlt⟩, hp, hs⟩)
        · split at hs
          · next hc => exact ⟨hc.1, ⟨le_rfl, hlen⟩, hc.2, hs⟩
          · cases hs
        · exact ⟨hacc, ⟨by omega, hlt⟩, hp, hs⟩
      · rintro ⟨hacc, ⟨hle, hlt⟩, hp, hs⟩
        rcases Nat.eq_or_lt_of_le hle with rfl | hgt
        · exact .inl ⟨side, by rw [if_pos ⟨hacc, hp⟩]; exact hs, rfl, rfl⟩
        · exact .inr ⟨hacc, ⟨hgt, hlt⟩, hp, hs⟩

end HalfTrendStrategy

end Signals

def halftrendStrategy (symbol : Option String) (lotSize amplitude channelDeviation atrPeriod : Int) : HalfTrendStrategy :=
  { symbol, lotSize, amplitude, channelDeviation, atrPeriod }

def halftrendParams (amplitude channelDeviation atrPeriod : Int) : Dict String Int where
  entries := [("amplitude", amplitude), ("channel_deviation", channelDeviation), ("atr_period", atrPeriod)]
  nodup := by simp

def chartFrame (s : HalfTrendStrategy) (events : List CandleClosedEvent) : List ChartBar :=
  (events.filter s.takes).map fun e => { e.toOhlcv with time := e.ts }

/-- The trend turns at the bar with which the period of the range is full: the index `atr_period - 1`. -/
def TurnsAtGate (amplitude channelDeviation atrPeriod : Int) (df : List Ohlcv) : Prop :=
  Accepted amplitude atrPeriod ∧ atrPeriod ≤ df.length ∧
    turnsAt df amplitude.toNat channelDeviation atrPeriod.toNat (atrPeriod.toNat - 1) = true

instance (amplitude channelDeviation atrPeriod : Int) (df : List Ohlcv) :
    Decidable (TurnsAtGate amplitude channelDeviation atrPeriod df) := inferInstanceAs (Decidable (_ ∧ _ ∧ _))

/-- The strategy and the overlay have the same signals exactly if the trend does not turn at the first
bar that the one trades and the other leaves out. -/
theorem overlay_agrees_iff (symbol : Option String) (lotSize amplitude channelDeviation atrPeriod : Int)
    (events : List CandleClosedEvent) :
    (∀ i side,
      (i, side) ∈ (halftrendStrategy symbol lotSize amplitude channelDeviation atrPeriod).detected events ↔
        ∃ o, buildHalftrendOverlay
            (chartFrame (halftrendStrategy symbol lotSize amplitude channelDeviation atrPeriod) events)
            (halftrendParams amplitude channelDeviation atrPeriod) = .ok (some o) ∧ (i, side) ∈ o.signals) ↔
      ¬TurnsAtGate amplitude channelDeviation atrPeriod
        ((halftrendStrategy symbol lotSize amplitude channelDeviation atrPeriod).frame events) := by
  generalize hs : halftrendStrategy symbol lotSize amplitude channelDeviation atrPeriod = s
  have hchart : (chartFrame s events).map (·.toOhlcv) = s.frame events := by
    rw [chartFrame, HalfTrendStrategy.frame, ← hs, List.map_map]
    rfl
  have hlen : (chartFrame s events).length = (s.frame events).length := by rw [← hchart, List.length_map]
  have hdet (i : Nat) (side : SignalSide) : (i, side) ∈ s.detected events ↔ Accepted amplitude atrPeriod ∧
      i < (s.frame events).length ∧ atrPeriod ≤ i + 1 ∧
        signalAt amplitude channelDeviation atrPeriod (s.frame events) i = some side := by
    rw [s.mem_detected_iff, ← hs]
    simp [halftrendStrategy]
  have hmark (i : Nat) (side : SignalSide) :
      (∃ o, buildHalftrendOverlay (chartFrame s events) (halftrendParams amplitude channelDeviation atrPeriod) = .ok (some o) ∧
        (i, side) ∈ o.signals) ↔ Accepted amplitude atrPeriod ∧ i < (s.frame events).length ∧ atrPeriod ≤ i ∧
          signalAt amplitude channelDeviation atrPeriod (s.frame events) i = some side := by
    rw [mem_signals_iff rfl rfl rfl, hlen, hchart]
    exact Iff.rfl
  simp only [hmark, hdet]
  generalize s.frame events = df
  -- the bar at the gate is the only one they can differ on
  have hgate (hacc : Accepted amplitude atrPeriod) (hlt : atrPeriod ≤ df.length) :
      (signalAt amplitude channelDeviation atrPeriod df (atrPeriod.toNat - 1)).isSome ↔
        turnsAt df amplitude.toNat channelDeviation atrPeriod.toNat (atrPeriod.toNat - 1) = true := by
    have h0 := hacc.1
    rw [signalAt, sideOf_isSome, rowAt_signal_iff _ _ _ _ (by omega) (by omega)]
  constructor
  · rintro hall ⟨hacc, hlt, hturn⟩
    obtain ⟨side, hside⟩ := Option.isSome_iff_exists.mp ((hgate hacc hlt).mpr hturn)
    have h0 := hacc.1
    have hm := (hall (atrPeriod.toNat - 1) side).mp ⟨hacc, by omega, by omega, hside⟩
    have := hm.2.2.1
    omega
  · intro hno i side
    constructor
    · rintro ⟨hacc, hi, hp, hside⟩
      refine ⟨hacc, hi, ?_, hside⟩
      by_contra hlt
      have h0 := hacc.1
      obtain rfl : i = atrPeriod.toNat - 1 := by omega
      refine hno ⟨hacc, by omega, (hgate hacc (by omega)).mp ?_⟩
      rw [hside]
      rfl
    · rintro ⟨hacc, hi, hp, hside⟩
      exact ⟨hacc, hi, by omega, hside⟩

/-- Three candles with a period of three: the trend turns down at the last one, where only the strategy sells. -/
def turning : List CandleClosedEvent :=
  [(10, 9, (19 / 2 : Rat)), (20, 15, 18), (12, 11, 23 / 2)].zipIdx.map fun ((high, low, close), i) =>
    { open_ := close, high, low, close, volume := 1, symbol := "NIFTY", exchange := "NSE", timeframe := "1m", ts := 60 * i }

theorem sells_off_the_chart :
    (halftrendStrategy none 1 1 2 3).detected turning = [(2, .sell)] ∧
      (buildHalftrendOverlay (chartFrame (halftrendStrategy none 1 1 2 3) turning) (halftrendParams 1 2 3)).map
        (fun o => o.map Overlay.signals) = .ok (some []) := by
  decide +kernel

end NTrade.Engines
