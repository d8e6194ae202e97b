import NTrade.Lib.Newest
import NTrade.Lib.Grouping
import NTrade.Data.FilteredReads

/-! The candles that the chart is given for a window of time, from the history of the broker and from the store. Each
provider cuts its rows to the window in its own way, and to the limit of the request, before the service does. -/
namespace NTrade.Api.MarketData
open NTrade.Domain NTrade.Data NTrade.Lib NTrade.Lib.Newest

/-- A time of a request: the instant, and the offset that it is written with, in seconds. -/
structure Moment where
  micros : Int
  offset : Int
  deriving DecidableEq, Repr

/-- What a clock with the offset of a moment shows. -/
def Moment.wall (m : Moment) : Int := m.micros + m.offset * MICROS

/-- `strftime("%Y-%m-%d")`, as the number of the day. -/
def Moment.date (m : Moment) : Int := m.wall / DAY

/-- A cell of a frame: nothing, what is not a number, or a number. -/
inductive Figure where
  | missing
  | nan
  | number (x : Rat)
  deriving DecidableEq, Repr

/-- `float(v or 0.0)`; there is `none` for what is not a number. -/
def Figure.float : Figure → Option Rat
  | .missing => some 0
  | .nan => none
  | .number x => some x

/-- A row of history; a timestamp that cannot be read is `none`, and so is a volume that is missing. A volume is never
NaN, of which no candle could be built. -/
structure HistoryRow where
  timestamp : Option Timestamp
  open_ : Figure := .missing
  high : Figure := .missing
  low : Figure := .missing
  close : Figure := .missing
  volume : Option Rat := none
  deriving DecidableEq, Repr

structure Candle where
  time : Int
  open_ : Option Rat
  high : Option Rat
  low : Option Rat
  close : Option Rat
  volume : Int
  deriving DecidableEq, Repr

def candleFromRow (row : HistoryRow) : Option Candle :=
  row.timestamp.map fun ts =>
    { time := ts.epoch, open_ := row.open_.float, high := row.high.float, low := row.low.float, close := row.close.float,
      volume := (row.volume.getD 0).num.tdiv (row.volume.getD 0).den }

/-- `rows[-limit:]` of more rows than the limit. -/
def cut (limit : Option Int) (rows : List Candle) : List Candle :=
  match limit with
  | none => rows
  | some n => if n < rows.length then rows.drop (if 0 < n then rows.length - n else -n).toNat else rows

def normalizeCandles (rows : List HistoryRow) (limit : Option Int) : List Candle :=
  cut limit (Grouping.sortBy Candle.time (keepFirst Candle.time (rows.filterMap candleFromRow)))

def indianWall (time : Int) : Int := (time + IST) * MICROS

def shown (exchange interval : String) (time : Int) : Bool :=
  interval.toLower ∈ DAILY_TIMEFRAMES ∨ indianWall time % DAY < sessionClose exchange

def clampToSession (exchange interval : String) (rows : List Candle) : List Candle :=
  if interval.toLower ∈ DAILY_TIMEFRAMES then rows
  else rows.filter fun c => indianWall c.time % DAY < sessionClose exchange

/-- `DhanMapper.filter_history` of two dates: the rows from the first midnight on, and before that after the last
date. The timestamps of the broker are times of India. -/
def filterHistory (start stop : Int) (rows : List HistoryRow) : List HistoryRow :=
  rows.filter fun row => row.timestamp.any fun ts =>
    start * DAY ≤ ts.micros + IST * MICROS ∧ ts.micros + IST * MICROS < stop * DAY + DAY

abbrev CandleProvider := Moment → Moment → Option Int → Except String (List Candle)

def dhanCandles (reply : Except String (List HistoryRow)) (exchange interval : String) : CandleProvider :=
  fun start stop limit =>
    match reply with
    | .error exc => .error ("Dhan history fetch failed: " ++ exc)
    | .ok rows =>
      .ok (cut limit (clampToSession exchange interval (normalizeCandles (filterHistory start.date stop.date rows) none)))

def historyRow (r : StoredRow) : HistoryRow :=
  let figure (x : Option Rat) : Figure := (x.map Figure.number).getD .nan
  { timestamp := some (.naive r.timestamp), open_ := figure r.open_, high := figure r.high, low := figure r.low,
    close := figure r.close, volume := some r.volume }

/-- `ParquetProvider.candles`; the times of the window are read as they show. -/
def parquetRows (store : ParquetStorage) (symbol interval : String) (start stop : Option Moment) (limit : Option Int) :
    List Candle :=
  normalizeCandles ((store.read (some [symbol]) (start.map Moment.wall) (stop.map Moment.wall)
    (some interval.toLower)).map historyRow) limit

def parquetCandles (store : ParquetStorage) (symbol interval : String) : CandleProvider :=
  fun start stop limit => .ok (parquetRows store symbol interval (some start) (some stop) limit)

def within (start stop : Moment) (time : Int) : Bool := start.micros ≤ time * MICROS ∧ time * MICROS ≤ stop.micros

def candles (provider : CandleProvider) (exchange interval : String) (start stop : Moment) (limit : Option Int) :
    Except String (List Candle) :=
  (provider start stop limit).map fun rows =>
    cut limit (clampToSession exchange interval (rows.filter fun c => within start stop c.time))

section Normalized
variable {limit : Option Int} {exchange interval : String} {rows : List Candle}

theorem cut_of_pos {n : Int} (h : 0 < n) (rows : List Candle) : cut (some n) rows = newest n.toNat rows := by
  rw [cut]
  split_ifs with hlen
  · rw [newest]
    congr 1
    omega
  · rw [newest_of_length_le (by omega)]

theorem clampToSession_eq (exchange interval : String) (rows : List Candle) :
    clampToSession exchange interval rows = rows.filter fun c => shown exchange interval c.time := by
  by_cases h : interval.toLower ∈ DAILY_TIMEFRAMES
  · rw [clampToSession, if_pos h, eq_comm, List.filter_eq_self]
    exact fun c _ => decide_eq_true (Or.inl h)
  · rw [clampToSession, if_neg h]
    congr 1
    funext c
    exact decide_eq_decide.mpr (or_iff_right h).symm

/-- The candles of some rows: each second has one, of the first row of it, and they are in the order of time. -/
structure IsHistory (rows : List HistoryRow) (p : Candle → Bool) (answer : List Candle) : Prop where
  rising : answer.Pairwise fun a b => a.time < b.time
  mem_iff : ∀ c, c ∈ answer ↔ Keyed.lookup Candle.time c.time (rows.filterMap candleFromRow) = some c ∧ p c = true

theorem isHistory_normalize (rows : List HistoryRow) : IsHistory rows (fun _ => true) (normalizeCandles rows none) where
  rising := by
    have hperm := Grouping.perm_sortBy Candle.time (keepFirst Candle.time (rows.filterMap candleFromRow))
    have hnodup := ((hperm.map Candle.time).nodup_iff).mpr (nodup_keepFirst _)
    have hle := Grouping.pairwise_sortBy Candle.time (keepFirst Candle.time (rows.filterMap candleFromRow))
    exact (hle.and (List.pairwise_map.mp hnodup)).imp fun h => lt_of_le_of_ne h.1 h.2
  mem_iff c := by
    rw [normalizeCandles, cut, (Grouping.perm_sortBy _ _).mem_iff, mem_keepFirst]
    exact (and_iff_left rfl).symm

theorem IsHistory.filter {rows : List HistoryRow} {p : Candle → Bool} {answer : List Candle}
    (h : IsHistory rows p answer) (q : Candle → Bool) : IsHistory rows (fun c => p c && q c) (answer.filter q) where
  rising := h.rising.filter q
  mem_iff c := by rw [List.mem_filter, h.mem_iff, Bool.and_eq_true, and_assoc]

end Normalized

section Dhan
variable {exchange interval : String} {start stop : Moment} {rows : List HistoryRow}

def fetched (exchange interval : String) (start stop : Moment) (rows : List HistoryRow) : List Candle :=
  (normalizeCandles (filterHistory start.date stop.date rows) none).filter fun c => shown exchange interval c.time

theorem isHistory_fetched : IsHistory (filterHistory start.date stop.date rows) (fun c => shown exchange interval c.time)
    (fetched exchange interval start stop rows) :=
  (isHistory_normalize _).filter fun c => shown exchange interval c.time

/-- Nothing is left for the service to clamp. -/
private theorem clampToSession_of_subset (start stop : Moment) (rows : List HistoryRow) {l : List Candle}
    (h : ∀ c ∈ l, c ∈ fetched exchange interval start stop rows) :
    clampToSession exchange interval l = l := by
  rw [clampToSession_eq, List.filter_eq_self]
  exact fun c hc => (List.mem_filter.mp (h c hc)).2

theorem candles_dhan : candles (dhanCandles (.ok rows) exchange interval) exchange interval start stop none =
    .ok ((fetched exchange interval start stop rows).filter fun c => within start stop c.time) := by
  have hclamp : clampToSession exchange interval ((fetched exchange interval start stop rows).filter fun c => within start stop c.time) =
      (fetched exchange interval start stop rows).filter fun c => within start stop c.time :=
    clampToSession_of_subset start stop rows fun c hc => (List.mem_filter.mp hc).1
  rw [← hclamp]
  simp only [candles, dhanCandles, Except.map, cut, clampToSession_eq exchange interval (normalizeCandles _ _)]
  rfl

/-- The provider cuts to the limit first: each candle after the window takes the place of one of it. -/
theorem candles_dhan_limit {n : Int} (hn : 0 < n) :
    candles (dhanCandles (.ok rows) exchange interval) exchange interval start stop (some n) =
      .ok (newest (n.toNat - (fetched exchange interval start stop rows).countP fun c => stop.micros < c.time * MICROS)
        ((fetched exchange interval start stop rows).filter fun c => within start stop c.time)) := by
  have hsorted : (fetched exchange interval start stop rows).Pairwise fun a b => a.time * MICROS ≤ b.time * MICROS :=
    isHistory_fetched.rising.imp fun h => Int.mul_le_mul_of_nonneg_right h.le (by decide)
  have hwindow := filter_newest hsorted start.micros stop.micros n.toNat
  have hclamp : clampToSession exchange interval
      ((newest n.toNat (fetched exchange interval start stop rows)).filter fun c => within start stop c.time) =
        (newest n.toNat (fetched exchange interval start stop rows)).filter fun c => within start stop c.time :=
    clampToSession_of_subset start stop rows fun c hc =>
      List.mem_of_mem_drop (List.mem_filter.mp hc).1
  simp only [candles, dhanCandles, Except.map, cut_of_pos hn]
  rw [clampToSession_eq exchange interval (normalizeCandles _ _), ← fetched, hclamp, newest_of_length_le]
  · exact congrArg Except.ok hwindow
  · refine (List.length_filter_le _ _).trans ?_
    rw [length_newest]
    exact Nat.min_le_left _ _

/-- Of the rows on the dates of a window the answer has the first candle of each second of the window that is shown, in
order, and a limited one is short of the newest of these exactly if the reply goes on after them on those dates and the
limit is not above both. -/
theorem dhan_limit_iff {n : Int} (hn : 0 < n) (exchange interval : String) (start stop : Moment) (rows : List HistoryRow) :
    ∃ all, candles (dhanCandles (.ok rows) exchange interval) exchange interval start stop none = .ok all ∧
      IsHistory (filterHistory start.date stop.date rows)
        (fun c => shown exchange interval c.time && within start stop c.time) all ∧
      let late := (fetched exchange interval start stop rows).countP fun c => stop.micros < c.time * MICROS
      candles (dhanCandles (.ok rows) exchange interval) exchange interval start stop (some n) =
          .ok (newest (n.toNat - late) all) ∧
        (candles (dhanCandles (.ok rows) exchange interval) exchange interval start stop (some n) =
          .ok (newest n.toNat all) ↔ late = 0 ∨ late + all.length ≤ n ∨ all = []) := by
  refine ⟨_, candles_dhan, isHistory_fetched.filter fun c => within start stop c.time, candles_dhan_limit hn, ?_⟩
  rw [candles_dhan_limit hn, Except.ok.injEq, newest_eq_newest_iff, ← List.length_eq_zero_iff]
  omega

private def threeBars : List HistoryRow :=
  [1785731400, 1785731460, 1785731520].map fun time => { timestamp := some (.aware (time * MICROS)) }

private def ten : Moment := ⟨1785731400 * MICROS, IST⟩

private def oneMinuteLater : Moment := ⟨1785731460 * MICROS, IST⟩

/-- Of the two bars up to 10:01 the newest one is asked for, and that of 10:02 takes its place. -/
theorem dhan_limit_iff_paged : ∃ all : List Candle, all.length = 2 ∧
    candles (dhanCandles (.ok threeBars) "NFO" "1m") "NFO" "1m" ten oneMinuteLater none = .ok all ∧
      candles (dhanCandles (.ok threeBars) "NFO" "1m") "NFO" "1m" ten oneMinuteLater (some 1) = .ok [] := by
  obtain ⟨all, hall, -, hlimited, -⟩ := dhan_limit_iff (by decide : (0 : Int) < 1) "NFO" "1m" ten oneMinuteLater threeBars
  have hlate : ((fetched "NFO" "1m" ten oneMinuteLater threeBars).countP fun c => oneMinuteLater.micros < c.time * MICROS) = 1 :=
    by decide +kernel
  have hlength : ((fetched "NFO" "1m" ten oneMinuteLater threeBars).filter fun c => within ten oneMinuteLater c.time).length = 2 :=
    by decide +kernel
  rw [candles_dhan, Except.ok.injEq] at hall
  rw [hall] at hlength
  refine ⟨all, hlength, hall ▸ candles_dhan, hlimited.trans ?_⟩
  rw [hlate]
  exact congrArg Except.ok (List.drop_eq_nil_of_le (by rw [hlength]; decide))

end Dhan

section Windows
variable {exchange interval : String} {start stop : Moment}

def Moment.firstSecond (m : Moment) : Int := -(-m.micros / MICROS)

def Moment.lastSecond (m : Moment) : Int := m.micros / MICROS

def Answered (answer : Except String (List Candle)) (time : Int) : Prop :=
  ∃ all, answer = .ok all ∧ time ∈ all.map Candle.time

theorem within_iff {time : Int} : within start stop time = true ↔ start.firstSecond ≤ time ∧ time ≤ stop.lastSecond := by
  have hfirst := Int.le_ediv_iff_mul_le (a := -time) (b := -start.micros) (by decide : 0 < MICROS)
  rw [Int.neg_mul, neg_le_neg_iff] at hfirst
  rw [within, decide_eq_true_iff, Moment.firstSecond, Moment.lastSecond, Int.le_ediv_iff_mul_le (by decide), ← hfirst,
    neg_le]

/-- The seconds of an answer are those of the rows. -/
theorem IsHistory.mem_times {rows : List HistoryRow} {q : Int → Bool} {answer : List Candle}
    (h : IsHistory rows (fun c => q c.time) answer) (time : Int) : time ∈ answer.map Candle.time ↔
      (∃ row ∈ rows, row.timestamp.map Timestamp.epoch = some time) ∧ q time = true := by
  have htimes : (∃ row ∈ rows, row.timestamp.map Timestamp.epoch = some time) ↔
      time ∈ (rows.filterMap candleFromRow).map Candle.time := by
    rw [List.map_filterMap, List.mem_filterMap]
    refine exists_congr fun row => and_congr_right fun _ => ?_
    rw [candleFromRow, Option.map_map]
    rfl
  rw [htimes, List.mem_map]
  constructor
  · rintro ⟨c, hc, rfl⟩
    obtain ⟨hl, hq⟩ := (h.mem_iff c).mp hc
    exact ⟨List.mem_map_of_mem (Keyed.lookup_some hl).1, hq⟩
  · rintro ⟨hm, hq⟩
    cases hl : Keyed.lookup Candle.time time (rows.filterMap candleFromRow) with
    | none => exact absurd hm (Keyed.lookup_eq_none.mp hl)
    | some c =>
      obtain rfl := (Keyed.lookup_some hl).2
      exact ⟨c, (h.mem_iff c).mpr ⟨hl, hq⟩, rfl⟩

theorem answered_iff {rows : List HistoryRow} {q : Int → Bool} {answer : List Candle}
    (h : IsHistory rows (fun c => q c.time) answer) (time : Int) : Answered (.ok answer) time ↔
      (∃ row ∈ rows, row.timestamp.map Timestamp.epoch = some time) ∧ q time = true := by
  rw [← h.mem_times]
  constructor
  · rintro ⟨all, he, hm⟩
    exact Except.ok.inj he ▸ hm
  · exact fun hm => ⟨answer, rfl, hm⟩

private theorem epoch_of_micros {ts : Timestamp} {time : Int} (h : ts.micros = time * MICROS) : ts.epoch = time := by
  rw [Timestamp.epoch, h, Int.mul_tdiv_cancel _ (by decide)]

theorem answered_dhan {rows : List HistoryRow} (time : Int) :
    Answered (candles (dhanCandles (.ok rows) exchange interval) exchange interval start stop none) time ↔
      (∃ row ∈ filterHistory start.date stop.date rows, row.timestamp.map Timestamp.epoch = some time) ∧
        (shown exchange interval time && within start stop time) = true := by
  rw [candles_dhan]
  exact answered_iff (q := fun t => shown exchange interval t && within start stop t)
    (isHistory_fetched.filter fun c => within start stop c.time) time

/-- In a window whose first and last second are shown, every bar that is shown is answered, whatever the broker replies,
exactly if the dates of the window, with the offsets that they are written with, cover its days in India. -/
theorem dhan_window_iff (hle : start.firstSecond ≤ stop.lastSecond)
    (hs : shown exchange interval start.firstSecond = true) (he : shown exchange interval stop.lastSecond = true) :
    (∀ rows, ∀ row ∈ rows, ∀ (ts : Timestamp) (time : Int), row.timestamp = some ts → ts.micros = time * MICROS →
        within start stop time = true → shown exchange interval time = true →
        Answered (candles (dhanCandles (.ok rows) exchange interval) exchange interval start stop none) time) ↔
      start.date ≤ indianWall start.firstSecond / DAY ∧ indianWall stop.lastSecond / DAY ≤ stop.date := by
  constructor
  · intro h
    have hrow {time : Int} (hw : within start stop time = true) (ht : shown exchange interval time = true) :
        start.date * DAY ≤ indianWall time ∧ indianWall time < stop.date * DAY + DAY := by
      have hone := h [{ timestamp := some (.aware (time * MICROS)) }] _ (List.mem_singleton_self _) _ time rfl rfl hw ht
      obtain ⟨⟨row, hrow, -⟩, -⟩ := (answered_dhan time).mp hone
      obtain ⟨hmem, hday⟩ := List.mem_filter.mp hrow
      obtain rfl := List.mem_singleton.mp hmem
      have hwall : Timestamp.micros (.aware (time * MICROS)) + IST * MICROS = indianWall time := (add_mul _ _ _).symm
      rw [← hwall]
      exact of_decide_eq_true hday
    have hfirst := hrow (within_iff.mpr ⟨le_refl _, hle⟩) hs
    have hlast := hrow (within_iff.mpr ⟨hle, le_refl _⟩) he
    exact ⟨(Int.le_ediv_iff_mul_le (by decide)).mpr hfirst.1,
      Int.lt_add_one_iff.mp ((Int.ediv_lt_iff_lt_mul (by decide)).mpr (by rw [add_mul, one_mul]; exact hlast.2))⟩
  · rintro ⟨hfirst, hlast⟩ rows row hrow ts time hts ht hw hshown
    rw [answered_dhan]
    refine ⟨⟨row, List.mem_filter.mpr ⟨hrow, ?_⟩, ?_⟩, ?_⟩
    · obtain ⟨h1, h2⟩ := within_iff.mp hw
      have h3 := (Int.le_ediv_iff_mul_le (by decide)).mp hfirst
      have h4 := (Int.ediv_lt_iff_lt_mul (by decide)).mp (Int.lt_add_one_iff.mpr hlast)
      simp only [indianWall, DAY, MICROS, IST] at h3 h4
      simp only [hts, Option.any_some, ht, decide_eq_true_eq, DAY, MICROS, IST]
      omega
    · rw [hts, Option.map_some, epoch_of_micros ht]
    · rw [hw, hshown, Bool.and_self]

/-- A window from two o'clock in Tokyo on 4 August 2026, when it is half past ten in India on the day before and the
commodities trade, loses bars. -/
theorem dhan_window_iff_tokyo :
    ¬ ∀ rows, ∀ row ∈ rows, ∀ (ts : Timestamp) (time : Int), row.timestamp = some ts → ts.micros = time * MICROS →
      within ⟨1785776400 * MICROS, 32400⟩ ⟨1785830400 * MICROS, IST⟩ time = true → shown "MCX" "1m" time = true →
      Answered (candles (dhanCandles (.ok rows) "MCX" "1m") "MCX" "1m" ⟨1785776400 * MICROS, 32400⟩
        ⟨1785830400 * MICROS, IST⟩ none) time :=
  (dhan_window_iff (by decide) (by decide +kernel) (by decide +kernel)).not.mpr (by decide)

section Store
variable {calendar : Calendar} {symbol : String}

def readRows (store : ParquetStorage) (symbol interval : String) (start stop : Moment) : List StoredRow :=
  store.read (some [symbol]) (some start.wall) (some stop.wall) (some interval.toLower)

theorem isHistory_parquet (store : ParquetStorage) (symbol exchange interval : String) (start stop : Moment) :
    ∃ all, candles (parquetCandles store symbol interval) exchange interval start stop none = .ok all ∧
      IsHistory ((readRows store symbol interval start stop).map historyRow)
        (fun c => within start stop c.time && shown exchange interval c.time) all := by
  refine ⟨_, ?_, ((isHistory_normalize ((readRows store symbol interval start stop).map historyRow)).filter
    fun c => within start stop c.time).filter fun c => shown exchange interval c.time⟩
  simp only [candles, parquetCandles, parquetRows, Except.map, cut, clampToSession_eq]
  rfl

theorem answered_parquet {store : ParquetStorage} (time : Int) :
    Answered (candles (parquetCandles store symbol interval) exchange interval start stop none) time ↔
      (∃ r ∈ readRows store symbol interval start stop, (r.timestamp - IST * MICROS).tdiv MICROS = time) ∧
        (within start stop time && shown exchange interval time) = true := by
  obtain ⟨all, hall, h⟩ := isHistory_parquet store symbol exchange interval start stop
  have htimes := answered_iff (q := fun t => within start stop t && shown exchange interval t) h time
  rw [hall, htimes]
  refine and_congr_left' ?_
  constructor
  · rintro ⟨row, hrow, ht⟩
    obtain ⟨r, hr, rfl⟩ := List.mem_map.mp hrow
    exact ⟨r, hr, Option.some.inj ht⟩
  · rintro ⟨r, hr, ht⟩
    exact ⟨historyRow r, List.mem_map_of_mem hr, congrArg some ht⟩

private def storedBar (symbol interval : String) (time : Int) : Call :=
  ([{ symbol, exchange := "NFO", timeframe := interval.toLower, timestamp := { wall := indianWall time } }],
    some fun _ => true)

private theorem fullScan_storedBar (symbol interval : String) (time : Int) :
    ((ParquetStorage.mk calendar none Dict.empty).run [storedBar symbol interval time]).fullScan =
      [{ symbol, exchange := "NFO", timeframe := interval.toLower, timestamp := indianWall time }] := by
  rw [ParquetStorage.run, List.foldl_cons, List.foldl_nil, ParquetStorage.apply_eq]
  simp [storedBar, ParquetStorage.callRows, prepareFrame, FrameRow.prepare, castVolume, WallClock.stripTz,
    ParquetStorage.groups, ParquetStorage.fullScan, LastWrite.uniques, LastWrite.write, Dict.set, Dict.empty, Dict.get,
    Dict.keys]

/-- In a window whose first and last second are shown, every stored bar that is shown is answered, whatever was written,
exactly if what the window shows, with the offsets that it is written with, covers what it is in India. -/
theorem parquet_window_iff (hle : start.firstSecond ≤ stop.lastSecond)
    (hs : shown exchange interval start.firstSecond = true) (he : shown exchange interval stop.lastSecond = true) :
    (∀ calls : List Call, ∀ r ∈ ((ParquetStorage.mk calendar none Dict.empty).run calls).fullScan,
        r.symbol = symbol → r.timeframe = interval.toLower → ∀ time, r.timestamp = indianWall time →
          within start stop time = true → shown exchange interval time = true →
          Answered (candles (parquetCandles ((ParquetStorage.mk calendar none Dict.empty).run calls) symbol interval)
            exchange interval start stop none) time) ↔
      start.wall ≤ indianWall start.firstSecond ∧ indianWall stop.lastSecond ≤ stop.wall := by
  have hplaced (calls : List Call) := ParquetStorage.placed_run
    (s := ParquetStorage.mk calendar none Dict.empty) rfl calls
  constructor
  · intro h
    have hrow {time : Int} (hw : within start stop time = true) (ht : shown exchange interval time = true) :
        start.wall ≤ indianWall time ∧ indianWall time ≤ stop.wall := by
      have hone := h [storedBar symbol interval time] _ (by rw [fullScan_storedBar]; exact List.mem_singleton_self _) rfl
        rfl time rfl hw ht
      obtain ⟨⟨r, hr, -⟩, -⟩ := (answered_parquet time).mp hone
      obtain ⟨hrange, -, hscan⟩ := (ParquetStorage.mem_read (hplaced _) _ _ _ _ _ _).mp hr
      rw [fullScan_storedBar] at hscan
      obtain rfl := List.mem_singleton.mp hscan
      simpa [ParquetStorage.inRange] using hrange
    exact ⟨(hrow (within_iff.mpr ⟨le_refl _, hle⟩) hs).1, (hrow (within_iff.mpr ⟨hle, le_refl _⟩) he).2⟩
  · rintro ⟨hfirst, hlast⟩ calls r hr hsymbol htf time ht hw hshown
    rw [answered_parquet]
    obtain ⟨h1, h2⟩ := within_iff.mp hw
    refine ⟨⟨r, (ParquetStorage.mem_read (hplaced calls) _ _ _ _ _ _).mpr ⟨?_, ?_, hr⟩, ?_⟩, ?_⟩
    · have hmono {a b : Int} (hab : a ≤ b) : indianWall a ≤ indianWall b :=
        Int.mul_le_mul_of_nonneg_right (Int.add_le_add_right hab IST) (by decide)
      have hlo := hfirst.trans (hmono h1)
      have hhi := (hmono h2).trans hlast
      simp [ParquetStorage.inRange, ht, hlo, hhi, htf]
    · rw [hsymbol]
      exact List.mem_singleton_self symbol
    · rw [ht, indianWall, add_mul, add_sub_cancel_right, Int.mul_tdiv_cancel _ (by decide)]
    · rw [hw, hshown, Bool.and_self]

/-- A window from ten to eleven in India on 3 August 2026 that is written in universal time loses bars. -/
theorem parquet_window_iff_universal :
    ¬ ∀ calls : List Call, ∀ r ∈ ((ParquetStorage.mk Calendar.january none Dict.empty).run calls).fullScan,
      r.symbol = "NIFTY AUG FUT" → r.timeframe = "1m".toLower → ∀ time, r.timestamp = indianWall time →
        within ⟨1785731400 * MICROS, 0⟩ ⟨1785735000 * MICROS, 0⟩ time = true → shown "NFO" "1m" time = true →
        Answered (candles (parquetCandles ((ParquetStorage.mk Calendar.january none Dict.empty).run calls) "NIFTY AUG FUT"
          "1m") "NFO" "1m" ⟨1785731400 * MICROS, 0⟩ ⟨1785735000 * MICROS, 0⟩ none) time :=
  (parquet_window_iff (by decide) (by decide +kernel) (by decide +kernel)).not.mpr (by decide)

end Store

end Windows

end NTrade.Api.MarketData
