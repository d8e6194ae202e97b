import NTrade.Api.MarketCandles
import NTrade.Lib.Unordered
import NTrade.Lib.HalfEven
import Mathlib.Data.Rat.Floor

/-! The quote that the terminal shows offline, from the bars of the store: the daily ones, or days put together from
the bars of a minute. -/
namespace NTrade.Api.MarketData
open NTrade.Domain NTrade.Data NTrade.Lib NTrade.Lib.Unordered

def dayOf (c : Candle) : Int := indianWall c.time / DAY

def midnight (day : Int) : Int := day * 86400 - IST

def Candle.take (d r : Candle) : Candle :=
  { d with high := larger d.high r.high, low := smaller d.low r.low, close := r.close, volume := d.volume + r.volume }

def byDay (rows : List Candle) : Dict Int Candle :=
  rows.foldl (fun d r => d.set (dayOf r) (match d.get (dayOf r) with
    | none => { r with time := midnight (dayOf r) }
    | some bar => bar.take r)) Dict.empty

def aggregateDaily (rows : List Candle) : List Candle :=
  (Grouping.sortBy id (byDay rows).keys).filterMap (byDay rows).get

structure Quote where
  symbol : String
  exchange : String
  ltp : Option Rat
  change : Option Rat
  changePct : Option Rat
  high : Option Rat
  low : Option Rat
  open_ : Option Rat
  prevClose : Option Rat
  volume : Int
  oi : Int
  source : String
  deriving DecidableEq, Repr

def round2 (x : Option Rat) : Option Rat := x.map fun x => HalfEven.decimals x 2

def quoteOf (symbol exchange : String) (last : Candle) (before : Option Candle) : Quote :=
  let prevClose := (before.map Candle.close).getD last.close
  let change := (last.close.bind fun x => prevClose.map fun y => x - y)
  { symbol, exchange, ltp := round2 last.close, change := round2 change,
    changePct := round2 (if prevClose = some 0 then some 0 else
      change.bind fun x => prevClose.map fun y => x / y * 100),
    high := last.high, low := last.low, open_ := last.open_, prevClose, volume := last.volume, oi := 0,
    source := "parquet" }

def parquetQuote (store : ParquetStorage) (symbol exchange : String) : Except String Quote :=
  let daily := parquetRows store symbol "1d" none none (some 1)
  let rows := if daily = [] then aggregateDaily (parquetRows store symbol "1m" none none none) else daily
  match rows.getLast? with
  | none => .error ("no stored data for " ++ symbol)
  | some last => .ok (quoteOf symbol exchange last rows.dropLast.getLast?)

section Days
variable {rows A B : List Candle} {day : Int}

def dayBar (day : Int) : List Candle → Option Candle
  | [] => none
  | r :: rest => some (rest.foldl Candle.take { r with time := midnight day })

theorem dayBar_concat (day : Int) (rows : List Candle) (r : Candle) : dayBar day (rows ++ [r]) =
    some (((dayBar day rows).map fun bar => bar.take r).getD { r with time := midnight day }) := by
  cases rows with
  | nil => rfl
  | cons r' rest => simp [dayBar, List.foldl_append]

theorem byDay_concat (rows : List Candle) (r : Candle) : byDay (rows ++ [r]) =
    (byDay rows).set (dayOf r) ((((byDay rows).get (dayOf r)).map fun bar => bar.take r).getD
      { r with time := midnight (dayOf r) }) := by
  rw [byDay, List.foldl_append, List.foldl_cons, List.foldl_nil, ← byDay]
  cases (byDay rows).get (dayOf r) <;> rfl

theorem get_byDay (rows : List Candle) (day : Int) :
    (byDay rows).get day = dayBar day (rows.filter fun r => dayOf r = day) := by
  induction rows using List.reverseRecOn with
  | nil => rfl
  | append_singleton rows r ih =>
    rw [byDay_concat, Dict.get_set, List.filter_append]
    by_cases h : dayOf r = day
    · subst h
      rw [if_pos rfl, ih, List.filter_cons_of_pos (by simp), List.filter_nil, dayBar_concat]
    · rw [if_neg (Ne.symm h), List.filter_cons_of_neg (by simpa using h), List.filter_nil, List.append_nil, ih]

theorem dayBar_eq_none : dayBar day rows = none ↔ rows = [] := by
  cases rows with
  | nil => exact iff_of_true rfl rfl
  | cons r rest => exact iff_of_false (Option.some_ne_none _) (List.cons_ne_nil r rest)

theorem mem_keys_byDay : day ∈ (byDay rows).keys ↔ ∃ r ∈ rows, dayOf r = day := by
  rw [← not_iff_not, ← Dict.get_eq_none_iff, get_byDay, dayBar_eq_none, List.filter_eq_nil_iff]
  simp

/-- A later day is one more bar. -/
theorem aggregateDaily_append (hA : ∀ a ∈ A, dayOf a < day) (hB : ∀ b ∈ B, dayOf b = day) (hne : B ≠ []) :
    aggregateDaily (A ++ B) = aggregateDaily A ++ (dayBar day B).toList := by
  have hkeys : Grouping.sortBy id (byDay (A ++ B)).keys = Grouping.sortBy id (byDay A).keys ++ [day] := by
    have hmem {k : Int} (hk : k ∈ Grouping.sortBy id (byDay A).keys) : ∃ a ∈ A, dayOf a = k :=
      mem_keys_byDay.mp ((Grouping.perm_sortBy _ _).mem_iff.mp hk)
    apply Grouping.sortBy_id_eq
    · rw [List.pairwise_append]
      refine ⟨Grouping.pairwise_sortBy id _, List.pairwise_singleton _ _, fun k hk d hd => ?_⟩
      obtain ⟨a, ha, rfl⟩ := hmem hk
      exact (List.mem_singleton.mp hd) ▸ (hA a ha).le
    · have hnew : (Grouping.sortBy id (byDay A).keys ++ [day]).Nodup := by
        refine List.nodup_append.mpr ⟨(Grouping.perm_sortBy _ _).nodup_iff.mpr (byDay A).keys_nodup,
          List.nodup_singleton _, fun k hk d hd he => ?_⟩
        obtain ⟨a, ha, rfl⟩ := hmem hk
        exact (hA a ha).ne (he.trans (List.mem_singleton.mp hd))
      rw [List.perm_ext_iff_of_nodup (byDay (A ++ B)).keys_nodup hnew]
      intro k
      rw [mem_keys_byDay, List.mem_append, (Grouping.perm_sortBy _ _).mem_iff, mem_keys_byDay, List.mem_singleton]
      constructor
      · rintro ⟨r, hr, rfl⟩
        exact (List.mem_append.mp hr).imp (fun h => ⟨r, h, rfl⟩) (hB r)
      · rintro (⟨r, hr, rfl⟩ | rfl)
        · exact ⟨r, List.mem_append_left B hr, rfl⟩
        · obtain ⟨b, hb⟩ := List.exists_mem_of_ne_nil B hne
          exact ⟨b, List.mem_append_right A hb, hB b hb⟩
  have hearlier (k : Int) (hk : k ∈ Grouping.sortBy id (byDay A).keys) : (byDay (A ++ B)).get k = (byDay A).get k := by
    obtain ⟨a, ha, rfl⟩ := mem_keys_byDay.mp ((Grouping.perm_sortBy _ _).mem_iff.mp hk)
    have hnone : B.filter (fun r => dayOf r = dayOf a) = [] :=
      List.filter_eq_nil_iff.mpr fun b hb he => (hA a ha).ne ((of_decide_eq_true he).symm.trans (hB b hb))
    rw [get_byDay, get_byDay, List.filter_append, hnone, List.append_nil]
  have hlast : (byDay (A ++ B)).get day = dayBar day B := by
    have hnone : A.filter (fun r => dayOf r = day) = [] :=
      List.filter_eq_nil_iff.mpr fun a ha he => (hA a ha).ne (of_decide_eq_true he)
    rw [get_byDay, List.filter_append, hnone, List.nil_append,
      List.filter_eq_self.mpr fun b hb => decide_eq_true (hB b hb)]
  rw [aggregateDaily, hkeys, List.filterMap_append, List.filterMap_congr hearlier, ← aggregateDaily]
  cases h : dayBar day B with
  | none => exact absurd (dayBar_eq_none.mp h) hne
  | some bar => rw [List.filterMap_cons, hlast, h]; rfl

theorem map_close_dayBar (day : Int) (rows : List Candle) :
    (dayBar day rows).map Candle.close = rows.getLast?.map Candle.close := by
  induction rows using List.reverseRecOn with
  | nil => rfl
  | append_singleton rows r _ =>
    rw [dayBar_concat, List.getLast?_concat]
    cases dayBar day rows <;> rfl

variable {last : Candle}

private theorem dayOf_le {a b : Candle} (h : a.time < b.time) : dayOf a ≤ dayOf b :=
  Int.ediv_le_ediv (by decide) (Int.mul_le_mul_of_nonneg_right (Int.add_le_add_right h.le IST) (by decide))

/-- Candles in order are those of the days before the last one, and those of the last day. -/
private theorem days_append (h : rows.Pairwise fun a b => a.time < b.time) (hlast : rows.getLast? = some last) :
    rows.filter (fun r => dayOf r < dayOf last) ++ rows.filter (fun r => dayOf r = dayOf last) = rows := by
  have hle (r : Candle) (hr : r ∈ rows) : dayOf r ≤ dayOf last := by
    obtain ⟨init, rfl⟩ := List.getLast?_eq_some_iff.mp hlast
    rcases List.mem_append.mp hr with hr | hr
    · exact dayOf_le ((List.pairwise_append.mp h).2.2 r hr last (List.mem_singleton_self last))
    · exact (List.mem_singleton.mp hr) ▸ le_refl _
  have hrest : rows.filter (fun r => dayOf r = dayOf last) = rows.filter fun r => !decide (dayOf r < dayOf last) :=
    List.filter_congr fun r hr => by
      have := hle r hr
      rw [← decide_not, decide_eq_decide]
      omega
  rw [hrest]
  exact Newest.filter_append_filter _ <| h.imp fun {a b} hab hb =>
    decide_eq_true ((dayOf_le hab).trans_lt (of_decide_eq_true hb))

private theorem mem_lastDay (hlast : rows.getLast? = some last) : last ∈ rows.filter fun r => dayOf r = dayOf last :=
  List.mem_filter.mpr ⟨List.mem_of_getLast? hlast, decide_eq_true rfl⟩

/-- The last bar is that of the last day, and the others are of the days before. -/
theorem aggregateDaily_eq (h : rows.Pairwise fun a b => a.time < b.time) (hlast : rows.getLast? = some last) :
    aggregateDaily rows = aggregateDaily (rows.filter fun r => dayOf r < dayOf last) ++
      (dayBar (dayOf last) (rows.filter fun r => dayOf r = dayOf last)).toList := by
  have happend := aggregateDaily_append (A := rows.filter fun r => dayOf r < dayOf last)
    (B := rows.filter fun r => dayOf r = dayOf last) (fun a ha => of_decide_eq_true (List.mem_filter.mp ha).2)
    (fun b hb => of_decide_eq_true (List.mem_filter.mp hb).2) (List.ne_nil_of_mem (mem_lastDay hlast))
  rw [days_append h hlast] at happend
  exact happend

/-- The last day closes with the last candle. -/
theorem close_aggregateDaily (h : rows.Pairwise fun a b => a.time < b.time) :
    (aggregateDaily rows).getLast?.map Candle.close = rows.getLast?.map Candle.close := by
  cases hlast : rows.getLast? with
  | none => rw [List.getLast?_eq_none_iff.mp hlast]; rfl
  | some last =>
    have hday : (rows.filter fun r => dayOf r = dayOf last).getLast? = some last := by
      have hsplit := congrArg List.getLast? (days_append h hlast)
      rw [List.getLast?_append_of_ne_nil _ (List.ne_nil_of_mem (mem_lastDay hlast)), hlast] at hsplit
      exact hsplit
    have hclose := map_close_dayBar (dayOf last) (rows.filter fun r => dayOf r = dayOf last)
    rw [hday] at hclose
    rw [aggregateDaily_eq h hlast, List.getLast?_append]
    cases hbar : dayBar (dayOf last) (rows.filter fun r => dayOf r = dayOf last) with
    | none =>
      rw [hbar] at hclose
      cases hclose
    | some bar =>
      rw [hbar] at hclose
      exact hclose

end Days

section Quotes
variable {store : ParquetStorage} {symbol exchange interval : String}

def Stored (store : ParquetStorage) (symbol timeframe : String) : Prop :=
  ∃ r ∈ store.fullScan, r.symbol = symbol ∧ r.timeframe = timeframe

def storedCandles (store : ParquetStorage) (symbol interval : String) : List Candle :=
  parquetRows store symbol interval none none none

theorem isHistory_stored (store : ParquetStorage) (symbol interval : String) :
    IsHistory ((store.read (some [symbol]) none none (some interval.toLower)).map historyRow) (fun _ => true)
      (storedCandles store symbol interval) :=
  isHistory_normalize _

theorem storedCandles_eq_nil (h : store.Placed) :
    storedCandles store symbol interval = [] ↔ ¬ Stored store symbol interval.toLower := by
  have htimes := (isHistory_stored store symbol interval).mem_times (q := fun _ => true)
  rw [← not_iff_not, not_not]
  constructor
  · intro hne
    obtain ⟨c, hc⟩ := List.exists_mem_of_ne_nil _ hne
    obtain ⟨⟨row, hrow, -⟩, -⟩ := (htimes c.time).mp (List.mem_map_of_mem hc)
    obtain ⟨r, hr, rfl⟩ := List.mem_map.mp hrow
    obtain ⟨hrange, hs, hscan⟩ := (ParquetStorage.mem_read h _ _ _ _ _ _).mp hr
    exact ⟨r, hscan, List.mem_singleton.mp hs, by simpa [ParquetStorage.inRange] using hrange⟩
  · rintro ⟨r, hscan, hs, htf⟩ hnil
    have hr : r ∈ store.read (some [symbol]) none none (some interval.toLower) :=
      (ParquetStorage.mem_read h _ _ _ _ _ _).mpr
        ⟨by simp [ParquetStorage.inRange, htf], List.mem_singleton.mpr hs, hscan⟩
    have hmem := (htimes _).mpr ⟨⟨historyRow r, List.mem_map_of_mem hr, rfl⟩, rfl⟩
    rw [hnil] at hmem
    cases hmem

/-- With a limit of one candle there is the last one. -/
theorem parquetRows_one (store : ParquetStorage) (symbol interval : String) :
    parquetRows store symbol interval none none (some 1) = (storedCandles store symbol interval).getLast?.toList := by
  have hlimit : parquetRows store symbol interval none none (some 1) =
      Newest.newest 1 (storedCandles store symbol interval) := cut_of_pos (by decide) _
  rw [hlimit]
  induction storedCandles store symbol interval using List.reverseRecOn with
  | nil => rfl
  | append_singleton rows r _ =>
    rw [Newest.newest_append_of_le (le_refl 1), List.getLast?_concat]
    rfl

/-- The change of a quote without a bar before is nothing. -/
theorem change_quoteOf (symbol exchange : String) (last : Candle) :
    (quoteOf symbol exchange last none).change = last.close.map fun _ => 0 := by
  cases h : last.close with
  | none => simp [quoteOf, round2, h]
  | some x => simp [quoteOf, round2, h, HalfEven.decimals, HalfEven.nearest]

theorem quoteOf_congr {before before' : Option Candle} (h : before.map Candle.close = before'.map Candle.close)
    (symbol exchange : String) (last : Candle) : quoteOf symbol exchange last before = quoteOf symbol exchange last before' := by
  rw [quoteOf, quoteOf, h]

/-- A daily bar is compared with itself. -/
theorem parquetQuote_daily {last : Candle} (hlast : (storedCandles store symbol "1d").getLast? = some last)
    (exchange : String) : parquetQuote store symbol exchange = .ok (quoteOf symbol exchange last none) := by
  simp only [parquetQuote, parquetRows_one, hlast]
  rfl

/-- Without daily bars, the last day is compared with the days before. -/
theorem parquetQuote_minutes {last : Candle} (hdaily : storedCandles store symbol "1d" = [])
    (hlast : (storedCandles store symbol "1m").getLast? = some last) (exchange : String) : ∃ bar,
      dayBar (dayOf last) ((storedCandles store symbol "1m").filter fun r => dayOf r = dayOf last) = some bar ∧
        parquetQuote store symbol exchange = .ok (quoteOf symbol exchange bar
          ((storedCandles store symbol "1m").filter fun r => dayOf r < dayOf last).getLast?) := by
  have hrising := (isHistory_stored store symbol "1m").rising
  cases hbar : dayBar (dayOf last) ((storedCandles store symbol "1m").filter fun r => dayOf r = dayOf last) with
  | none => exact absurd (dayBar_eq_none.mp hbar) (List.ne_nil_of_mem (mem_lastDay hlast))
  | some bar =>
    refine ⟨bar, rfl, ?_⟩
    have hrows : aggregateDaily (parquetRows store symbol "1m" none none none) =
        aggregateDaily ((storedCandles store symbol "1m").filter fun r => dayOf r < dayOf last) ++ [bar] := by
      rw [← storedCandles, aggregateDaily_eq hrising hlast, hbar]
      rfl
    simp only [parquetQuote, parquetRows_one, hdaily, List.getLast?_nil, Option.toList_none, if_true, hrows,
      List.getLast?_concat, List.dropLast_concat]
    exact congrArg Except.ok (quoteOf_congr (close_aggregateDaily (hrising.filter _)) symbol exchange bar)

/-- Whatever was written, the offline quote compares with the day before only if no daily bar of the symbol is stored:
otherwise the one bar that it asks for is compared with itself, and nothing has changed since. -/
theorem parquetQuote_spec (calendar : Calendar) (sessionFilter : Option SessionFilter) (calls : List Call)
    (symbol exchange : String) :
    let store := (ParquetStorage.mk calendar sessionFilter Dict.empty).run calls
    (Stored store symbol "1d" → ∃ last q, (storedCandles store symbol "1d").getLast? = some last ∧
      parquetQuote store symbol exchange = .ok q ∧ q = quoteOf symbol exchange last none ∧
        q.change = last.close.map fun _ => 0) ∧
    (¬ Stored store symbol "1d" → Stored store symbol "1m" → ∃ last bar,
      (storedCandles store symbol "1m").getLast? = some last ∧
        dayBar (dayOf last) ((storedCandles store symbol "1m").filter fun r => dayOf r = dayOf last) = some bar ∧
          parquetQuote store symbol exchange = .ok (quoteOf symbol exchange bar
            ((storedCandles store symbol "1m").filter fun r => dayOf r < dayOf last).getLast?)) ∧
    (parquetQuote store symbol exchange = .error ("no stored data for " ++ symbol) ↔
      ¬ Stored store symbol "1d" ∧ ¬ Stored store symbol "1m") := by
  intro store
  have hplaced : store.Placed := ParquetStorage.placed_run rfl calls
  have hday : storedCandles store symbol "1d" = [] ↔ ¬ Stored store symbol "1d".toLower := storedCandles_eq_nil hplaced
  have hminute : storedCandles store symbol "1m" = [] ↔ ¬ Stored store symbol "1m".toLower := storedCandles_eq_nil hplaced
  rw [show "1d".toLower = "1d" by decide +kernel] at hday
  rw [show "1m".toLower = "1m" by decide +kernel] at hminute
  have hlast {interval : String} (h : storedCandles store symbol interval ≠ []) :
      ∃ last, (storedCandles store symbol interval).getLast? = some last :=
    ⟨_, List.getLast?_eq_some_getLast h⟩
  refine ⟨fun hstored => ?_, fun hnone hstored => ?_, ?_⟩
  · obtain ⟨last, h⟩ := hlast fun hnil => hday.mp hnil hstored
    exact ⟨last, _, h, parquetQuote_daily h exchange, rfl, change_quoteOf symbol exchange last⟩
  · obtain ⟨last, h⟩ := hlast fun hnil => hminute.mp hnil hstored
    obtain ⟨bar, hbar, hquote⟩ := parquetQuote_minutes (hday.mpr hnone) h exchange
    exact ⟨last, bar, h, hbar, hquote⟩
  · rw [← hday, ← hminute]
    constructor
    · intro herror
      by_contra hsome
      rcases not_and_or.mp hsome with hne | hne
      · obtain ⟨last, h⟩ := hlast hne
        rw [parquetQuote_daily h] at herror
        cases herror
      · by_cases hnil : storedCandles store symbol "1d" = []
        · obtain ⟨last, h⟩ := hlast hne
          obtain ⟨bar, -, hquote⟩ := parquetQuote_minutes hnil h exchange
          rw [hquote] at herror
          cases herror
        · obtain ⟨last, h⟩ := hlast hnil
          rw [parquetQuote_daily h] at herror
          cases herror
    · rintro ⟨hnil, hnil'⟩
      have hrows : aggregateDaily (parquetRows store symbol "1m" none none none) = [] := by
        rw [← storedCandles, hnil']
        rfl
      simp only [parquetQuote, parquetRows_one, hnil, List.getLast?_nil, Option.toList_none, if_true, hrows]

end Quotes

end NTrade.Api.MarketData
