import NTrade.Data.MapRefinement
import NTrade.Domain.Order

/-! Gaps between the times that are wanted of each instrument and those in the store, and filling them. -/
namespace NTrade.Data
open NTrade.Domain NTrade.Lib NTrade.Lib.LastWrite

structure BarFreq where
  micros : Int
  pos : 0 < micros

/-- A range of time, both ends in one time zone if they have one. -/
structure TimeRange where
  start : Int
  stop : Int
  offset : Option Int := none

abbrev Gap := WallClock × WallClock

def dateRange (range : TimeRange) (freq : BarFreq) : List WallClock :=
  (List.range ((range.stop - range.start) / freq.micros + 1).toNat).map fun (i : Nat) =>
    { wall := range.start + (i : Int) * freq.micros, offset := range.offset }

/-- The times that are expected but have no row; a time with an offset is none of the stored ones. -/
def missingTimes (existing : List StoredRow) (expected : List WallClock) : List WallClock :=
  expected.filter fun t => !existing.any fun r => t = { wall := r.timestamp }

/-- Consecutive times as ranges, the first of which is open. -/
def closeGaps (freq : BarFreq) (gapStart prev : WallClock) : List WallClock → List Gap
  | [] => [(gapStart, prev)]
  | t :: rest =>
    if t ≠ { prev with wall := prev.wall + freq.micros } then (gapStart, prev) :: closeGaps freq t t rest
    else closeGaps freq gapStart t rest

section Detector
variable (s : ParquetStorage) (range : TimeRange) (timeframe : String) (freq : BarFreq)

def existing (symbol : String) : List StoredRow :=
  s.read (some [symbol]) (some range.start) (some range.stop) (some timeframe)

def gapsOf (inst : Instrument) : Option (List Gap) :=
  if existing s range timeframe inst.symbol = [] then
    some [({ wall := range.start, offset := range.offset }, { wall := range.stop, offset := range.offset })]
  else
    match missingTimes (existing s range timeframe inst.symbol) (dateRange range freq) with
    | [] => none
    | t :: rest => some (closeGaps freq t t rest)

def detect (instruments : List Instrument) : List (Instrument × List Gap) :=
  instruments.filterMap fun inst => (gapsOf s range timeframe freq inst).map fun gaps => (inst, gaps)

end Detector

section Backfill

structure SourceBar where
  open_ : Option Rat
  high : Option Rat
  low : Option Rat
  close : Option Rat
  volume : Int

abbrev Source := Instrument → WallClock → SourceBar

def sourceRow (source : Source) (timeframe : String) (inst : Instrument) (t : WallClock) : FrameRow :=
  let bar := source inst t
  { symbol := inst.symbol, exchange := inst.exchange, kind := some inst.kind.KIND, timeframe, timestamp := t,
    open_ := bar.open_, high := bar.high, low := bar.low, close := bar.close, volume := some bar.volume }

variable (s : ParquetStorage) (range : TimeRange) (timeframe : String) (freq : BarFreq) (source : Source)

def missing (symbol : String) : List WallClock :=
  missingTimes (existing s range timeframe symbol) (dateRange range freq)

def fetched (instruments : List Instrument) : List FrameRow :=
  (detect s range timeframe freq instruments).flatMap fun (inst, gaps) => gaps.flatMap fun gap =>
    ((missing s range timeframe freq inst.symbol).filter fun t => gap.1.wall ≤ t.wall ∧ t.wall ≤ gap.2.wall).map
      (sourceRow source timeframe inst)

/-- However the bars are cut into frames to upsert, there are no gaps afterwards. -/
def Converges (instruments : List Instrument) : Prop :=
  ∀ frames : List (List FrameRow), frames.flatten.Perm (fetched s range timeframe freq source instruments) →
    detect (s.run (frames.map fun df => (df, none))) range timeframe freq instruments = []

def accepts (r : FrameRow) : Bool := s.sessionFilter.getD sessionBarMask { r with timestamp := r.timestamp.stripTz }

/-- Every missing time has a bar that the store takes. -/
def Storable (instruments : List Instrument) : Prop :=
  range.offset = none ∧ range.start ≤ range.stop ∧
    ∀ inst ∈ instruments, ∀ t ∈ missing s range timeframe freq inst.symbol,
      ∃ inst' ∈ instruments, inst'.symbol = inst.symbol ∧ accepts s (sourceRow source timeframe inst' t) = true

end Backfill

section Reading
variable {s : ParquetStorage}

def ParquetStorage.Stored (s : ParquetStorage) (k : Key) : Prop := ∃ r ∈ s.rowsAt (s.partOf k), r.key = k

private theorem stored_iff_lastOf {k : Key} {rows : List StoredRow} :
    (∃ r ∈ rows, r.key = k) ↔ lastOf StoredRow.key k rows ≠ none := by
  rw [ne_eq, lastOf_eq_none]
  push Not
  rfl

/-- The keys with a row are the ones that were written. -/
theorem stored_run (h : s.files = Dict.empty) (calls : List Call) (k : Key) :
    (s.run calls).Stored k ↔ ∃ r ∈ s.history calls, r.key = k := by
  rw [ParquetStorage.Stored, stored_iff_lastOf, stored_iff_lastOf, ParquetStorage.partOf_run,
    ParquetStorage.lastOf_rowsAt h]

theorem run_append (s : ParquetStorage) (calls calls' : List Call) :
    s.run (calls ++ calls') = (s.run calls).run calls' := List.foldl_append

theorem stored_run_append (h : s.files = Dict.empty) (calls calls' : List Call) (k : Key) :
    ((s.run calls).run calls').Stored k ↔ (s.run calls).Stored k ∨ ∃ r ∈ s.history calls', r.key = k := by
  rw [← run_append, stored_run h, stored_run h, ParquetStorage.history, List.flatMap_append]
  constructor
  · rintro ⟨r, hr, hk⟩
    exact (List.mem_append.mp hr).imp (fun hr => ⟨r, hr, hk⟩) fun hr => ⟨r, hr, hk⟩
  · rintro (⟨r, hr, hk⟩ | ⟨r, hr, hk⟩)
    · exact ⟨r, List.mem_append_left _ hr, hk⟩
    · exact ⟨r, List.mem_append_right _ hr, hk⟩

/-- Reading a symbol in a range finds every row in it: no partition of one is left out. -/
theorem mem_read_range (h : s.Placed) {symbol timeframe : String} {start stop : Int} {r : StoredRow} :
    r ∈ s.read (some [symbol]) (some start) (some stop) (some timeframe) ↔
      (r.symbol = symbol ∧ r.timeframe = timeframe ∧ start ≤ r.timestamp ∧ r.timestamp ≤ stop) ∧
        r ∈ s.rowsAt (s.part r) := by
  have heff : s.effectiveSymbols (some [symbol]) none = [symbol] := rfl
  rw [(s.read_perm (some [symbol]) (some start) (some stop) (some timeframe) 100 none).mem_iff, heff,
    List.flatMap_singleton, List.mem_filter, List.mem_flatten, ParquetStorage.pathsOf]
  simp only [List.mem_filterMap, ParquetStorage.mem_periodRange, ParquetStorage.inRange, Option.all_some, Bool.and_eq_true,
    decide_eq_true_eq]
  constructor
  · rintro ⟨⟨rows, ⟨m, hm, hget⟩, hr⟩, ⟨hstart, hstop⟩, htf⟩
    have hrows : r ∈ s.rowsAt (symbol, m) := by rwa [ParquetStorage.rowsAt, hget]
    have hpart := h _ r hrows
    rw [hpart]
    exact ⟨⟨(Prod.mk.inj hpart).1, htf, hstart, hstop⟩, hrows⟩
  · rintro ⟨⟨rfl, htf, hstart, hstop⟩, hr⟩
    cases hget : s.files.get (s.part r) with
    | none =>
      rw [ParquetStorage.rowsAt, hget] at hr
      cases hr
    | some rows =>
      rw [ParquetStorage.rowsAt, hget] at hr
      exact ⟨⟨rows, ⟨_, ⟨s.calendar.monotone hstart, s.calendar.monotone hstop⟩, hget⟩, hr⟩, ⟨hstart, hstop⟩, htf⟩

end Reading

section Detection
variable {s : ParquetStorage} {range : TimeRange} {timeframe : String} {freq : BarFreq} {symbol : String}

theorem mem_dateRange {t : WallClock} (h : t ∈ dateRange range freq) :
    t.offset = range.offset ∧ range.start ≤ t.wall ∧ t.wall ≤ range.stop := by
  obtain ⟨i, hi, rfl⟩ := List.mem_map.mp h
  rw [List.mem_range] at hi
  have hpos := freq.pos
  have hi' : (i : Int) ≤ (range.stop - range.start) / freq.micros := by omega
  have hmul := Int.mul_le_of_le_ediv hpos hi'
  have hnonneg : 0 ≤ (i : Int) * freq.micros := Int.mul_nonneg (Int.natCast_nonneg i) hpos.le
  refine ⟨rfl, ?_, ?_⟩ <;> dsimp only <;> omega

private theorem start_mem_dateRange (h : range.start ≤ range.stop) :
    { wall := range.start, offset := range.offset } ∈ dateRange range freq := by
  have hdiv := Int.ediv_nonneg (Int.sub_nonneg_of_le h) freq.pos.le
  refine List.mem_map.mpr ⟨0, List.mem_range.mpr (by omega), ?_⟩
  rw [Int.natCast_zero, Int.zero_mul, Int.add_zero]

/-- The times in the range that a symbol has a row for are the stored ones. -/
theorem exists_existing (h : s.Placed) {wall : Int} (hstart : range.start ≤ wall) (hstop : wall ≤ range.stop) :
    (∃ r ∈ existing s range timeframe symbol, r.timestamp = wall) ↔ s.Stored (symbol, timeframe, wall) := by
  simp only [existing, mem_read_range h]
  constructor
  · rintro ⟨r, ⟨⟨rfl, rfl, -, -⟩, hr⟩, rfl⟩
    exact ⟨r, hr, rfl⟩
  · rintro ⟨r, hr, hk⟩
    have hpart : s.part r = s.partOf (symbol, timeframe, wall) := by rw [ParquetStorage.part_eq, hk]
    obtain ⟨rfl, htf⟩ := Prod.mk.inj hk
    obtain ⟨rfl, rfl⟩ := Prod.mk.inj htf
    exact ⟨r, ⟨⟨rfl, rfl, hstart, hstop⟩, hpart ▸ hr⟩, rfl⟩

/-- A time is missing unless it is one of the wall clock and has a row. -/
theorem mem_missing (h : s.Placed) {t : WallClock} :
    t ∈ missing s range timeframe freq symbol ↔
      t ∈ dateRange range freq ∧ ¬ (range.offset = none ∧ s.Stored (symbol, timeframe, t.wall)) := by
  rw [missing, missingTimes, List.mem_filter, Bool.not_eq_true', ← Bool.not_eq_true, List.any_eq_true]
  refine and_congr_right fun ht => not_congr ?_
  obtain ⟨hoffset, hstart, hstop⟩ := mem_dateRange ht
  rw [← exists_existing h hstart hstop]
  simp only [decide_eq_true_eq]
  constructor
  · rintro ⟨r, hr, rfl⟩
    exact ⟨hoffset.symm, r, hr, rfl⟩
  · rintro ⟨hnone, r, hr, hwall⟩
    refine ⟨r, hr, ?_⟩
    rw [hwall, ← hnone, ← hoffset]

/-- A range that has some data has a start. -/
theorem start_le_of_existing (h : s.Placed) (hdata : existing s range timeframe symbol ≠ []) : range.start ≤ range.stop := by
  obtain ⟨r, hr⟩ := List.exists_mem_of_ne_nil _ hdata
  obtain ⟨⟨-, -, hstart, hstop⟩, -⟩ := (mem_read_range h).mp hr
  exact hstart.trans hstop

/-- There is no gap if the range has a start, and no time on the grid is missing. -/
theorem gapsOf_eq_none (h : s.Placed) {inst : Instrument} :
    gapsOf s range timeframe freq inst = none ↔
      range.start ≤ range.stop ∧ missing s range timeframe freq inst.symbol = [] := by
  rw [gapsOf]
  split_ifs with hnil
  · refine iff_of_false nofun fun ⟨hle, hmissing⟩ => ?_
    have hstart : { wall := range.start, offset := range.offset } ∈ missing s range timeframe freq inst.symbol := by
      rw [missing, hnil]
      exact List.mem_filter.mpr ⟨start_mem_dateRange hle, rfl⟩
    rw [hmissing] at hstart
    cases hstart
  · have hle := start_le_of_existing h hnil
    rw [missing]
    cases missingTimes (existing s range timeframe inst.symbol) (dateRange range freq) with
    | nil => exact iff_of_true rfl ⟨hle, rfl⟩
    | cons t rest => exact iff_of_false nofun fun h => nomatch h.2

theorem detect_eq_nil {instruments : List Instrument} :
    detect s range timeframe freq instruments = [] ↔
      ∀ inst ∈ instruments, gapsOf s range timeframe freq inst = none := by
  simp only [detect, List.filterMap_eq_nil_iff, Option.map_eq_none_iff]

private theorem mem_cons_or {x t : WallClock} {rest : List WallClock} (h : t ∈ x :: rest) :
    t ∈ rest ∨ x.wall ≤ t.wall ∧ t.wall ≤ x.wall := by
  rcases List.mem_cons.mp h with rfl | h
  · exact .inr ⟨le_refl _, le_refl _⟩
  · exact .inl h

/-- The ranges cover the times they are made of. -/
private theorem closeGaps_cover {gapStart prev : WallClock} {rest : List WallClock} (hle : gapStart.wall ≤ prev.wall)
    (hsorted : (prev :: rest).Pairwise fun t t' => t.wall ≤ t'.wall) {t : WallClock}
    (ht : t ∈ rest ∨ gapStart.wall ≤ t.wall ∧ t.wall ≤ prev.wall) :
    ∃ gap ∈ closeGaps freq gapStart prev rest, gap.1.wall ≤ t.wall ∧ t.wall ≤ gap.2.wall := by
  induction rest generalizing gapStart prev with
  | nil =>
    rcases ht with ht | ht
    · cases ht
    · exact ⟨_, List.mem_singleton_self _, ht⟩
  | cons x rest ih =>
    obtain ⟨hprev, hrest⟩ := List.pairwise_cons.mp hsorted
    have hx := hprev x List.mem_cons_self
    rw [closeGaps]
    split_ifs with hgap
    · rcases ht with ht | ht
      · obtain ⟨gap, hmem, hcov⟩ := ih (le_refl _) hrest (mem_cons_or ht)
        exact ⟨gap, List.mem_cons_of_mem _ hmem, hcov⟩
      · exact ⟨_, List.mem_cons_self, ht⟩
    · apply ih (hle.trans hx) hrest
      rcases ht with ht | ⟨hlo, hhi⟩
      · exact (mem_cons_or ht).imp_right fun ⟨hlo, hhi⟩ => ⟨(hle.trans hx).trans hlo, hhi⟩
      · exact .inr ⟨hlo, hhi.trans hx⟩

private theorem missing_sorted : (missing s range timeframe freq symbol).Pairwise fun t t' => t.wall ≤ t'.wall := by
  refine List.Pairwise.filter _ ?_
  rw [dateRange, List.pairwise_map]
  refine List.pairwise_lt_range.imp fun {i j} hij => ?_
  have hmul := Int.mul_le_mul_of_nonneg_right (Int.ofNat_le.mpr hij.le) freq.pos.le
  exact Int.add_le_add_left hmul range.start

/-- Every missing time of an instrument is in one of its gaps. -/
private theorem gapsOf_cover {inst : Instrument} {t : WallClock} (ht : t ∈ missing s range timeframe freq inst.symbol) :
    ∃ gaps, gapsOf s range timeframe freq inst = some gaps ∧ ∃ gap ∈ gaps, gap.1.wall ≤ t.wall ∧ t.wall ≤ gap.2.wall := by
  rw [gapsOf]
  split_ifs with hnil
  · obtain ⟨-, hstart, hstop⟩ := mem_dateRange (List.mem_filter.mp ht).1
    exact ⟨_, rfl, _, List.mem_singleton_self _, hstart, hstop⟩
  · have hsorted : (missing s range timeframe freq inst.symbol).Pairwise fun t t' => t.wall ≤ t'.wall := missing_sorted
    rw [missing] at ht hsorted
    cases hm : missingTimes (existing s range timeframe inst.symbol) (dateRange range freq) with
    | nil =>
      rw [hm] at ht
      cases ht
    | cons x rest =>
      rw [hm] at ht hsorted
      exact ⟨_, rfl, closeGaps_cover (le_refl _) hsorted (mem_cons_or ht)⟩

/-- What is fetched is a bar for each missing time of each instrument. -/
theorem mem_fetched {source : Source} {instruments : List Instrument} {row : FrameRow} :
    row ∈ fetched s range timeframe freq source instruments ↔
      ∃ inst ∈ instruments, ∃ t ∈ missing s range timeframe freq inst.symbol, row = sourceRow source timeframe inst t := by
  simp only [fetched, detect, List.mem_flatMap, List.mem_filterMap, Option.map_eq_some_iff, List.mem_map, List.mem_filter]
  constructor
  · rintro ⟨_, ⟨inst, hinst, gaps, hgaps, rfl⟩, gap, hgap, t, ⟨ht, -⟩, rfl⟩
    exact ⟨inst, hinst, t, ht, rfl⟩
  · rintro ⟨inst, hinst, t, ht, rfl⟩
    obtain ⟨gaps, hgaps, gap, hgap, hcov⟩ := gapsOf_cover ht
    exact ⟨_, ⟨inst, hinst, gaps, hgaps, rfl⟩, gap, hgap, t, ⟨ht, decide_eq_true hcov⟩, rfl⟩

end Detection

section Upserts
variable {s : ParquetStorage}

private def storedRow (r : FrameRow) : StoredRow := { r with timestamp := r.timestamp.wall, volume := (r.volume.getD 0).num }

private theorem mapM_prepare {df : List FrameRow} (h : ∀ r ∈ df, (r.volume.getD 0).den = 1) :
    df.mapM FrameRow.prepare = .ok (df.map storedRow) := by
  induction df with
  | nil => rfl
  | cons r df ih =>
    have hr : r.prepare = .ok (storedRow r) := by
      rw [FrameRow.prepare, castVolume, if_pos (h r List.mem_cons_self)]
      rfl
    rw [List.mapM_cons, hr, ih fun r' hr' => h r' (List.mem_cons_of_mem _ hr')]
    rfl

/-- The rows of a frame that is upserted with the store's own filter. -/
private theorem mem_callRows {df : List FrameRow} (h : ∀ r ∈ df, (r.volume.getD 0).den = 1) {r : StoredRow} :
    r ∈ s.callRows (df, none) ↔ ∃ row ∈ df, accepts s row = true ∧ storedRow row = r := by
  rw [ParquetStorage.callRows, prepareFrame, Option.none_or, mapM_prepare]
  · simp only [List.mem_map, List.mem_filter]
    constructor
    · rintro ⟨_, ⟨⟨row, hrow, rfl⟩, hacc⟩, rfl⟩
      exact ⟨row, hrow, hacc, rfl⟩
    · rintro ⟨row, hrow, hacc, rfl⟩
      exact ⟨_, ⟨⟨row, hrow, rfl⟩, hacc⟩, rfl⟩
  · intro r hr
    obtain ⟨row, hrow, rfl⟩ := List.mem_map.mp (List.mem_filter.mp hr).1
    exact h row hrow

/-- The keys that frames of bars bring in are those of the bars that the filter takes. -/
theorem history_frames {frames : List (List FrameRow)} (h : ∀ r ∈ frames.flatten, (r.volume.getD 0).den = 1) (k : Key) :
    (∃ r ∈ s.history (frames.map fun df => (df, none)), r.key = k) ↔
      ∃ row ∈ frames.flatten, accepts s row = true ∧ (row.symbol, row.timeframe, row.timestamp.wall) = k := by
  have hcall (df : List FrameRow) (hdf : df ∈ frames) {r : StoredRow} :=
    mem_callRows (s := s) (r := r) fun row hrow => h row (List.mem_flatten_of_mem hdf hrow)
  simp only [ParquetStorage.history, List.mem_flatMap, List.mem_map, List.mem_flatten]
  constructor
  · rintro ⟨r, ⟨_, ⟨df, hdf, rfl⟩, hr⟩, rfl⟩
    obtain ⟨row, hrow, hacc, rfl⟩ := (hcall df hdf).mp hr
    exact ⟨row, ⟨df, hdf, hrow⟩, hacc, rfl⟩
  · rintro ⟨row, ⟨df, hdf, hrow⟩, hacc, rfl⟩
    exact ⟨storedRow row, ⟨_, ⟨df, hdf, rfl⟩, (hcall df hdf).mpr ⟨row, hrow, hacc, rfl⟩⟩, rfl⟩

end Upserts

section Convergence
variable {s : ParquetStorage} {range : TimeRange} {timeframe : String} {freq : BarFreq} {source : Source}
  {instruments : List Instrument}

private theorem fetched_volume {row : FrameRow} (h : row ∈ fetched s range timeframe freq source instruments) :
    (row.volume.getD 0).den = 1 := by
  obtain ⟨inst, -, t, -, rfl⟩ := mem_fetched.mp h
  exact Rat.den_intCast _

private theorem accepts_run (s : ParquetStorage) (calls : List Call) : accepts (s.run calls) = accepts s := by
  have hfilter : (s.run calls).sessionFilter = s.sessionFilter := by
    induction calls using List.reverseRecOn with
    | nil => rfl
    | append_singleton calls c ih => rw [ParquetStorage.run_concat, ParquetStorage.apply_eq, ih]
  funext r
  rw [accepts, accepts, hfilter]

/-- What has a row after the bars of the gaps are upserted. -/
private theorem stored_after (h : s.files = Dict.empty) (calls : List Call) {frames : List (List FrameRow)}
    (hframes : frames.flatten.Perm (fetched (s.run calls) range timeframe freq source instruments)) (symbol : String)
    {t : WallClock} (ht : t ∈ dateRange range freq) :
    ((s.run calls).run (frames.map fun df => (df, none))).Stored (symbol, timeframe, t.wall) ↔
      (s.run calls).Stored (symbol, timeframe, t.wall) ∨ t ∈ missing (s.run calls) range timeframe freq symbol ∧
        ∃ inst ∈ instruments, inst.symbol = symbol ∧ accepts (s.run calls) (sourceRow source timeframe inst t) = true := by
  have hvolume (r : FrameRow) (hr : r ∈ frames.flatten) : (r.volume.getD 0).den = 1 :=
    fetched_volume (hframes.mem_iff.mp hr)
  rw [stored_run_append h, history_frames hvolume, accepts_run]
  refine or_congr_right ⟨?_, ?_⟩
  · rintro ⟨row, hrow, hacc, hkey⟩
    obtain ⟨inst, hinst, t', ht', rfl⟩ := mem_fetched.mp (hframes.mem_iff.mp hrow)
    obtain ⟨rfl, htail⟩ := Prod.mk.inj hkey
    have hwall : t'.wall = t.wall := (Prod.mk.inj htail).2
    have hoffset := (mem_dateRange (List.mem_filter.mp ht').1).1.trans (mem_dateRange ht).1.symm
    obtain rfl : t' = t := by
      cases t'
      cases t
      rw [WallClock.mk.injEq]
      exact ⟨hwall, hoffset⟩
    exact ⟨ht', inst, hinst, rfl, hacc⟩
  · rintro ⟨ht', inst, hinst, rfl, hacc⟩
    exact ⟨_, hframes.mem_iff.mpr (mem_fetched.mpr ⟨inst, hinst, t, ht', rfl⟩), hacc, rfl⟩

end Convergence

/-- The bars of the gaps fill all of them exactly if the range is one of the wall clock that has a start,
and the store takes a bar for every missing time. -/
theorem backfill_converges_iff (calendar : Calendar) (sessionFilter : Option SessionFilter) (calls : List Call)
    (range : TimeRange) (timeframe : String) (freq : BarFreq) (source : Source) (instruments : List Instrument) :
    Converges ((ParquetStorage.mk calendar sessionFilter Dict.empty).run calls) range timeframe freq source instruments ↔
      instruments = [] ∨
        Storable ((ParquetStorage.mk calendar sessionFilter Dict.empty).run calls) range timeframe freq source instruments := by
  generalize hs : ParquetStorage.mk calendar sessionFilter Dict.empty = s
  have h : s.files = Dict.empty := by rw [← hs]
  have hplaced := ParquetStorage.placed_run h calls
  have hplaced' (frames : List (List FrameRow)) : ((s.run calls).run (frames.map fun df => (df, none))).Placed := by
    rw [← run_append]
    exact ParquetStorage.placed_run h _
  constructor
  · intro hconv
    have hone : [fetched (s.run calls) range timeframe freq source instruments].flatten.Perm
        (fetched (s.run calls) range timeframe freq source instruments) := by rw [List.flatten_singleton]
    have hall := detect_eq_nil.mp (hconv _ hone)
    rcases instruments.eq_nil_or_concat with rfl | ⟨insts, last, rfl⟩
    · exact .inl rfl
    have hfull (inst : Instrument) (hinst : inst ∈ insts.concat last) := (gapsOf_eq_none (hplaced' _)).mp (hall inst hinst)
    have hmem : last ∈ insts.concat last := by simp
    have hlast := hfull last hmem
    have hstored {t : WallClock} (ht : t ∈ dateRange range freq) {inst : Instrument} (hinst : inst ∈ insts.concat last) := by
      have hnot := List.eq_nil_iff_forall_not_mem.mp (hfull inst hinst).2 t
      rw [mem_missing (hplaced' _), not_and_not_right] at hnot
      exact hnot ht
    have hnone := (hstored (start_mem_dateRange hlast.1) hmem).1
    refine .inr ⟨hnone, hlast.1, fun inst hinst t ht => ?_⟩
    obtain ⟨hgrid, hmissing⟩ := (mem_missing hplaced).mp ht
    rcases (stored_after h calls hone inst.symbol hgrid).mp (hstored hgrid hinst).2 with hold | ⟨-, hnew⟩
    · exact absurd ⟨hnone, hold⟩ hmissing
    · exact hnew
  · rintro (rfl | ⟨hnone, hle, hall⟩) frames hframes
    · rfl
    · rw [detect_eq_nil]
      intro inst hinst
      rw [gapsOf_eq_none (hplaced' _)]
      refine ⟨hle, List.eq_nil_iff_forall_not_mem.mpr fun t ht => ?_⟩
      obtain ⟨hgrid, hmissing⟩ := (mem_missing (hplaced' _)).mp ht
      refine hmissing ⟨hnone, (stored_after h calls hframes inst.symbol hgrid).mpr ?_⟩
      by_cases hold : (s.run calls).Stored (inst.symbol, timeframe, t.wall)
      · exact .inl hold
      · have hmiss : t ∈ missing (s.run calls) range timeframe freq inst.symbol :=
          (mem_missing hplaced).mpr ⟨hgrid, fun hst => hold hst.2⟩
        exact .inr ⟨hmiss, hall inst hinst t hmiss⟩

private def sbin : Instrument := { symbol := "SBIN", exchange := "NSE", kind := .equity, brokerAdapter := true }

private def lastBar : TimeRange := { start := 1704209100 * MICROS, stop := 1704209400 * MICROS }

theorem fiveMinutes_pos : 0 < 300 * MICROS := by decide

private def fiveMinutes : BarFreq := { micros := 300 * MICROS, pos := fiveMinutes_pos }

private def flatSource : Source := fun _ _ =>
  { open_ := some 600, high := some 600, low := some 600, close := some 600, volume := 10 }

/-- The close of the session is on the grid, but no bar of the store: its gap stays. -/
theorem close_stays_missing :
    ¬ Converges ((ParquetStorage.mk Calendar.january none Dict.empty).run []) lastBar "5m" fiveMinutes flatSource
      [sbin] := by
  intro h
  have hdetect := h [fetched ((ParquetStorage.mk Calendar.january none Dict.empty).run []) lastBar "5m" fiveMinutes
    flatSource [sbin]] (by rw [List.flatten_singleton])
  revert hdetect
  decide +kernel

end NTrade.Data
