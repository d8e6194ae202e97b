import NTrade.Data.GapDetector
import NTrade.Lib.Runs

/-! The gaps of an instrument against the maximal runs of the times on the grid that it has no row for. -/
namespace NTrade.Data
open NTrade.Domain NTrade.Lib NTrade.Lib.LastWrite

section Grid
variable (range : TimeRange) (freq : BarFreq)

def gridTime (i : Nat) : WallClock := { wall := range.start + (i : Int) * freq.micros, offset := range.offset }

def gridSize : Nat := ((range.stop - range.start) / freq.micros + 1).toNat

theorem dateRange_eq : dateRange range freq = (List.range (gridSize range freq)).map (gridTime range freq) := rfl

variable (s : ParquetStorage) (timeframe : String)

def Absent (symbol : String) (i : Nat) : Prop :=
  i < gridSize range freq ∧ ¬ s.Stored (symbol, timeframe, (gridTime range freq i).wall)

/-- The gaps are the maximal runs of times on the grid without a row. -/
def MissingRuns (symbol : String) (gaps : List Gap) : Prop :=
  ∃ runs, Runs.Maximal (Absent range freq s timeframe symbol) runs ∧
    gaps = runs.map fun run => (gridTime range freq run.1, gridTime range freq run.2)

/-- Instruments with some data are given the runs of their missing times, and those are left out that miss none. -/
def Exact (instruments : List Instrument) : Prop :=
  (∀ inst gaps, (inst, gaps) ∈ detect s range timeframe freq instruments →
    existing s range timeframe inst.symbol ≠ [] → MissingRuns range freq s timeframe inst.symbol gaps) ∧
  ∀ inst ∈ instruments, (∀ gaps, (inst, gaps) ∉ detect s range timeframe freq instruments) ↔
    ∀ i, ¬ Absent range freq s timeframe inst.symbol i

end Grid

section Gaps
variable {range : TimeRange} {freq : BarFreq} {s : ParquetStorage} {timeframe symbol : String}

private theorem gridTime_injective : Function.Injective (gridTime range freq) := by
  intro i j h
  have hwall : range.start + (i : Int) * freq.micros = range.start + (j : Int) * freq.micros := congrArg WallClock.wall h
  have hpos := freq.pos
  exact Int.ofNat_inj.mp (Int.eq_of_mul_eq_mul_right hpos.ne' (Int.add_left_cancel hwall))

private theorem times_injective : Function.Injective
    (List.map fun run : Nat × Nat => (gridTime range freq run.1, gridTime range freq run.2)) :=
  List.map_injective_iff.mpr (gridTime_injective.prodMap gridTime_injective)

private theorem gridTime_succ (i : Nat) :
    { gridTime range freq i with wall := (gridTime range freq i).wall + freq.micros } = gridTime range freq (i + 1) := by
  rw [gridTime, gridTime, WallClock.mk.injEq]
  refine ⟨?_, rfl⟩
  push_cast
  rw [Int.add_mul, Int.one_mul, Int.add_assoc]

theorem gridSize_pos : 0 < gridSize range freq ↔ range.start ≤ range.stop := by
  have hdiv : 0 ≤ (range.stop - range.start) / freq.micros ↔ 0 ≤ range.stop - range.start :=
    Int.ediv_nonneg_iff_of_pos freq.pos
  rw [gridSize]
  omega

/-- A time on the grid with a row is in the range. -/
private theorem existing_ne_nil (h : s.Placed) {i : Nat} (hi : i < gridSize range freq)
    (hst : s.Stored (symbol, timeframe, (gridTime range freq i).wall)) : existing s range timeframe symbol ≠ [] := by
  obtain ⟨-, hstart, hstop⟩ := mem_dateRange (List.mem_map_of_mem (List.mem_range.mpr hi))
  obtain ⟨r, hr, -⟩ := (exists_existing h hstart hstop).mpr hst
  exact List.ne_nil_of_mem hr

/-- On the grid, times are closed as their places are. -/
private theorem closeGaps_map (first last : Nat) (rest : List Nat) :
    closeGaps freq (gridTime range freq first) (gridTime range freq last) (rest.map (gridTime range freq)) =
      (Runs.close first last rest).map fun run => (gridTime range freq run.1, gridTime range freq run.2) := by
  induction rest generalizing first last with
  | nil => rfl
  | cons i rest ih =>
    rw [List.map_cons, closeGaps, Runs.close, gridTime_succ]
    simp only [ne_eq, gridTime_injective.eq_iff]
    split_ifs with hnext
    · exact ih first i
    · rw [ih, List.map_cons]

private def unfound (range : TimeRange) (freq : BarFreq) (s : ParquetStorage) (timeframe symbol : String) (i : Nat) : Bool :=
  !(existing s range timeframe symbol).any fun r => gridTime range freq i = { wall := r.timestamp }

private theorem missing_eq : missing s range timeframe freq symbol =
    ((List.range (gridSize range freq)).filter (unfound range freq s timeframe symbol)).map (gridTime range freq) := by
  rw [missing, missingTimes, dateRange_eq, List.filter_map]
  rfl

private theorem mem_places (h : s.Placed) {i : Nat} :
    i ∈ (List.range (gridSize range freq)).filter (unfound range freq s timeframe symbol) ↔
      i < gridSize range freq ∧ ¬ (range.offset = none ∧ s.Stored (symbol, timeframe, (gridTime range freq i).wall)) := by
  have hmem : gridTime range freq i ∈ missing s range timeframe freq symbol ↔ _ := mem_missing h
  rwa [missing_eq, dateRange_eq, List.mem_map_of_injective gridTime_injective,
    List.mem_map_of_injective gridTime_injective, List.mem_range] at hmem

/-- The gaps of an instrument with some data are the runs of the places that are not found. -/
private theorem gapsOf_runs {inst : Instrument} {gaps : List Gap}
    (hdata : existing s range timeframe inst.symbol ≠ []) (h : gapsOf s range timeframe freq inst = some gaps) :
    ∃ runs, Runs.Maximal
        (· ∈ (List.range (gridSize range freq)).filter (unfound range freq s timeframe inst.symbol)) runs ∧
      gaps = runs.map fun run => (gridTime range freq run.1, gridTime range freq run.2) := by
  have hsorted : ((List.range (gridSize range freq)).filter
      (unfound range freq s timeframe inst.symbol)).Pairwise (· < ·) := List.pairwise_lt_range.filter _
  have hmissing : missing s range timeframe freq inst.symbol = _ := missing_eq
  rw [gapsOf, if_neg hdata, ← missing, hmissing] at h
  generalize (List.range (gridSize range freq)).filter (unfound range freq s timeframe inst.symbol) = places at h hsorted
  cases places with
  | nil => cases h
  | cons i rest =>
    refine ⟨_, Runs.maximal_close hsorted, ?_⟩
    rw [← closeGaps_map]
    exact (Option.some.inj h).symm

private theorem gapsOf_none {inst : Instrument} (h : s.Placed) (hdata : existing s range timeframe inst.symbol ≠ []) :
    gapsOf s range timeframe freq inst = none ↔
      ∀ i, i ∉ (List.range (gridSize range freq)).filter (unfound range freq s timeframe inst.symbol) := by
  rw [gapsOf_eq_none h, missing_eq, List.map_eq_nil_iff, List.eq_nil_iff_forall_not_mem]
  exact and_iff_right (start_le_of_existing h hdata)

/-- A time with an offset is never found: then the places are the right ones only if nothing on the grid is stored. -/
private theorem places_iff (h : s.Placed) :
    (∀ i, i ∈ (List.range (gridSize range freq)).filter (unfound range freq s timeframe symbol) ↔
        Absent range freq s timeframe symbol i) ↔
      range.offset = none ∨
        ∀ i < gridSize range freq, ¬ s.Stored (symbol, timeframe, (gridTime range freq i).wall) := by
  simp only [mem_places h, Absent]
  constructor
  · intro hall
    by_cases hnone : range.offset = none
    · exact .inl hnone
    · exact .inr fun i hi => ((hall i).mp ⟨hi, fun hst => hnone hst.1⟩).2
  · rintro (hnone | hnot) i
    · simp [hnone]
    · exact ⟨fun hi => ⟨hi.1, hnot i hi.1⟩, fun hi => ⟨hi.1, fun hst => hi.2 hst.2⟩⟩

/-- What is wanted of the gaps of one instrument. -/
private theorem gaps_exact_iff (h : s.Placed) (inst : Instrument) :
    ((∀ gaps, gapsOf s range timeframe freq inst = some gaps → existing s range timeframe inst.symbol ≠ [] →
          MissingRuns range freq s timeframe inst.symbol gaps) ∧
        (gapsOf s range timeframe freq inst = none ↔ ∀ i, ¬ Absent range freq s timeframe inst.symbol i)) ↔
      range.start ≤ range.stop ∧ (range.offset = none ∨
        ∀ i < gridSize range freq, ¬ s.Stored (inst.symbol, timeframe, (gridTime range freq i).wall)) := by
  by_cases hdata : existing s range timeframe inst.symbol = []
  · have hnot (i : Nat) (hi : i < gridSize range freq) :
        ¬ s.Stored (inst.symbol, timeframe, (gridTime range freq i).wall) := fun hst => existing_ne_nil h hi hst hdata
    have hsome : gapsOf s range timeframe freq inst ≠ none := by
      rw [gapsOf, if_pos hdata]
      exact Option.some_ne_none _
    have hruns : ∀ gaps, gapsOf s range timeframe freq inst = some gaps → existing s range timeframe inst.symbol ≠ [] →
        MissingRuns range freq s timeframe inst.symbol gaps := fun _ _ h => absurd hdata h
    rw [and_iff_right hruns, and_iff_left (Or.inr hnot), iff_false_left hsome, not_forall_not, ← @gridSize_pos range freq]
    constructor
    · rintro ⟨i, hi, -⟩
      exact Nat.zero_lt_of_lt hi
    · intro hpos
      exact ⟨0, hpos, hnot 0 hpos⟩
  · rw [and_iff_right (start_le_of_existing h hdata), ← places_iff h, gapsOf_none h hdata]
    constructor
    · rintro ⟨hruns, hnone⟩ i
      cases hgaps : gapsOf s range timeframe freq inst with
      | none =>
        have hno := (gapsOf_none h hdata).mp hgaps
        exact iff_of_false (hno i) (hnone.mp hno i)
      | some gaps =>
        obtain ⟨runs, hmax, hmap⟩ := hruns gaps hgaps hdata
        obtain ⟨runs', hmax', hmap'⟩ := gapsOf_runs hdata hgaps
        obtain rfl : runs' = runs := times_injective (hmap'.symm.trans hmap)
        rw [hmax.covers, hmax'.covers]
    · intro hplaces
      simp only [hplaces, and_true]
      intro gaps hgaps _
      obtain ⟨runs, hmax, hmap⟩ := gapsOf_runs hdata hgaps
      have hset : (· ∈ (List.range (gridSize range freq)).filter (unfound range freq s timeframe inst.symbol)) =
          Absent range freq s timeframe inst.symbol := funext fun i => propext (hplaces i)
      exact ⟨runs, hset ▸ hmax, hmap⟩

end Gaps

private theorem mem_detect {s : ParquetStorage} {range : TimeRange} {timeframe : String} {freq : BarFreq}
    {instruments : List Instrument} {inst : Instrument} {gaps : List Gap} :
    (inst, gaps) ∈ detect s range timeframe freq instruments ↔
      inst ∈ instruments ∧ gapsOf s range timeframe freq inst = some gaps := by
  simp only [detect, List.mem_filterMap, Option.map_eq_some_iff]
  constructor
  · rintro ⟨inst', hinst, gaps', hgaps, heq⟩
    obtain ⟨rfl, rfl⟩ := Prod.mk.inj heq
    exact ⟨hinst, hgaps⟩
  · rintro ⟨hinst, hgaps⟩
    exact ⟨inst, hinst, gaps, hgaps, rfl⟩

/-- Whatever is stored, the gaps are exact if and only if there is no instrument, or the range has a start and is
one of the wall clock, but for the instruments that nothing on the grid is stored of. -/
theorem detect_exact_iff (calendar : Calendar) (sessionFilter : Option SessionFilter) (calls : List Call)
    (range : TimeRange) (timeframe : String) (freq : BarFreq) (instruments : List Instrument) :
    Exact range freq ((ParquetStorage.mk calendar sessionFilter Dict.empty).run calls) timeframe instruments ↔
      ∀ inst ∈ instruments, range.start ≤ range.stop ∧ (range.offset = none ∨ ∀ i < gridSize range freq,
        ¬ ((ParquetStorage.mk calendar sessionFilter Dict.empty).run calls).Stored
          (inst.symbol, timeframe, (gridTime range freq i).wall)) := by
  generalize hs : (ParquetStorage.mk calendar sessionFilter Dict.empty).run calls = s
  have h : s.Placed := by
    rw [← hs]
    exact ParquetStorage.placed_run rfl calls
  simp only [Exact, mem_detect, ← gaps_exact_iff h]
  constructor
  · rintro ⟨hruns, hleft⟩ inst hinst
    refine ⟨fun gaps hgaps => hruns inst gaps ⟨hinst, hgaps⟩, ?_⟩
    rw [← hleft inst hinst, Option.eq_none_iff_forall_ne_some]
    exact forall_congr' fun gaps => ⟨fun hne hmem => hne hmem.2, fun hnot heq => hnot ⟨hinst, heq⟩⟩
  · intro hall
    refine ⟨fun inst gaps hmem => (hall inst hmem.1).1 gaps hmem.2, fun inst hinst => ?_⟩
    rw [← (hall inst hinst).2, Option.eq_none_iff_forall_ne_some]
    exact forall_congr' fun gaps => ⟨fun hnot heq => hnot ⟨hinst, heq⟩, fun hne hmem => hne hmem.2⟩

private def infy : Instrument := { symbol := "INFY", exchange := "NSE", kind := .equity, brokerAdapter := true }

private def infyBar : Call :=
  ([{ symbol := "INFY", exchange := "NSE", timeframe := "5m", timestamp := { wall := 1704189600 * MICROS } }], none)

private def aware : TimeRange :=
  { start := 1704189600 * MICROS, stop := 1704189600 * MICROS, offset := some (19800 * MICROS) }

private def everyFive : BarFreq := { micros := 300 * MICROS, pos := fiveMinutes_pos }

/-- A bar is stored, but it is not found at a time that has an offset. -/
theorem aware_time_not_found :
    ¬ Exact aware everyFive ((ParquetStorage.mk Calendar.january none Dict.empty).run [infyBar]) "5m" [infy] := by
  rintro ⟨-, hleft⟩
  have hstored : ∃ r ∈ ((ParquetStorage.mk Calendar.january none Dict.empty).run [infyBar]).rowsAt
      (((ParquetStorage.mk Calendar.january none Dict.empty).run [infyBar]).partOf
        ("INFY", "5m", (gridTime aware everyFive 0).wall)), r.key = ("INFY", "5m", (gridTime aware everyFive 0).wall) := by
    decide +kernel
  have hfull : ∀ i, ¬ Absent aware everyFive ((ParquetStorage.mk Calendar.january none Dict.empty).run [infyBar]) "5m"
      "INFY" i := by
    rintro i ⟨hi, hnot⟩
    have hsize : gridSize aware everyFive = 1 := by decide +kernel
    obtain rfl : i = 0 := by omega
    exact hnot hstored
  have hgaps : gapsOf ((ParquetStorage.mk Calendar.january none Dict.empty).run [infyBar]) aware "5m" everyFive infy =
      some [(gridTime aware everyFive 0, gridTime aware everyFive 0)] := by
    decide +kernel
  exact (hleft infy List.mem_cons_self).mpr hfull _ (mem_detect.mpr ⟨List.mem_cons_self, hgaps⟩)

end NTrade.Data
