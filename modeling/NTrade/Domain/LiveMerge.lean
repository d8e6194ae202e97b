import NTrade.Lib.LastWrite
import Mathlib.Algebra.Order.Ring.Rat
import Mathlib.Data.List.Sort
import Mathlib.Data.Prod.Lex
import Mathlib.Tactic.Linarith

/-! Live ticks in a history frame: each tick is a row of its own, of which the last one of a timestamp is kept. -/
namespace NTrade.Domain.LiveMerge
open NTrade.Lib NTrade.Lib.LastWrite

/-- A timestamp is a wall time, or an instant if it has an offset. -/
inductive Stamp where
  | naive (wall : Int)
  | aware (instant : Int)
  deriving DecidableEq, Repr

/-- A row of a history frame; a timestamp that is not there is `none`. -/
structure HistoryRow where
  timestamp : Option Stamp
  open_ : Rat
  high : Rat
  low : Rat
  close : Rat
  volume : Rat
  deriving DecidableEq, Repr

/-- A row of `live_ticks_df`, as far as a merge reads it; price and quantity are numbers, as they are in a `Tick`. -/
structure TickRow where
  price : Rat
  quantity : Int := 0
  timestamp : Option Stamp := none
  deriving DecidableEq, Repr

def printRow (t : TickRow) : HistoryRow :=
  { timestamp := t.timestamp, open_ := t.price, high := t.price, low := t.price, close := t.price, volume := t.quantity }

inductive MergeError where
  /-- "Cannot compare tz-naive and tz-aware timestamps" -/
  | typeError
  deriving DecidableEq, Repr

def Stamp.isNaive : Stamp → Bool
  | .naive _ => true
  | .aware _ => false

/-- Timestamps with an offset and without one in one column. -/
def mixed (rows : List HistoryRow) : Bool :=
  (rows.any fun r => r.timestamp.any Stamp.isNaive) && rows.any fun r => r.timestamp.any fun t => !t.isNaive

/-- The place of a timestamp in `sort_values`: one that is not there comes last. -/
def place : Option Stamp → Nat ×ₗ Int
  | some (.naive wall) => toLex (0, wall)
  | some (.aware instant) => toLex (1, instant)
  | none => toLex (2, 0)

def NotAfter (r r' : HistoryRow) : Prop := place r.timestamp ≤ place r'.timestamp

instance : DecidableRel NotAfter := fun r r' => inferInstanceAs (Decidable (place r.timestamp ≤ place r'.timestamp))

/-- `live_merge`; the frame stays as it is if the timestamps cannot be sorted. -/
def liveMerge (df : List HistoryRow) (tickDf : List TickRow) : Except MergeError (List HistoryRow) :=
  if tickDf = [] ∨ df = [] then .ok df
  else
    let merged := keepLast HistoryRow.timestamp (df ++ tickDf.map printRow)
    if mixed merged then .error .typeError else .ok (merged.insertionSort NotAfter)

section Purpose

def frameVolume (df : List HistoryRow) : Rat := (df.map HistoryRow.volume).sum

def totalTraded (tickDf : List TickRow) : Rat := (tickDf.map fun t => (t.quantity : Rat)).sum

def HistoryRow.addPrint (c : HistoryRow) (t : TickRow) : HistoryRow :=
  { c with high := max c.high t.price, low := min c.low t.price, close := t.price, volume := c.volume + t.quantity }

def HistoryRow.extend (c : HistoryRow) (ticks : List TickRow) : HistoryRow := ticks.foldl HistoryRow.addPrint c

/-- What of a candle must not get lost. -/
def HistoryRow.ohlv (c : HistoryRow) : Rat × Rat × Rat × Rat := (c.open_, c.high, c.low, c.volume)

def ticksAt (c : HistoryRow) (tickDf : List TickRow) : List TickRow := tickDf.filter fun t => t.timestamp = c.timestamp

/-- A merge that keeps every candle, extended by its ticks, adds what the ticks traded, and is done once. -/
structure Merged (df : List HistoryRow) (tickDf : List TickRow) (merged : List HistoryRow) : Prop where
  kept : ∀ c ∈ df, ∃ c' ∈ merged, c'.timestamp = c.timestamp ∧ c'.ohlv = (c.extend (ticksAt c tickDf)).ohlv
  total : frameVolume merged = frameVolume df + totalTraded tickDf
  again : liveMerge merged tickDf = .ok merged

def Safe (df : List HistoryRow) (tickDf : List TickRow) : Prop := ∃ merged, liveMerge df tickDf = .ok merged ∧ Merged df tickDf merged

/-- A candle that its ticks only repeat: it has their price, and no volume but what the ticks before the last take off. -/
structure Repeats (c : HistoryRow) (ticks : List TickRow) : Prop where
  prices : ∀ t ∈ ticks, t.price = c.open_
  high : c.high ≤ c.open_
  low : c.open_ ≤ c.low
  volume : c.volume + totalTraded ticks.dropLast = 0

/-- A frame and ticks that can be sorted by time, in which nothing is overwritten that counts. -/
structure Harmless (df : List HistoryRow) (tickDf : List TickRow) : Prop where
  comparable : mixed (df ++ tickDf.map printRow) = false
  alike : ∀ c ∈ df, ∀ c' ∈ df, c'.timestamp = c.timestamp → ticksAt c tickDf = [] → c'.ohlv = c.ohlv
  repeats : ∀ c ∈ df, ticksAt c tickDf ≠ [] → Repeats c (ticksAt c tickDf)
  volume : frameVolume (overwritten HistoryRow.timestamp (df ++ tickDf.map printRow)) = 0

end Purpose

section Sorting

private theorem place_injective : Function.Injective place := by
  intro t t' h
  rcases t with _ | ⟨wall⟩ | ⟨instant⟩ <;> rcases t' with _ | ⟨wall'⟩ | ⟨instant'⟩ <;> simp_all [place]

instance : Std.Total NotAfter := ⟨fun r r' => le_total (place r.timestamp) (place r'.timestamp)⟩

instance : IsTrans HistoryRow NotAfter := ⟨fun _ _ _ => le_trans⟩

/-- Rows of distinct timestamps have one order. -/
private theorem sort_eq_of_perm {rows rows' : List HistoryRow} (h : rows.Perm rows')
    (hn : (rows'.map HistoryRow.timestamp).Nodup) : rows.insertionSort NotAfter = rows'.insertionSort NotAfter := by
  have hperm : (rows.insertionSort NotAfter).Perm (rows'.insertionSort NotAfter) :=
    (List.perm_insertionSort _ _).trans (h.trans (List.perm_insertionSort _ _).symm)
  refine hperm.eq_of_pairwise ?_ (List.pairwise_insertionSort _ _) (List.pairwise_insertionSort _ _)
  intro r r' hr hr' hle hle'
  have hmem := (List.perm_insertionSort NotAfter rows').mem_iff.mp (hperm.mem_iff.mp hr)
  have hmem' := (List.perm_insertionSort NotAfter rows').mem_iff.mp hr'
  exact List.inj_on_of_nodup_map hn hmem hmem' (place_injective (le_antisymm hle hle'))

private theorem mixed_congr {rows rows' : List HistoryRow} (h : ∀ t, (∃ r ∈ rows, r.timestamp = t) ↔ ∃ r ∈ rows', r.timestamp = t) :
    mixed rows = mixed rows' := by
  have hany (p : Option Stamp → Bool) : (rows.any fun r => p r.timestamp) = rows'.any fun r => p r.timestamp := by
    rw [Bool.eq_iff_iff, List.any_eq_true, List.any_eq_true]
    constructor
    · rintro ⟨r, hr, hp⟩
      obtain ⟨r', hr', ht⟩ := (h r.timestamp).mp ⟨r, hr, rfl⟩
      exact ⟨r', hr', ht ▸ hp⟩
    · rintro ⟨r, hr, hp⟩
      obtain ⟨r', hr', ht⟩ := (h r.timestamp).mpr ⟨r, hr, rfl⟩
      exact ⟨r', hr', ht ▸ hp⟩
  rw [mixed, mixed, hany (Option.any Stamp.isNaive), hany (Option.any fun t => !t.isNaive)]

end Sorting

section Rows
variable {df rows : List HistoryRow} {tickDf : List TickRow}

private def allRows (df : List HistoryRow) (tickDf : List TickRow) : List HistoryRow := df ++ tickDf.map printRow

private theorem timestamps_keepLast (t : Option Stamp) :
    (∃ r ∈ keepLast HistoryRow.timestamp rows, r.timestamp = t) ↔ ∃ r ∈ rows, r.timestamp = t := by
  have hlast : (∃ r ∈ rows, r.timestamp = t) ↔ lastOf HistoryRow.timestamp t rows ≠ none := by
    rw [ne_eq, lastOf_eq_none]
    push Not
    rfl
  rw [hlast, Option.ne_none_iff_exists']
  constructor
  · rintro ⟨r, hr, rfl⟩
    exact ⟨r, mem_keepLast.mp hr⟩
  · rintro ⟨r, hr⟩
    have ht : r.timestamp = t := by
      have hmem := List.mem_of_getLast? hr
      exact of_decide_eq_true (List.mem_filter.mp hmem).2
    subst ht
    exact ⟨r, mem_keepLast.mpr hr, rfl⟩

/-- A merge is refused exactly if the timestamps cannot be compared. -/
private theorem liveMerge_eq (hticks : tickDf ≠ []) (hdf : df ≠ []) :
    liveMerge df tickDf = if mixed (allRows df tickDf) then .error .typeError
      else .ok ((keepLast HistoryRow.timestamp (allRows df tickDf)).insertionSort NotAfter) := by
  rw [liveMerge, if_neg (by simp [hticks, hdf])]
  dsimp only
  rw [mixed_congr timestamps_keepLast]
  rfl

private theorem lastOf_prints (t : Option Stamp) :
    lastOf HistoryRow.timestamp t (tickDf.map printRow) =
      ((tickDf.filter fun tick => tick.timestamp = t).getLast?).map printRow := by
  rw [lastOf, List.filter_map, List.getLast?_map]
  rfl

/-- What is merged once is merged for good. -/
private theorem merge_again (hticks : tickDf ≠ []) (hdf : df ≠ []) (hmixed : mixed (allRows df tickDf) = false) :
    liveMerge ((keepLast HistoryRow.timestamp (allRows df tickDf)).insertionSort NotAfter) tickDf =
      .ok ((keepLast HistoryRow.timestamp (allRows df tickDf)).insertionSort NotAfter) := by
  generalize hrows : allRows df tickDf = rows at hmixed
  have hsort := List.perm_insertionSort NotAfter (keepLast HistoryRow.timestamp rows)
  have hlast (k : Option Stamp) : lastOf HistoryRow.timestamp k
      (allRows ((keepLast HistoryRow.timestamp rows).insertionSort NotAfter) tickDf) = lastOf HistoryRow.timestamp k rows := by
    rw [allRows, lastOf_append, lastOf_perm hsort (nodup_keepLast rows), lastOf_keepLast, ← hrows, allRows, lastOf_append]
    cases lastOf HistoryRow.timestamp k (tickDf.map printRow) <;> rfl
  have hperm := keepLast_perm hlast
  have hne : (keepLast HistoryRow.timestamp rows).insertionSort NotAfter ≠ [] := by
    intro hnil
    rw [hnil] at hsort
    have hrow : rows ≠ [] := by
      rw [← hrows, allRows]
      simp [hdf]
    obtain ⟨r, hr⟩ := List.exists_mem_of_ne_nil _ hrow
    obtain ⟨r', hr', -⟩ := (timestamps_keepLast r.timestamp).mpr ⟨r, hr, rfl⟩
    rw [List.nil_perm.mp hsort] at hr'
    cases hr'
  have hmixed' : mixed (allRows ((keepLast HistoryRow.timestamp rows).insertionSort NotAfter) tickDf) = false := by
    rw [← hmixed]
    apply mixed_congr
    intro t
    have hsame : (∃ r ∈ keepLast HistoryRow.timestamp rows, r.timestamp = t) ↔ ∃ r ∈ rows, r.timestamp = t :=
      timestamps_keepLast t
    rw [← timestamps_keepLast t, ← hsame]
    simp only [hperm.mem_iff]
  rw [liveMerge_eq hticks hne, hmixed', if_neg (by decide), sort_eq_of_perm hperm (nodup_keepLast rows)]

end Rows

section Extending
variable {c : HistoryRow} {ticks : List TickRow}

private theorem extend_open (ticks : List TickRow) (c : HistoryRow) : (c.extend ticks).open_ = c.open_ := by
  induction ticks generalizing c with
  | nil => rfl
  | cons t ticks ih => exact ih (c.addPrint t)

private theorem extend_volume (ticks : List TickRow) (c : HistoryRow) :
    (c.extend ticks).volume = c.volume + totalTraded ticks := by
  induction ticks generalizing c with
  | nil => exact (add_zero _).symm
  | cons t ticks ih =>
    have h : (c.extend (t :: ticks)).volume = (c.addPrint t).volume + totalTraded ticks := ih (c.addPrint t)
    rw [h, totalTraded, totalTraded, List.map_cons, List.sum_cons, ← add_assoc]
    rfl

private theorem extend_high_le {x : Rat} (ticks : List TickRow) (c : HistoryRow) :
    (c.extend ticks).high ≤ x ↔ c.high ≤ x ∧ ∀ t ∈ ticks, t.price ≤ x := by
  induction ticks generalizing c with
  | nil => simp [HistoryRow.extend]
  | cons t ticks ih =>
    have h : (c.extend (t :: ticks)).high ≤ x ↔ max c.high t.price ≤ x ∧ ∀ t ∈ ticks, t.price ≤ x := ih (c.addPrint t)
    rw [h, max_le_iff, List.forall_mem_cons, and_assoc]

private theorem le_extend_low {x : Rat} (ticks : List TickRow) (c : HistoryRow) :
    x ≤ (c.extend ticks).low ↔ x ≤ c.low ∧ ∀ t ∈ ticks, x ≤ t.price := by
  induction ticks generalizing c with
  | nil => simp [HistoryRow.extend]
  | cons t ticks ih =>
    have h : x ≤ (c.extend (t :: ticks)).low ↔ x ≤ min c.low t.price ∧ ∀ t ∈ ticks, x ≤ t.price := ih (c.addPrint t)
    rw [h, le_min_iff, List.forall_mem_cons, and_assoc]

/-- The last print is the candle with all of them only if they repeat it. -/
private theorem print_eq_extend_iff {last : TickRow} (hlast : ticks.getLast? = some last) :
    (printRow last).ohlv = (c.extend ticks).ohlv ↔ Repeats c ticks := by
  obtain ⟨front, rfl⟩ := List.getLast?_eq_some_iff.mp hlast
  have hvolume : totalTraded (front ++ [last]) = totalTraded front + last.quantity := by simp [totalTraded]
  have hohlv : (printRow last).ohlv = (c.extend (front ++ [last])).ohlv ↔
      last.price = c.open_ ∧ last.price = (c.extend (front ++ [last])).high ∧
        last.price = (c.extend (front ++ [last])).low ∧ (last.quantity : Rat) = c.volume + totalTraded (front ++ [last]) := by
    rw [HistoryRow.ohlv, HistoryRow.ohlv, extend_open, extend_volume, Prod.mk.injEq, Prod.mk.injEq, Prod.mk.injEq]
    rfl
  have hmem : last ∈ front ++ [last] := by simp
  rw [hohlv]
  constructor
  · rintro ⟨hopen, hhigh, hlow, hvol⟩
    obtain ⟨hchigh, hle⟩ := (extend_high_le _ c).mp hhigh.ge
    obtain ⟨hclow, hge⟩ := (le_extend_low _ c).mp hlow.le
    refine ⟨fun t ht => ?_, hopen ▸ hchigh, hopen ▸ hclow, ?_⟩
    · rw [← hopen]
      exact le_antisymm (hle t ht) (hge t ht)
    · rw [List.dropLast_concat]
      linarith
  · intro hrep
    have hopen := hrep.prices last hmem
    have hvol := hrep.volume
    rw [List.dropLast_concat] at hvol
    have hhigh : (c.extend (front ++ [last])).high ≤ last.price :=
      (extend_high_le _ c).mpr ⟨hopen ▸ hrep.high, fun t ht => (hrep.prices t ht).le.trans hopen.ge⟩
    have hlow : last.price ≤ (c.extend (front ++ [last])).low :=
      (le_extend_low _ c).mpr ⟨hopen ▸ hrep.low, fun t ht => hopen.le.trans (hrep.prices t ht).ge⟩
    refine ⟨hopen, le_antisymm (((extend_high_le _ c).mp le_rfl).2 last hmem) hhigh,
      le_antisymm hlow (((le_extend_low _ c).mp le_rfl).2 last hmem), ?_⟩
    linarith

end Extending

section Keeping
variable {df : List HistoryRow} {tickDf : List TickRow}

private theorem mem_of_lastOf {t : Option Stamp} {rows : List HistoryRow} {r : HistoryRow}
    (h : lastOf HistoryRow.timestamp t rows = some r) : r ∈ rows ∧ r.timestamp = t := by
  obtain ⟨hmem, ht⟩ := List.mem_filter.mp (List.mem_of_getLast? h)
  exact ⟨hmem, of_decide_eq_true ht⟩

/-- What is there of a time after a merge: its last print, or its last row without any. -/
private theorem exists_merged {c : HistoryRow} {P : HistoryRow → Prop} :
    (∃ c' ∈ (keepLast HistoryRow.timestamp (allRows df tickDf)).insertionSort NotAfter, c'.timestamp = c.timestamp ∧ P c') ↔
      ∃ r, ((ticksAt c tickDf).getLast?.map printRow).or (lastOf HistoryRow.timestamp c.timestamp df) = some r ∧ P r := by
  have hlast : lastOf HistoryRow.timestamp c.timestamp (allRows df tickDf) =
      ((ticksAt c tickDf).getLast?.map printRow).or (lastOf HistoryRow.timestamp c.timestamp df) := by
    rw [allRows, lastOf_append, lastOf_prints]
    rfl
  rw [← hlast]
  constructor
  · rintro ⟨r, hr, ht, hP⟩
    rw [List.mem_insertionSort, mem_keepLast, ht] at hr
    exact ⟨r, hr, hP⟩
  · rintro ⟨r, hr, hP⟩
    have ht := (mem_of_lastOf hr).2
    refine ⟨r, ?_, ht, hP⟩
    rw [List.mem_insertionSort, mem_keepLast, ht]
    exact hr

/-- Whether one candle is kept. -/
private theorem kept_iff (c : HistoryRow) :
    (∃ c' ∈ (keepLast HistoryRow.timestamp (allRows df tickDf)).insertionSort NotAfter,
        c'.timestamp = c.timestamp ∧ c'.ohlv = (c.extend (ticksAt c tickDf)).ohlv) ↔
      (ticksAt c tickDf = [] → ∃ r, lastOf HistoryRow.timestamp c.timestamp df = some r ∧ r.ohlv = c.ohlv) ∧
        (ticksAt c tickDf ≠ [] → Repeats c (ticksAt c tickDf)) := by
  rw [exists_merged]
  generalize ticksAt c tickDf = ticks
  cases hlast : ticks.getLast? with
  | none =>
    obtain rfl := List.getLast?_eq_none_iff.mp hlast
    simp [HistoryRow.extend]
  | some last =>
    have hne : ticks ≠ [] := by
      rintro rfl
      cases hlast
    simp [hne, print_eq_extend_iff hlast]

private theorem all_kept_iff :
    (∀ c ∈ df, ∃ c' ∈ (keepLast HistoryRow.timestamp (allRows df tickDf)).insertionSort NotAfter,
        c'.timestamp = c.timestamp ∧ c'.ohlv = (c.extend (ticksAt c tickDf)).ohlv) ↔
      (∀ c ∈ df, ∀ c' ∈ df, c'.timestamp = c.timestamp → ticksAt c tickDf = [] → c'.ohlv = c.ohlv) ∧
        ∀ c ∈ df, ticksAt c tickDf ≠ [] → Repeats c (ticksAt c tickDf) := by
  simp only [kept_iff, forall_and]
  refine and_congr_left fun _ => ?_
  constructor
  · intro hall c hc c' hc' ht hnil
    have hnil' : ticksAt c' tickDf = [] := by rwa [ticksAt, ht]
    obtain ⟨r, hr, hrc⟩ := hall c hc hnil
    obtain ⟨r', hr', hrc'⟩ := hall c' hc' hnil'
    rw [ht, hr] at hr'
    obtain rfl := Option.some.inj hr'
    exact hrc'.symm.trans hrc
  · intro hall c hc hnil
    cases hr : lastOf HistoryRow.timestamp c.timestamp df with
    | none => exact absurd rfl (lastOf_eq_none.mp hr c hc)
    | some r =>
      obtain ⟨hmem, ht⟩ := mem_of_lastOf hr
      exact ⟨r, rfl, hall c hc r hmem ht hnil⟩

private theorem frameVolume_perm {rows rows' : List HistoryRow} (h : rows.Perm rows') : frameVolume rows = frameVolume rows' :=
  (h.map _).sum_eq

/-- What is missing of the volume is what is overwritten. -/
private theorem volume_merged (df : List HistoryRow) (tickDf : List TickRow) :
    frameVolume ((keepLast HistoryRow.timestamp (allRows df tickDf)).insertionSort NotAfter) +
      frameVolume (overwritten HistoryRow.timestamp (allRows df tickDf)) = frameVolume df + totalTraded tickDf := by
  have hperm : (keepLast HistoryRow.timestamp (allRows df tickDf) ++
      overwritten HistoryRow.timestamp (allRows df tickDf)).Perm (allRows df tickDf) := perm_keepLast _
  have hsplit := frameVolume_perm hperm
  have hprints : frameVolume (allRows df tickDf) = frameVolume df + totalTraded tickDf := by
    rw [frameVolume, allRows, List.map_append, List.sum_append, List.map_map]
    rfl
  rw [frameVolume_perm (List.perm_insertionSort _ _), ← hprints, ← hsplit, frameVolume, frameVolume, frameVolume,
    List.map_append, List.sum_append]

end Keeping

/-- A merge loses nothing exactly if there are no ticks, or no candles and nothing traded, or nothing that counts is
overwritten. -/
theorem live_merge_safe_iff (df : List HistoryRow) (tickDf : List TickRow) :
    Safe df tickDf ↔
      tickDf = [] ∨ df = [] ∧ totalTraded tickDf = 0 ∨ df ≠ [] ∧ Harmless df tickDf := by
  have hsame (h : tickDf = [] ∨ df = []) : liveMerge df tickDf = .ok df := if_pos h
  by_cases hticks : tickDf = []
  · subst hticks
    refine iff_of_true ⟨df, hsame (.inl rfl), fun c hc => ⟨c, hc, rfl, rfl⟩, ?_, hsame (.inl rfl)⟩ (.inl rfl)
    exact (add_zero _).symm
  · rw [or_iff_right hticks]
    by_cases hdf : df = []
    · subst hdf
      have hempty := hsame (.inr rfl)
      rw [or_iff_left fun h => h.1 rfl, and_iff_right rfl]
      constructor
      · rintro ⟨merged, hmerged, hsafe⟩
        obtain rfl := Except.ok.inj (hempty.symm.trans hmerged)
        have htotal := hsafe.total
        rwa [left_eq_add] at htotal
      · intro hzero
        refine ⟨[], hempty, fun c hc => absurd hc List.not_mem_nil, ?_, hempty⟩
        rw [hzero, add_zero]
    · rw [or_iff_right fun h => hdf h.1, and_iff_right hdf]
      have hmerge := liveMerge_eq hticks hdf
      have hvolume := volume_merged df tickDf
      constructor
      · rintro ⟨merged, hmerged, hsafe⟩
        rw [hmerge] at hmerged
        split_ifs at hmerged with hmixed
        obtain rfl := Except.ok.inj hmerged
        obtain ⟨halike, hrepeats⟩ := all_kept_iff.mp hsafe.kept
        refine ⟨Bool.eq_false_of_not_eq_true hmixed, halike, hrepeats, ?_⟩
        rwa [hsafe.total, add_eq_left] at hvolume
      · intro h
        have hmixed : mixed (allRows df tickDf) = false := h.comparable
        rw [hmixed, if_neg (by decide)] at hmerge
        refine ⟨_, hmerge, all_kept_iff.mpr ⟨h.alike, h.repeats⟩, ?_, merge_again hticks hdf hmixed⟩
        have hzero : frameVolume (overwritten HistoryRow.timestamp (allRows df tickDf)) = 0 := h.volume
        rwa [hzero, add_zero] at hvolume

private def opening : HistoryRow :=
  { timestamp := some (.naive 1785748500000000), open_ := 100, high := 105, low := 99, close := 104, volume := 1000 }

private def openingPrint : TickRow :=
  { price := 103, quantity := 10, timestamp := some (.naive 1785748500000000) }

/-- The candle is gone, and 1000 of the volume. -/
theorem print_replaces_candle : ¬ Safe [opening] [openingPrint] := by
  rintro ⟨merged, hmerged, hsafe⟩
  have hmerge : liveMerge [opening] [openingPrint] = .ok [printRow openingPrint] := rfl
  obtain rfl := Except.ok.inj (hmerge.symm.trans hmerged)
  have htotal := hsafe.total
  revert htotal
  decide +kernel

end NTrade.Domain.LiveMerge
