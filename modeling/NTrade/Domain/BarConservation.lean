import NTrade.Domain.Ohlcv
import Mathlib.Data.List.Pairwise

/-! What resampling keeps of the bars: every row is in one bin, and each bar is made of the rows of its bin. -/
namespace NTrade.Domain.Ohlcv
open NTrade.Lib NTrade.Lib.Grouping NTrade.Lib.LastWrite

structure IsBar (bin : List BarValues) (bar : BarValues) : Prop where
  open_ : bar.open_ = (bin.filterMap (·.open_)).head?
  close : bar.close = (bin.filterMap (·.close)).getLast?
  high : ∀ h, bar.high = some h ↔ h ∈ bin.filterMap (·.high) ∧ ∀ x ∈ bin.filterMap (·.high), x ≤ h
  low : ∀ l, bar.low = some l ↔ l ∈ bin.filterMap (·.low) ∧ ∀ x ∈ bin.filterMap (·.low), l ≤ x
  volume : bar.volume = some (total (bin.map (·.volume)))

section Purpose
variable (df : BarFrame) (rule : Rule) (origin : Origin) (dayGroup : Bool)

/-- The right edge of the bin of a time. -/
def edgeOf (t : Int) : Int :=
  if dayGroup then (rule.edges (dayOrigin (dayOf t) origin)).right t else (rule.edges (startDay df.indexed)).right t

structure Conserved (cut : List (BarRow × List (Int × BarValues))) : Prop where
  bars : (resample df rule origin dayGroup).rows = cut.map Prod.fst
  isBar : ∀ p ∈ cut, IsBar (p.2.map Prod.snd) p.1.toBarValues
  labelled : ∀ p ∈ cut, ∀ r ∈ p.2, p.1.timestamp = some (edgeOf df rule origin dayGroup r.1)
  /-- Each row is in one bin, in the order of time. -/
  counted : cut.flatMap Prod.snd = sortBy Prod.fst df.indexed
  volume : total ((resample df rule origin dayGroup).rows.map (·.volume)) = total (df.indexed.map fun r => r.2.volume)
  increasing : (resample df rule origin dayGroup).rows.Pairwise fun bar bar' =>
    ∃ t t', bar.timestamp = some t ∧ bar'.timestamp = some t' ∧ t < t'
  oneDay : dayGroup = true → ∀ p ∈ cut, ∀ r ∈ p.2, ∀ r' ∈ p.2, dayOf r.1 = dayOf r'.1

def Conserves : Prop := ∃ cut, Conserved df rule origin dayGroup cut

/-- Every row shares its bin with one that has an open, and the bins of a day end before those of a later one. -/
structure Separate : Prop where
  opens : ∀ r ∈ df.indexed, ∃ r' ∈ df.indexed, edgeOf df rule origin dayGroup r'.1 = edgeOf df rule origin dayGroup r.1 ∧
    (dayGroup = true → dayOf r'.1 = dayOf r.1) ∧ r'.2.open_.isSome
  apart : dayGroup = true → ∀ r ∈ df.indexed, ∀ r' ∈ df.indexed, dayOf r.1 < dayOf r'.1 →
    edgeOf df rule origin dayGroup r.1 < edgeOf df rule origin dayGroup r'.1

end Purpose

section Columns

private theorem some_mem_map {f : BarValues → Option Rat} {bin : List BarValues} {x : Rat} :
    some x ∈ bin.map f ↔ x ∈ bin.filterMap f := by
  rw [List.mem_map, List.mem_filterMap]

/-- The values that are aggregated make a bar. -/
theorem isBar_aggregate (hasOi : Bool) (bin : List BarValues) : IsBar bin (aggregate hasOi bin) where
  open_ := by
    rw [aggregate, first, combine_first, List.filterMap_map]
    rfl
  close := by
    rw [aggregate, last, combine_last, List.filterMap_map]
    rfl
  high h := by
    rw [aggregate, highest, combine_max]
    simp only [some_mem_map]
  low l := by
    rw [aggregate, lowest, combine_min]
    simp only [some_mem_map]
  volume := rfl

theorem total_append (xs ys : List (Option Rat)) : total (xs ++ ys) = total xs + total ys := by
  rw [total, List.map_append, List.sum_append, total, total]

theorem total_perm {xs ys : List (Option Rat)} (h : xs.Perm ys) : total xs = total ys := (h.map _).sum_eq

end Columns

section Bins
variable {df : BarFrame} {rule : Rule} {origin : Origin} {dayGroup : Bool}

theorem Edges.right_mono (edges : Edges) {t u : Int} (h : t ≤ u) : edges.right t ≤ edges.right u := by
  by_cases hlt : u < edges.right t
  · exact (edges.same t u ((edges.left_le t).trans h) hlt).ge
  · exact (not_lt.mp hlt).trans (edges.lt_right u).le

private theorem sorted_right (edges : Edges) (indexed : List (Int × BarValues)) :
    (sortBy Prod.fst indexed).Pairwise fun r r' => edges.right r.1 ≤ edges.right r'.1 :=
  (pairwise_sortBy Prod.fst indexed).imp edges.right_mono

theorem flatten_bins (edges : Edges) (indexed : List (Int × BarValues)) :
    (bins edges indexed).flatMap Prod.snd = sortBy Prod.fst indexed :=
  flatten_groups (sorted_right edges indexed)

private theorem labels_bins (edges : Edges) (indexed : List (Int × BarValues)) :
    (bins edges indexed).Pairwise fun bin bin' => bin.1 < bin'.1 :=
  List.pairwise_map.mp (keys_groups (sorted_right edges indexed))

private theorem mem_bins {edges : Edges} {indexed : List (Int × BarValues)} {bin : Int × List (Int × BarValues)}
    (h : bin ∈ bins edges indexed) :
    bin.2 ≠ [] ∧ ∀ r, r ∈ bin.2 ↔ r ∈ indexed ∧ edges.right r.1 = bin.1 := by
  obtain ⟨⟨r, hr, hk⟩, hrows⟩ := mem_groups.mp h
  rw [hrows]
  refine ⟨List.ne_nil_of_mem (List.mem_filter.mpr ⟨hr, decide_eq_true hk⟩), fun r' => ?_⟩
  rw [List.mem_filter, (perm_sortBy _ _).mem_iff, decide_eq_true_eq]

def allBins (df : BarFrame) (rule : Rule) (origin : Origin) (dayGroup : Bool) : List (Int × List (Int × BarValues)) :=
  if dayGroup then (days df.indexed).flatMap fun day =>
    bins (rule.edges (dayOrigin day origin)) (df.indexed.filter fun r => dayOf r.1 = day)
  else bins (rule.edges (startDay df.indexed)) df.indexed

def hasOpen (bin : Int × List (Int × BarValues)) : Bool := bin.2.any fun r => r.2.open_.isSome

def barOf (hasOi : Bool) (bin : Int × List (Int × BarValues)) : BarRow :=
  { aggregate hasOi (bin.2.map Prod.snd) with timestamp := some bin.1 }

private theorem resampleBins_eq (edges : Edges) (hasOi : Bool) (indexed : List (Int × BarValues)) :
    resampleBins edges hasOi indexed =
      ((bins edges indexed).filter hasOpen).map fun bin => (bin.1, aggregate hasOi (bin.2.map Prod.snd)) := by
  rw [resampleBins, List.filter_map]
  congr 1
  apply List.filter_congr
  intro bin _
  rw [hasOpen, Function.comp_apply, aggregate, first, combine_isSome, List.map_map, List.any_map]
  rfl

/-- The bars are those of the bins with an open. -/
theorem resample_rows (df : BarFrame) (rule : Rule) (origin : Origin) (dayGroup : Bool) :
    (resample df rule origin dayGroup).rows = ((allBins df rule origin dayGroup).filter hasOpen).map (barOf df.hasOi) := by
  rw [resample, allBins]
  cases dayGroup with
  | true =>
    simp only [if_true, resampleBins_eq, List.filter_flatMap, List.map_flatMap, List.map_map]
    rfl
  | false =>
    simp only [Bool.false_eq_true, if_false, resampleBins_eq, List.map_map]
    rfl

theorem dayOf_mono {t u : Int} (h : t ≤ u) : dayOf t ≤ dayOf u := Int.ediv_le_ediv (by decide) h

private theorem sorted_days (indexed : List (Int × BarValues)) :
    (sortBy Prod.fst indexed).Pairwise fun r r' => dayOf r.1 ≤ dayOf r'.1 :=
  (pairwise_sortBy Prod.fst indexed).imp dayOf_mono

private theorem days_lt (indexed : List (Int × BarValues)) :
    (uniques ((sortBy Prod.fst indexed).map fun r => dayOf r.1)).Pairwise (· < ·) := by
  have hkeys := keys_groups (sorted_days indexed)
  rw [groups, List.map_map] at hkeys
  rwa [← List.map_id (uniques _)]

/-- The days are those of the rows in the order of time. -/
private theorem days_eq (indexed : List (Int × BarValues)) :
    days indexed = uniques ((sortBy Prod.fst indexed).map fun r => dayOf r.1) := by
  apply sortBy_id_eq ((days_lt indexed).imp le_of_lt)
  rw [List.perm_ext_iff_of_nodup (nodup_uniques _) (nodup_uniques _)]
  intro day
  rw [mem_uniques, mem_uniques]
  exact ((perm_sortBy Prod.fst indexed).map _).mem_iff.symm

/-- The rows of the bins are the rows of the frame in the order of time. -/
theorem flatten_allBins (df : BarFrame) (rule : Rule) (origin : Origin) (dayGroup : Bool) :
    (allBins df rule origin dayGroup).flatMap Prod.snd = sortBy Prod.fst df.indexed := by
  rw [allBins]
  cases dayGroup with
  | true =>
    rw [if_pos rfl, List.flatMap_assoc, ← flatten_groups (sorted_days df.indexed), groups, List.flatMap_map, days_eq]
    apply List.flatMap_congr
    intro day _
    rw [flatten_bins, sortBy_filter]
  | false => exact flatten_bins _ _

/-- The rows of a bin are those of its edge, and of its day if the days are taken apart. -/
theorem mem_allBins {bin : Int × List (Int × BarValues)} (h : bin ∈ allBins df rule origin dayGroup) :
    ∃ r ∈ bin.2, ∀ r', r' ∈ bin.2 ↔ r' ∈ df.indexed ∧ edgeOf df rule origin dayGroup r'.1 = bin.1 ∧
      (dayGroup = true → dayOf r'.1 = dayOf r.1) := by
  rw [allBins] at h
  cases dayGroup with
  | true =>
    obtain ⟨day, -, hbin⟩ := List.mem_flatMap.mp h
    obtain ⟨hne, hrows⟩ := mem_bins hbin
    obtain ⟨r, hr⟩ := List.exists_mem_of_ne_nil _ hne
    simp only [List.mem_filter, decide_eq_true_eq] at hrows
    have hday := ((hrows r).mp hr).1.2
    refine ⟨r, hr, fun r' => ?_⟩
    rw [hrows, hday, edgeOf, if_pos rfl, and_assoc]
    refine and_congr_right fun _ => ⟨?_, ?_⟩
    · rintro ⟨hday', hedge⟩
      rw [hday']
      exact ⟨hedge, fun _ => rfl⟩
    · rintro ⟨hedge, hday'⟩
      rw [hday' rfl] at hedge
      exact ⟨hday' rfl, hedge⟩
  | false =>
    obtain ⟨hne, hrows⟩ := mem_bins h
    obtain ⟨r, hr⟩ := List.exists_mem_of_ne_nil _ hne
    refine ⟨r, hr, fun r' => ?_⟩
    rw [hrows]
    exact and_congr_right fun _ => ⟨fun hedge => ⟨hedge, fun hday => nomatch hday⟩, fun hedge => hedge.1⟩

/-- The labels go up if the bins of a day end before those of a later one. -/
private theorem labels_allBins (h : dayGroup = true → ∀ r ∈ df.indexed, ∀ r' ∈ df.indexed, dayOf r.1 < dayOf r'.1 →
    edgeOf df rule origin dayGroup r.1 < edgeOf df rule origin dayGroup r'.1) :
    (allBins df rule origin dayGroup).Pairwise fun bin bin' => bin.1 < bin'.1 := by
  rw [allBins]
  cases dayGroup with
  | true =>
    rw [if_pos rfl, List.pairwise_flatMap]
    refine ⟨fun day _ => labels_bins _ _, ?_⟩
    rw [days_eq]
    refine (days_lt df.indexed).imp fun {day day'} hlt bin hbin bin' hbin' => ?_
    obtain ⟨hne, hrows⟩ := mem_bins hbin
    obtain ⟨hne', hrows'⟩ := mem_bins hbin'
    obtain ⟨r, hr⟩ := List.exists_mem_of_ne_nil _ hne
    obtain ⟨r', hr'⟩ := List.exists_mem_of_ne_nil _ hne'
    simp only [List.mem_filter, decide_eq_true_eq] at hrows hrows'
    obtain ⟨⟨hmem, rfl⟩, hedge⟩ := (hrows r).mp hr
    obtain ⟨⟨hmem', rfl⟩, hedge'⟩ := (hrows' r').mp hr'
    have hedges := h rfl r hmem r' hmem' hlt
    rw [edgeOf, edgeOf, if_pos rfl, if_pos rfl] at hedges
    rw [← hedge, ← hedge']
    exact hedges
  | false => exact labels_bins _ _

private theorem isSome_open (hasOi : Bool) (bin : Int × List (Int × BarValues)) :
    (barOf hasOi bin).open_.isSome = hasOpen bin := by
  rw [barOf, aggregate, first, combine_isSome, List.map_map, List.any_map]
  rfl

/-- The volume of the bars of some bins is that of their rows. -/
private theorem total_bars (hasOi : Bool) (cut : List (Int × List (Int × BarValues))) :
    total ((cut.map (barOf hasOi)).map (·.volume)) = total ((cut.flatMap Prod.snd).map fun r => r.2.volume) := by
  induction cut with
  | nil => rfl
  | cons bin cut ih =>
    have hbin : (barOf hasOi bin).volume = some (total (bin.2.map fun r => r.2.volume)) :=
      congrArg (fun xs => some (total xs)) List.map_map
    rw [List.flatMap_cons, List.map_append, total_append, ← ih, List.map_cons, List.map_cons, hbin, total, List.map_cons,
      List.sum_cons]
    rfl

/-- Every bin has an open if every row shares its bin with one. -/
theorem filter_hasOpen (h : ∀ r ∈ df.indexed, ∃ r' ∈ df.indexed,
      edgeOf df rule origin dayGroup r'.1 = edgeOf df rule origin dayGroup r.1 ∧
        (dayGroup = true → dayOf r'.1 = dayOf r.1) ∧ r'.2.open_.isSome) :
    (allBins df rule origin dayGroup).filter hasOpen = allBins df rule origin dayGroup := by
  rw [List.filter_eq_self]
  intro bin hbin
  obtain ⟨r, hr, hrows⟩ := mem_allBins hbin
  obtain ⟨hmem, hedge, -⟩ := (hrows r).mp hr
  obtain ⟨r', hmem', hedge', hday, hopen⟩ := h r hmem
  exact List.any_eq_true.mpr ⟨r', (hrows r').mpr ⟨hmem', hedge'.trans hedge, hday⟩, hopen⟩

private theorem conserves_of_separate (h : Separate df rule origin dayGroup) : Conserves df rule origin dayGroup := by
  have hrows := resample_rows df rule origin dayGroup
  rw [filter_hasOpen h.opens] at hrows
  refine ⟨(allBins df rule origin dayGroup).map fun bin => (barOf df.hasOi bin, bin.2), ?_, ?_, ?_, ?_, ?_, ?_, ?_⟩
  · rw [hrows, List.map_map]
    rfl
  · intro p hp
    obtain ⟨bin, -, rfl⟩ := List.mem_map.mp hp
    exact isBar_aggregate _ _
  · intro p hp r hr
    obtain ⟨bin, hbin, rfl⟩ := List.mem_map.mp hp
    obtain ⟨r₀, -, hbins⟩ := mem_allBins hbin
    exact congrArg some ((hbins r).mp hr).2.1.symm
  · rw [List.flatMap_map]
    exact flatten_allBins df rule origin dayGroup
  · rw [hrows, total_bars, flatten_allBins]
    exact total_perm ((perm_sortBy _ _).map _)
  · rw [hrows, List.pairwise_map]
    exact (labels_allBins h.apart).imp fun hlt => ⟨_, _, rfl, rfl, hlt⟩
  · intro hday p hp r hr r' hr'
    obtain ⟨bin, hbin, rfl⟩ := List.mem_map.mp hp
    obtain ⟨r₀, -, hbins⟩ := mem_allBins hbin
    rw [((hbins r).mp hr).2.2 hday, ((hbins r').mp hr').2.2 hday]

/-- A bar with the row of a time is before that of a row of a later day. -/
private theorem before_of_day {cut : List (BarRow × List (Int × BarValues))} (h : Conserved df rule origin true cut)
    {p p' : BarRow × List (Int × BarValues)} (hp : p ∈ cut) (hp' : p' ∈ cut) {r r' : Int × BarValues} (hr : r ∈ p.2)
    (hr' : r' ∈ p'.2) (hday : dayOf r.1 < dayOf r'.1) :
    ∃ t t', p.1.timestamp = some t ∧ p'.1.timestamp = some t' ∧ t < t' := by
  let Before (p p' : BarRow × List (Int × BarValues)) : Prop :=
    (∀ r ∈ p.2, ∀ r' ∈ p'.2, r.1 ≤ r'.1) ∧ ∃ t t', p.1.timestamp = some t ∧ p'.1.timestamp = some t' ∧ t < t'
  have hsorted := pairwise_sortBy Prod.fst df.indexed
  rw [← h.counted, List.pairwise_flatMap] at hsorted
  have hincreasing := h.increasing
  rw [h.bars, List.pairwise_map] at hincreasing
  have hsymm : Std.Symm fun p p' => Before p p' ∨ Before p' p := ⟨fun _ _ => Or.symm⟩
  have heither : cut.Pairwise fun p p' => Before p p' ∨ Before p' p := (hsorted.2.and hincreasing).imp Or.inl
  have hne : p ≠ p' := by
    rintro rfl
    exact hday.ne (h.oneDay rfl p hp r hr r' hr')
  rcases heither.forall hp hp' hne with hbefore | hafter
  · exact hbefore.2
  · exact absurd (dayOf_mono (hafter.1 r' hr' r hr)) (not_le.mpr hday)

private theorem separate_of_conserves (h : Conserves df rule origin dayGroup) : Separate df rule origin dayGroup := by
  obtain ⟨cut, hcut⟩ := h
  have hbin (r : Int × BarValues) (hr : r ∈ df.indexed) : ∃ p ∈ cut, r ∈ p.2 := by
    rw [← List.mem_flatMap, hcut.counted]
    exact (perm_sortBy _ _).mem_iff.mpr hr
  have hmem (p : BarRow × List (Int × BarValues)) (hp : p ∈ cut) (r : Int × BarValues) (hr : r ∈ p.2) : r ∈ df.indexed := by
    rw [← (perm_sortBy Prod.fst df.indexed).mem_iff, ← hcut.counted]
    exact List.mem_flatMap.mpr ⟨p, hp, hr⟩
  constructor
  · intro r hr
    obtain ⟨p, hp, hrp⟩ := hbin r hr
    have hbar : p.1 ∈ (resample df rule origin dayGroup).rows := by
      rw [hcut.bars]
      exact List.mem_map_of_mem hp
    rw [resample_rows] at hbar
    obtain ⟨bin, hopen, heq⟩ := List.mem_map.mp hbar
    have hsome : p.1.open_.isSome := by
      rw [← heq, isSome_open]
      exact (List.mem_filter.mp hopen).2
    obtain ⟨x, hx⟩ := Option.isSome_iff_exists.mp hsome
    rw [(hcut.isBar p hp).open_] at hx
    obtain ⟨values, hvalues, hval⟩ := List.mem_filterMap.mp (List.mem_of_head? hx)
    obtain ⟨r', hr', rfl⟩ := List.mem_map.mp hvalues
    refine ⟨r', hmem p hp r' hr', ?_, fun hday => hcut.oneDay hday p hp r' hr' r hrp, by rw [hval]; rfl⟩
    have hlabel := hcut.labelled p hp r hrp
    rw [hcut.labelled p hp r' hr'] at hlabel
    exact Option.some.inj hlabel
  · rintro rfl r hr r' hr' hday
    obtain ⟨p, hp, hrp⟩ := hbin r hr
    obtain ⟨p', hp', hrp'⟩ := hbin r' hr'
    obtain ⟨t, t', ht, ht', hlt⟩ := before_of_day hcut hp hp' hrp hrp' hday
    rw [hcut.labelled p hp r hrp] at ht
    rw [hcut.labelled p' hp' r' hrp'] at ht'
    rwa [Option.some.inj ht, Option.some.inj ht']

end Bins

/-- Resampling conserves the bars of a frame exactly if every row shares its bin with one that has an open, and the bins
of each day end before those of a later one. -/
theorem resample_conserves_iff (df : BarFrame) (rule : Rule) (origin : Origin) (dayGroup : Bool) :
    Conserves df rule origin dayGroup ↔ Separate df rule origin dayGroup :=
  ⟨separate_of_conserves, conserves_of_separate⟩

private def flatBar (hour minute : Int) : BarRow :=
  { timestamp := some (1785715200000000 + (hour * 3600 + minute * 60) * MICROS), open_ := some 100, high := some 100,
    low := some 100, close := some 100, volume := some 10 }

private def hourly : Rule := .every (3600 * MICROS) (by decide)

/-- Before and after midnight there are two bars of one hour, both labelled 00:15. -/
theorem midnight_labels_collide : ¬ Conserves { rows := [flatBar 23 50, flatBar 24 5] } hourly {} true := by
  rintro ⟨cut, h⟩
  have hrows : ((resample { rows := [flatBar 23 50, flatBar 24 5] } hourly {} true).rows.map (·.timestamp)) =
      [(flatBar 24 15).timestamp, (flatBar 24 15).timestamp] := by decide +kernel
  have hincreasing := h.increasing
  rw [← List.pairwise_map (R := fun t t' => ∃ x y, t = some x ∧ t' = some y ∧ x < y), hrows] at hincreasing
  obtain ⟨t, t', ht, ht', hlt⟩ := (List.pairwise_cons.mp hincreasing).1 _ List.mem_cons_self
  rw [ht] at ht'
  exact hlt.ne (Option.some.inj ht')

end NTrade.Domain.Ohlcv
