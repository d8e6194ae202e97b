import NTrade.Domain.BarConservation

/-! Bars of bars: resampling twice puts each row at the right edge of its first bin, from where the second rule bins it. -/
namespace NTrade.Domain.Ohlcv
open NTrade.Lib NTrade.Lib.Grouping NTrade.Lib.LastWrite

/-- The rows of a frame at the right edges of their bins; those of a bin without an open are left out. -/
def atEdges (df : BarFrame) (rule : Rule) (origin : Origin) (dayGroup : Bool) : BarFrame :=
  { df with
    rows := ((allBins df rule origin dayGroup).filter hasOpen).flatMap fun bin =>
      bin.2.map fun r => { r.2 with timestamp := some bin.1 } }

/-- Every row shares its bin under the first rule with one that has an open, and that bin ends inside the bin of the row
under the second. -/
structure Nested (df : BarFrame) (a b : Rule) (origin : Origin) (dayGroup : Bool) : Prop where
  opens : ∀ r ∈ df.indexed, ∃ r' ∈ df.indexed, edgeOf df a origin dayGroup r'.1 = edgeOf df a origin dayGroup r.1 ∧
    (dayGroup = true → dayOf r'.1 = dayOf r.1) ∧ r'.2.open_.isSome
  inside : ∀ r ∈ df.indexed, edgeOf (atEdges df a origin dayGroup) b origin dayGroup (edgeOf df a origin dayGroup r.1) =
    edgeOf df b origin dayGroup r.1
  sameDay : dayGroup = true → ∀ r ∈ df.indexed, dayOf (edgeOf df a origin dayGroup r.1) = dayOf r.1

section Aggregates

private theorem combine_flatMap {f : Rat → Rat → Rat} [Std.Associative f] (g : BarValues → Option Rat)
    (binned : List (List BarValues)) :
    combine f (binned.map fun rows => combine f (rows.map g)) = combine f (binned.flatten.map g) := by
  rw [List.map_flatten, combine_flatten, List.map_map]
  rfl

private theorem total_flatMap (g : BarValues → Option Rat) (binned : List (List BarValues)) :
    total (binned.map fun rows => some (total (rows.map g))) = total (binned.flatten.map g) := by
  induction binned with
  | nil => rfl
  | cons rows binned ih =>
    rw [List.flatten_cons, List.map_append, total_append, ← ih, total, List.map_cons, List.map_cons, List.sum_cons]
    rfl

/-- Bars that are aggregated are their rows aggregated. -/
theorem aggregate_aggregate (hasOi : Bool) (binned : List (List BarValues)) :
    aggregate hasOi (binned.map (aggregate hasOi)) = aggregate hasOi binned.flatten := by
  have hfirst : Std.Associative fun (a _ : Rat) => a := ⟨fun _ _ _ => rfl⟩
  have hlast : Std.Associative fun (_ b : Rat) => b := ⟨fun _ _ _ => rfl⟩
  rw [aggregate, aggregate, BarValues.mk.injEq]
  simp only [List.map_map]
  refine ⟨combine_flatMap (·.open_) binned, combine_flatMap (·.high) binned, combine_flatMap (·.low) binned,
    combine_flatMap (·.close) binned, congrArg some (total_flatMap (·.volume) binned), ?_⟩
  cases hasOi with
  | true => exact congrArg some (total_flatMap (·.oi) binned)
  | false => rfl

end Aggregates

section Expanded

/-- Values at labels, taken together for each label, or one by one. -/
private def merged (hasOi : Bool) (labelled : List (Int × List BarValues)) : List (Int × BarValues) :=
  labelled.map fun l => (l.1, aggregate hasOi l.2)

private def expanded (labelled : List (Int × List BarValues)) : List (Int × BarValues) :=
  labelled.flatMap fun l => l.2.map fun values => (l.1, values)

private theorem filter_merged (hasOi : Bool) (p : Int → Bool) (labelled : List (Int × List BarValues)) :
    (merged hasOi labelled).filter (fun r => p r.1) = merged hasOi (labelled.filter fun l => p l.1) := by
  rw [merged, List.filter_map]
  rfl

private theorem filter_expanded (p : Int → Bool) (labelled : List (Int × List BarValues)) :
    (expanded labelled).filter (fun r => p r.1) = expanded (labelled.filter fun l => p l.1) := by
  induction labelled with
  | nil => rfl
  | cons l labelled ih =>
    have hcons : expanded (l :: labelled) = l.2.map (fun values => (l.1, values)) ++ expanded labelled := rfl
    rw [hcons, List.filter_append, ih, List.filter_map, List.filter_cons]
    cases hp : p l.1 with
    | true => simp [Function.comp_def, hp, expanded]
    | false => simp [Function.comp_def, hp]

private theorem values_merged (hasOi : Bool) (labelled : List (Int × List BarValues)) :
    (merged hasOi labelled).map Prod.snd = (labelled.map Prod.snd).map (aggregate hasOi) := by
  rw [merged, List.map_map, List.map_map]
  rfl

private theorem values_expanded (labelled : List (Int × List BarValues)) :
    (expanded labelled).map Prod.snd = (labelled.map Prod.snd).flatten := by
  rw [expanded, List.map_flatMap, List.flatMap_def]
  congr 1
  apply List.map_congr_left
  intro l _
  rw [List.map_map]
  exact List.map_id _

private theorem sortBy_merged (hasOi : Bool) (labelled : List (Int × List BarValues)) :
    sortBy Prod.fst (merged hasOi labelled) = merged hasOi (sortBy Prod.fst labelled) := by
  apply sortBy_eq
  · exact List.pairwise_map.mpr (pairwise_sortBy Prod.fst labelled)
  · intro t
    rw [filter_merged hasOi (fun k => k = t), filter_merged hasOi (fun k => k = t), filter_sortBy]

private theorem sortBy_expanded (labelled : List (Int × List BarValues)) :
    sortBy Prod.fst (expanded labelled) = expanded (sortBy Prod.fst labelled) := by
  apply sortBy_eq
  · rw [expanded, List.pairwise_flatMap]
    refine ⟨fun l _ => List.pairwise_map.mpr (List.pairwise_of_forall fun _ _ => le_refl l.1), ?_⟩
    refine (pairwise_sortBy Prod.fst labelled).imp fun {l l'} hle r hr r' hr' => ?_
    obtain ⟨_, -, rfl⟩ := List.mem_map.mp hr
    obtain ⟨_, -, rfl⟩ := List.mem_map.mp hr'
    exact hle
  · intro t
    rw [filter_expanded (fun k => k = t), filter_expanded (fun k => k = t), filter_sortBy]

variable {labelled : List (Int × List BarValues)}

private theorem time_mem_merged (hasOi : Bool) (t : Int) : t ∈ (merged hasOi labelled).map Prod.fst ↔ t ∈ labelled.map Prod.fst := by
  rw [merged, List.map_map]
  rfl

private theorem time_mem_expanded (hne : ∀ l ∈ labelled, l.2 ≠ []) (t : Int) :
    t ∈ (expanded labelled).map Prod.fst ↔ t ∈ labelled.map Prod.fst := by
  simp only [expanded, List.map_flatMap, List.mem_flatMap, List.mem_map]
  constructor
  · rintro ⟨l, hl, _, ⟨values, -, rfl⟩, rfl⟩
    exact ⟨l, hl, rfl⟩
  · rintro ⟨l, hl, rfl⟩
    obtain ⟨values, hvalues⟩ := List.exists_mem_of_ne_nil _ (hne l hl)
    exact ⟨l, hl, _, ⟨values, hvalues, rfl⟩, rfl⟩

/-- The bins of merged values and of the values one by one give the same bars. -/
private theorem resampleBins_expanded (edges : Edges) (hasOi : Bool) (hne : ∀ l ∈ labelled, l.2 ≠ []) :
    resampleBins edges hasOi (merged hasOi labelled) = resampleBins edges hasOi (expanded labelled) := by
  have hsort := perm_sortBy Prod.fst labelled
  have hne' : ∀ l ∈ sortBy Prod.fst labelled, l.2 ≠ [] := fun l hl => hne l (hsort.mem_iff.mp hl)
  have horder := pairwise_sortBy Prod.fst (merged hasOi labelled)
  have horder' := pairwise_sortBy Prod.fst (expanded labelled)
  rw [resampleBins, resampleBins, bins, bins]
  rw [sortBy_merged] at horder ⊢
  rw [sortBy_expanded] at horder' ⊢
  generalize sortBy Prod.fst labelled = sorted at hne' horder horder'
  have hkeys : uniques ((merged hasOi sorted).map fun r => edges.right r.1) =
      uniques ((expanded sorted).map fun r => edges.right r.1) := by
    apply uniques_congr (List.pairwise_map.mpr (horder.imp edges.right_mono))
      (List.pairwise_map.mpr (horder'.imp edges.right_mono))
    intro k
    have hmap (xs : List (Int × BarValues)) : (xs.map fun r => edges.right r.1) = (xs.map Prod.fst).map edges.right := by
      rw [List.map_map]
      rfl
    rw [hmap, hmap, List.mem_map, List.mem_map]
    simp only [time_mem_merged, time_mem_expanded hne']
  rw [groups, groups, hkeys, List.map_map, List.map_map]
  congr 1
  apply List.map_congr_left
  intro k _
  have hbin : ((merged hasOi sorted).filter fun r => edges.right r.1 = k) =
      merged hasOi (sorted.filter fun l => edges.right l.1 = k) := filter_merged hasOi (fun t => edges.right t = k) sorted
  have hbin' : ((expanded sorted).filter fun r => edges.right r.1 = k) =
      expanded (sorted.filter fun l => edges.right l.1 = k) := filter_expanded (fun t => edges.right t = k) sorted
  rw [Function.comp_apply, Function.comp_apply, hbin, hbin', values_merged, values_expanded, aggregate_aggregate]

end Expanded

section Frames

private def barsOf (hasOi : Bool) (rule : Rule) (origin : Origin) (dayGroup : Bool) (indexed : List (Int × BarValues)) :
    List (Int × BarValues) :=
  if dayGroup then (days indexed).flatMap fun day =>
    resampleBins (rule.edges (dayOrigin day origin)) hasOi (indexed.filter fun r => dayOf r.1 = day)
  else resampleBins (rule.edges (startDay indexed)) hasOi indexed

private theorem resample_eq (df : BarFrame) (rule : Rule) (origin : Origin) (dayGroup : Bool) :
    resample df rule origin dayGroup =
      { df with rows := (barsOf df.hasOi rule origin dayGroup df.indexed).map fun bar =>
          { bar.2 with timestamp := some bar.1 } } := rfl

private theorem days_congr {xs ys : List (Int × BarValues)}
    (h : ∀ day, day ∈ xs.map (fun r => dayOf r.1) ↔ day ∈ ys.map fun r => dayOf r.1) : days xs = days ys := by
  apply sortBy_id_eq (pairwise_sortBy id _)
  refine List.Perm.trans ?_ (perm_sortBy id _).symm
  rw [List.perm_ext_iff_of_nodup (nodup_uniques _) (nodup_uniques _)]
  intro day
  rw [mem_uniques, mem_uniques, h]

private theorem startDay_congr {xs ys : List (Int × BarValues)} (h : ∀ t, t ∈ xs.map Prod.fst ↔ t ∈ ys.map Prod.fst) :
    startDay xs = startDay ys := by
  have hmin : (xs.map Prod.fst).min? = (ys.map Prod.fst).min? := by
    cases hy : (ys.map Prod.fst).min? with
    | none =>
      rw [List.min?_eq_none_iff] at hy ⊢
      rw [hy] at h
      exact List.eq_nil_iff_forall_not_mem.mpr fun t ht => List.not_mem_nil ((h t).mp ht)
    | some m =>
      rw [List.min?_eq_some_iff] at hy ⊢
      exact ⟨(h m).mpr hy.1, fun t ht => hy.2 t ((h t).mp ht)⟩
  rw [startDay, startDay, hmin]

private theorem barsOf_expanded {labelled : List (Int × List BarValues)} (hasOi : Bool) (rule : Rule) (origin : Origin)
    (dayGroup : Bool) (hne : ∀ l ∈ labelled, l.2 ≠ []) :
    barsOf hasOi rule origin dayGroup (merged hasOi labelled) = barsOf hasOi rule origin dayGroup (expanded labelled) := by
  have htimes (t : Int) : t ∈ (merged hasOi labelled).map Prod.fst ↔ t ∈ (expanded labelled).map Prod.fst := by
    rw [time_mem_merged, time_mem_expanded hne]
  rw [barsOf, barsOf]
  cases dayGroup with
  | true =>
    have hdays (day : Int) : day ∈ (merged hasOi labelled).map (fun r => dayOf r.1) ↔
        day ∈ (expanded labelled).map fun r => dayOf r.1 := by
      have hmap (zs : List (Int × BarValues)) : (zs.map fun r => dayOf r.1) = (zs.map Prod.fst).map dayOf := by
        rw [List.map_map]
        rfl
      rw [hmap, hmap, List.mem_map, List.mem_map]
      simp only [htimes]
    rw [if_pos rfl, if_pos rfl, days_congr hdays]
    apply List.flatMap_congr
    intro day _
    have hday : ((merged hasOi labelled).filter fun r => dayOf r.1 = day) =
        merged hasOi (labelled.filter fun l => dayOf l.1 = day) := filter_merged hasOi (fun t => dayOf t = day) labelled
    have hday' : ((expanded labelled).filter fun r => dayOf r.1 = day) =
        expanded (labelled.filter fun l => dayOf l.1 = day) := filter_expanded (fun t => dayOf t = day) labelled
    rw [hday, hday']
    exact resampleBins_expanded _ hasOi fun l hl => hne l (List.mem_filter.mp hl).1
  | false =>
    rw [if_neg Bool.false_ne_true, if_neg Bool.false_ne_true, startDay_congr htimes]
    exact resampleBins_expanded _ hasOi hne

variable (df : BarFrame) (a b : Rule) (origin : Origin) (dayGroup : Bool)

private def kept : List (Int × List BarValues) :=
  ((allBins df a origin dayGroup).filter hasOpen).map fun bin => (bin.1, bin.2.map Prod.snd)

private theorem indexed_resample : (resample df a origin dayGroup).indexed = merged df.hasOi (kept df a origin dayGroup) := by
  rw [BarFrame.indexed, resample_rows, List.filterMap_map, merged, kept, List.map_map, ← List.filterMap_eq_map]
  rfl

private theorem indexed_atEdges : (atEdges df a origin dayGroup).indexed = expanded (kept df a origin dayGroup) := by
  rw [BarFrame.indexed, atEdges, expanded, kept, List.flatMap_map, List.filterMap_flatMap]
  apply List.flatMap_congr
  intro bin _
  rw [List.filterMap_map, List.map_map, ← List.filterMap_eq_map]
  rfl

/-- Resampling bars is resampling their rows at the right edges. -/
private theorem resample_bars :
    resample (resample df a origin dayGroup) b origin dayGroup = resample (atEdges df a origin dayGroup) b origin dayGroup := by
  have hne : ∀ l ∈ kept df a origin dayGroup, l.2 ≠ [] := by
    intro l hl
    obtain ⟨bin, hbin, rfl⟩ := List.mem_map.mp hl
    obtain ⟨r, hr, -⟩ := mem_allBins (List.mem_filter.mp hbin).1
    exact List.ne_nil_of_mem (List.mem_map_of_mem hr)
  rw [resample_eq (resample df a origin dayGroup), resample_eq (atEdges df a origin dayGroup), indexed_resample,
    indexed_atEdges]
  have hbars := barsOf_expanded df.hasOi b origin dayGroup hne
  exact congrArg (fun bars : List (Int × BarValues) => BarFrame.mk df.hasOi
    (bars.map fun bar => { bar.2 with timestamp := some bar.1 })) hbars

variable {df : BarFrame} {a b : Rule} {origin : Origin} {dayGroup : Bool}

private def atEdge (df : BarFrame) (a : Rule) (origin : Origin) (dayGroup : Bool) (r : Int × BarValues) : Int × BarValues :=
  (edgeOf df a origin dayGroup r.1, r.2)

/-- If every bin has an open, the rows at the edges are all rows. -/
private theorem indexed_atEdges_all (h : ∀ r ∈ df.indexed, ∃ r' ∈ df.indexed,
      edgeOf df a origin dayGroup r'.1 = edgeOf df a origin dayGroup r.1 ∧
        (dayGroup = true → dayOf r'.1 = dayOf r.1) ∧ r'.2.open_.isSome) :
    (atEdges df a origin dayGroup).indexed = (sortBy Prod.fst df.indexed).map (atEdge df a origin dayGroup) := by
  rw [← flatten_allBins df a origin dayGroup, List.map_flatMap, indexed_atEdges, kept, filter_hasOpen h, expanded,
    List.flatMap_map]
  apply List.flatMap_congr
  intro bin hbin
  obtain ⟨r₀, -, hrows⟩ := mem_allBins hbin
  rw [List.map_map]
  apply List.map_congr_left
  intro r hr
  exact congrArg (·, r.2) ((hrows r).mp hr).2.1.symm

/-- Rows that are moved in their order, inside their bins, give the same bars. -/
private theorem resampleBins_moved {edges edges' : Edges} {f : Int × BarValues → Int × BarValues}
    {xs : List (Int × BarValues)} (hasOi : Bool) (hvalues : ∀ r, (f r).2 = r.2)
    (hedges : ∀ r ∈ sortBy Prod.fst xs, edges'.right (f r).1 = edges.right r.1)
    (hsorted : ((sortBy Prod.fst xs).map f).Pairwise fun r r' => r.1 ≤ r'.1) :
    resampleBins edges' hasOi ((sortBy Prod.fst xs).map f) = resampleBins edges hasOi xs := by
  rw [resampleBins, resampleBins, bins, bins, sortBy_eq_self Prod.fst hsorted]
  generalize sortBy Prod.fst xs = sorted at hedges
  have hkeys : (sorted.map f).map (fun r => edges'.right r.1) = sorted.map fun r => edges.right r.1 := by
    rw [List.map_map]
    exact List.map_congr_left hedges
  rw [groups, groups, hkeys, List.map_map, List.map_map]
  congr 1
  apply List.map_congr_left
  intro k _
  have hbin : (sorted.map f).filter (fun r => edges'.right r.1 = k) = (sorted.filter fun r => edges.right r.1 = k).map f := by
    rw [List.filter_map]
    congr 1
    apply List.filter_congr
    intro r hr
    rw [Function.comp_apply, hedges r hr]
  have hcolumn : ((sorted.filter fun r => edges.right r.1 = k).map f).map Prod.snd =
      (sorted.filter fun r => edges.right r.1 = k).map Prod.snd := by
    rw [List.map_map]
    exact List.map_congr_left fun r _ => hvalues r
  rw [Function.comp_apply, Function.comp_apply, hbin, hcolumn]

private theorem barsOf_nested (h : Nested df a b origin dayGroup) :
    barsOf df.hasOi b origin dayGroup (atEdges df a origin dayGroup).indexed =
      barsOf df.hasOi b origin dayGroup df.indexed := by
  have hmem (r : Int × BarValues) (hr : r ∈ sortBy Prod.fst df.indexed) : r ∈ df.indexed := (perm_sortBy _ _).mem_iff.mp hr
  have hall := indexed_atEdges_all h.opens
  have hinside := h.inside
  rw [barsOf, barsOf]
  cases dayGroup with
  | true =>
    have hday := h.sameDay rfl
    have hdays : days ((sortBy Prod.fst df.indexed).map (atEdge df a origin true)) = days df.indexed := by
      apply days_congr
      intro day
      have hsame : ((sortBy Prod.fst df.indexed).map (atEdge df a origin true)).map (fun r => dayOf r.1) =
          (sortBy Prod.fst df.indexed).map fun r => dayOf r.1 := by
        rw [List.map_map]
        exact List.map_congr_left fun r hr => hday r (hmem r hr)
      rw [hsame]
      exact ((perm_sortBy Prod.fst df.indexed).map _).mem_iff
    rw [if_pos rfl, if_pos rfl, hall, hdays]
    apply List.flatMap_congr
    intro day _
    have hrows (r : Int × BarValues) (hr : r ∈ sortBy Prod.fst (df.indexed.filter fun r => dayOf r.1 = day)) :
        r ∈ df.indexed ∧ dayOf r.1 = day := by
      obtain ⟨hindexed, hd⟩ := List.mem_filter.mp ((perm_sortBy _ _).mem_iff.mp hr)
      exact ⟨hindexed, of_decide_eq_true hd⟩
    have hfilter : ((sortBy Prod.fst df.indexed).map (atEdge df a origin true)).filter (fun r => dayOf r.1 = day) =
        (sortBy Prod.fst (df.indexed.filter fun r => dayOf r.1 = day)).map (atEdge df a origin true) := by
      rw [List.filter_map, sortBy_filter]
      congr 1
      apply List.filter_congr
      intro r hr
      exact congrArg (fun d => decide (d = day)) (hday r (hmem r hr))
    rw [hfilter]
    have hvalues (r : Int × BarValues) : (atEdge df a origin true r).2 = r.2 := rfl
    apply resampleBins_moved df.hasOi hvalues
    · intro r hr
      obtain ⟨hindexed, hd⟩ := hrows r hr
      have hedge := hinside r hindexed
      have hright : edgeOf df b origin true r.1 = (b.edges (dayOrigin day origin)).right r.1 := by
        rw [edgeOf, if_pos rfl, hd]
      rw [hright, edgeOf, if_pos rfl, hday r hindexed, hd] at hedge
      exact hedge
    · rw [List.pairwise_map]
      refine (pairwise_sortBy Prod.fst _).imp_of_mem fun {r r'} hr hr' hle => ?_
      rw [atEdge, atEdge, edgeOf, edgeOf, if_pos rfl, if_pos rfl, (hrows r hr).2, (hrows r' hr').2]
      exact Edges.right_mono _ hle
  | false =>
    rw [if_neg Bool.false_ne_true, if_neg Bool.false_ne_true]
    have hsorted : ((sortBy Prod.fst df.indexed).map (atEdge df a origin false)).Pairwise fun r r' => r.1 ≤ r'.1 :=
      List.pairwise_map.mpr ((pairwise_sortBy Prod.fst df.indexed).imp fun hle => Edges.right_mono _ hle)
    have hvalues (r : Int × BarValues) : (atEdge df a origin false r).2 = r.2 := rfl
    have hedges (r : Int × BarValues) (hr : r ∈ sortBy Prod.fst df.indexed) :
        (b.edges (startDay (atEdges df a origin false).indexed)).right (atEdge df a origin false r).1 =
          (b.edges (startDay df.indexed)).right r.1 := hinside r (hmem r hr)
    have hmoved := resampleBins_moved df.hasOi hvalues hedges hsorted
    rw [← hall] at hmoved
    exact hmoved

end Frames

section Multiples

variable {df : BarFrame} {origin : Origin} {dayGroup : Bool} {micros k : Int}

/-- Where the edges of one rule are among those of another, a bin ends inside a larger one unless it is its last. -/
theorem every_inside (pos : 0 < micros) (hk : 0 < k) {start t : Int}
    (h : (Edges.every micros pos start).right t ≠ (Edges.every (k * micros) (Int.mul_pos hk pos) start).right t) :
    (Edges.every (k * micros) (Int.mul_pos hk pos) start).right ((Edges.every micros pos start).right t) =
      (Edges.every (k * micros) (Int.mul_pos hk pos) start).right t := by
  have hle : (Edges.every micros pos start).right t ≤ (Edges.every (k * micros) (Int.mul_pos hk pos) start).right t := by
    have hlt := Int.lt_ediv_add_one_mul_self (t - start) (Int.mul_pos hk pos)
    rw [← Int.mul_assoc] at hlt
    have hdiv := Int.ediv_lt_of_lt_mul pos hlt
    have hmul := Int.mul_le_mul_of_nonneg_right (Int.add_one_le_of_lt hdiv) pos.le
    rw [Int.add_mul, Int.mul_assoc, Int.add_mul] at hmul
    dsimp only [Edges.every]
    omega
  apply Edges.same
  · exact (Edges.left_le _ t).trans (Edges.lt_right _ t).le
  · exact lt_of_le_of_ne hle h

/-- The first row stays the first, on its day. -/
private theorem startDay_atEdges {a : Rule} (hall : (atEdges df a origin false).indexed =
      (sortBy Prod.fst df.indexed).map (atEdge df a origin false))
    (hday : ∀ r ∈ df.indexed, dayOf (edgeOf df a origin false r.1) = dayOf r.1) :
    startDay (atEdges df a origin false).indexed = startDay df.indexed := by
  have hmem (r : Int × BarValues) : r ∈ sortBy Prod.fst df.indexed ↔ r ∈ df.indexed := (perm_sortBy _ _).mem_iff
  rw [startDay, startDay, hall]
  cases hmin : (df.indexed.map Prod.fst).min? with
  | none =>
    have hnil : df.indexed = [] := List.map_eq_nil_iff.mp (List.min?_eq_none_iff.mp hmin)
    rw [hnil]
    rfl
  | some m =>
    obtain ⟨hm, hle⟩ := List.min?_eq_some_iff.mp hmin
    obtain ⟨r, hr, rfl⟩ := List.mem_map.mp hm
    have hmin' : (((sortBy Prod.fst df.indexed).map (atEdge df a origin false)).map Prod.fst).min? =
        some (edgeOf df a origin false r.1) := by
      rw [List.min?_eq_some_iff, List.map_map]
      refine ⟨List.mem_map.mpr ⟨r, (hmem r).mpr hr, rfl⟩, fun t ht => ?_⟩
      obtain ⟨r', hr', rfl⟩ := List.mem_map.mp ht
      exact Edges.right_mono _ (hle r'.1 (List.mem_map_of_mem ((hmem r').mp hr')))
    rw [hmin', Option.getD_some, Option.getD_some, hday r hr]

/-- A rule and a multiple of it: bins are nested if each has an open and ends on the day of its rows, before the larger
bin does. -/
theorem nested_of_multiple (pos : 0 < micros) (hk : 0 < k)
    (hopens : ∀ r ∈ df.indexed, ∃ r' ∈ df.indexed,
      edgeOf df (.every micros pos) origin dayGroup r'.1 = edgeOf df (.every micros pos) origin dayGroup r.1 ∧
        (dayGroup = true → dayOf r'.1 = dayOf r.1) ∧ r'.2.open_.isSome)
    (hday : ∀ r ∈ df.indexed, dayOf (edgeOf df (.every micros pos) origin dayGroup r.1) = dayOf r.1)
    (hends : ∀ r ∈ df.indexed, edgeOf df (.every micros pos) origin dayGroup r.1 ≠
      edgeOf df (.every (k * micros) (Int.mul_pos hk pos)) origin dayGroup r.1) :
    Nested df (.every micros pos) (.every (k * micros) (Int.mul_pos hk pos)) origin dayGroup := by
  refine ⟨hopens, fun r hr => ?_, fun _ => hday⟩
  have hends := hends r hr
  cases dayGroup with
  | true =>
    have hd := hday r hr
    rw [edgeOf, if_pos rfl, hd]
    exact every_inside pos hk hends
  | false =>
    have hstart := startDay_atEdges (indexed_atEdges_all hopens) hday
    rw [edgeOf, if_neg Bool.false_ne_true, hstart]
    exact every_inside pos hk hends

end Multiples

/-- Resampling twice is resampling the rows at the right edges of their first bins, and it is resampling once if these
bins end inside the second ones. -/
theorem resample_twice (df : BarFrame) (a b : Rule) (origin : Origin) (dayGroup : Bool) :
    resample (resample df a origin dayGroup) b origin dayGroup =
        resample (atEdges df a origin dayGroup) b origin dayGroup ∧
      (Nested df a b origin dayGroup →
        resample (resample df a origin dayGroup) b origin dayGroup = resample df b origin dayGroup) := by
  refine ⟨resample_bars df a b origin dayGroup, fun h => ?_⟩
  rw [resample_bars, resample_eq (atEdges df a origin dayGroup), resample_eq df]
  exact congrArg (fun bars : List (Int × BarValues) => BarFrame.mk df.hasOi
    (bars.map fun bar => { bar.2 with timestamp := some bar.1 })) (barsOf_nested h)

private def barAt (second : Int) (price : Rat) : BarRow :=
  { timestamp := some (1785715200000000 + second * MICROS), open_ := some price, high := some price, low := some price,
    close := some price, volume := some 10 }

private def openingBars : BarFrame := { rows := [barAt 33420 100, barAt 33300 102, barAt 33720 99] }

private theorem openingBars_nested :
    Nested openingBars (.every (300 * MICROS) (by decide)) (.every (3600 * MICROS) (by decide)) {} true := by
  apply nested_of_multiple (k := 12) (by decide) (by decide)
  · decide +kernel
  · decide +kernel
  · decide +kernel

/-- Bars of 09:15, 09:17 and 09:22 give one bar of the hour, with the five minutes between or without. -/
theorem five_minutes_stay_in_hour :
    resample (resample openingBars (.every (300 * MICROS) (by decide))) (.every (3600 * MICROS) (by decide)) =
        resample openingBars (.every (3600 * MICROS) (by decide)) ∧
      (resample openingBars (.every (3600 * MICROS) (by decide))).rows =
        [{ barAt 36900 102 with high := some 102, low := some 99, close := some 99, volume := some 30 }] :=
  ⟨(resample_twice openingBars (.every (300 * MICROS) (by decide)) (.every (3600 * MICROS) (by decide)) {} true).2
    openingBars_nested, by decide +kernel⟩

/-- The minute of 10:12 is in the hour up to 10:15, but its five minutes are labelled 10:15, in the hour up to 11:15. -/
theorem five_minutes_leave_hour :
    resample (resample { rows := [barAt 36720 100] } (.every (300 * MICROS) (by decide)))
        (.every (3600 * MICROS) (by decide)) ≠
      resample { rows := [barAt 36720 100] } (.every (3600 * MICROS) (by decide)) := by
  decide +kernel

end NTrade.Domain.Ohlcv
