import NTrade.Lib.Grouping

/-! Rows that are kept in the order of their keys, one of each key: the one that was written last. Whatever way
they are kept up to date, there is one list of them. -/
namespace NTrade.Lib.Latest
open NTrade.Lib.LastWrite NTrade.Lib.Grouping
variable {α κ : Type*} [LinearOrder κ] (key : α → κ)

/-- The rows that are left of what was written: their keys go up, and each is the last written one of its key. -/
structure IsLatest (written rows : List α) : Prop where
  rising : rows.Pairwise fun a b => key a < key b
  last : ∀ k, lastOf key k rows = lastOf key k written

variable {key} {written rows rows' : List α} {r r' : α}

theorem unique_of_rising (h : rows.Pairwise fun a b => key a < key b) : Unique key rows := by
  apply unique_iff_nodup.mpr
  rw [List.Nodup, List.pairwise_map]
  exact h.imp ne_of_lt

theorem isLatest_self (h : rows.Pairwise fun a b => key a < key b) : IsLatest key rows rows := ⟨h, fun _ => rfl⟩

/-- At each key there is the last written row and no other. -/
theorem IsLatest.filter (h : IsLatest key written rows) (k : κ) :
    rows.filter (fun a => key a = k) = (lastOf key k written).toList := by
  rw [unique_of_rising h.rising k, h.last]

/-- What was written leaves one list. -/
theorem IsLatest.eq (h : IsLatest key written rows) (h' : IsLatest key written rows') : rows = rows' := by
  apply RankedSort.eq_of_filter_eq key (h.rising.imp le_of_lt) (h'.rising.imp le_of_lt)
  intro k
  rw [h.filter, h'.filter]

/-- A row beyond all others goes to the end. -/
theorem IsLatest.append (h : IsLatest key written rows) (hr : ∀ a ∈ rows, key a < key r) :
    IsLatest key (written ++ [r]) (rows ++ [r]) where
  rising := by
    apply List.pairwise_append.mpr
    refine ⟨h.rising, List.pairwise_singleton _ _, fun a ha b hb => ?_⟩
    rw [List.mem_singleton.mp hb]
    exact hr a ha
  last k := by rw [lastOf_append, lastOf_append, h.last]

private theorem lastOf_middle (k : κ) (pre suf : List α) (r : α) :
    lastOf key k (pre ++ r :: suf) = ((lastOf key k suf).or (lastOf key k [r])).or (lastOf key k pre) := by
  rw [← List.singleton_append, lastOf_append, lastOf_append]

/-- A row takes the place of the one of its key. -/
theorem IsLatest.replace {pre suf : List α} (h : IsLatest key written (pre ++ r :: suf)) (hk : key r = key r') :
    IsLatest key (written ++ [r']) (pre ++ r' :: suf) where
  rising := by
    have hr := h.rising
    rw [List.pairwise_append, List.pairwise_cons] at hr ⊢
    obtain ⟨hpre, ⟨hsuf, hpair⟩, hmid⟩ := hr
    refine ⟨hpre, ⟨fun a ha => hk ▸ hsuf a ha, hpair⟩, fun a ha b hb => ?_⟩
    rcases List.mem_cons.mp hb with rfl | hb
    · exact hk ▸ hmid a ha r List.mem_cons_self
    · exact hmid a ha b (List.mem_cons_of_mem r hb)
  last k := by
    have hsuf : lastOf key (key r') suf = none := by
      apply lastOf_eq_none.mpr
      intro a ha
      have hpair := (List.pairwise_append.mp h.rising).2.1
      rw [← hk]
      exact (List.rel_of_pairwise_cons hpair ha).ne'
    rw [lastOf_append k written, ← h.last, lastOf_middle, lastOf_middle]
    by_cases hrk : key r' = k
    · subst hrk
      rw [hsuf]
      simp [lastOf]
    · simp [lastOf, hrk, hk]

/-- A row of a new key, sorted in. -/
theorem IsLatest.sort (h : IsLatest key written rows) (hr : ∀ a ∈ rows, key a ≠ key r) :
    IsLatest key (written ++ [r]) (sortBy key (rows ++ [r])) where
  rising := by
    have hnodup : ((sortBy key (rows ++ [r])).map key).Nodup := by
      apply ((perm_sortBy key (rows ++ [r])).map key).nodup_iff.mpr
      rw [List.map_append, List.map_singleton]
      apply (unique_iff_nodup.mp (unique_of_rising h.rising)).append (List.nodup_singleton _)
      rw [List.disjoint_singleton]
      intro hmem
      obtain ⟨a, ha, hak⟩ := List.mem_map.mp hmem
      exact hr a ha hak
    exact ((pairwise_sortBy key _).and (List.pairwise_map.mp hnodup)).imp fun hlt => lt_of_le_of_ne hlt.1 hlt.2
  last k := by rw [lastOf, filter_sortBy, ← lastOf, lastOf_append, lastOf_append, h.last]

/-- All that was written, taken in by its keys and sorted. -/
theorem isLatest_collect (written : List α) : IsLatest key written (sortBy key (Dict.collect key written).values) where
  rising := by
    have hnodup : ((Dict.collect key written).values.map key).Nodup := by
      apply unique_iff_nodup.mp
      intro k
      rw [lastOf, Dict.filter_values_collect]
      cases (written.filter fun row => key row = k).getLast? <;> rfl
    have hsorted := ((perm_sortBy key (Dict.collect key written).values).map key).nodup_iff.mpr hnodup
    exact ((pairwise_sortBy key _).and (List.pairwise_map.mp hsorted)).imp fun hlt => lt_of_le_of_ne hlt.1 hlt.2
  last k := by
    rw [lastOf, filter_sortBy, Dict.filter_values_collect, lastOf]
    cases (written.filter fun row => key row = k).getLast? <;> rfl

end NTrade.Lib.Latest
