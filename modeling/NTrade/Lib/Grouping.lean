import NTrade.Lib.LastWrite
import NTrade.Lib.RankedSort
import Mathlib.Order.MinMax

/-! Lists cut into groups by a key, lists sorted by a key with the values of one key in their order, and columns
whose values are taken together without those that are not there. -/
namespace NTrade.Lib.Grouping
open NTrade.Lib.LastWrite

section Groups
variable {α κ : Type*}

def groups [DecidableEq κ] (key : α → κ) (xs : List α) : List (κ × List α) :=
  (uniques (xs.map key)).map fun k => (k, xs.filter fun x => key x = k)

theorem mem_groups [DecidableEq κ] {key : α → κ} {xs : List α} {g : κ × List α} :
    g ∈ groups key xs ↔ (∃ x ∈ xs, key x = g.1) ∧ g.2 = xs.filter fun x => key x = g.1 := by
  simp only [groups, List.mem_map, mem_uniques]
  constructor
  · rintro ⟨k, hk, rfl⟩
    exact ⟨hk, rfl⟩
  · rintro ⟨hk, hg⟩
    exact ⟨g.1, hk, Prod.ext rfl hg.symm⟩

theorem uniques_sublist {γ : Type*} [DecidableEq γ] (xs : List γ) : (uniques xs).Sublist xs := by
  induction xs with
  | nil => exact List.Sublist.refl _
  | cons x xs ih => exact (List.filter_sublist.trans ih).cons_cons x

variable [LinearOrder κ] {key : α → κ} {xs : List α}

/-- The keys of a list in the order of its keys go up. -/
theorem keys_groups (h : xs.Pairwise fun a b => key a ≤ key b) : ((groups key xs).map Prod.fst).Pairwise (· < ·) := by
  have hkeys : (groups key xs).map Prod.fst = uniques (xs.map key) := by
    rw [groups, List.map_map]
    exact List.map_id _
  rw [hkeys]
  have hle : (uniques (xs.map key)).Pairwise (· ≤ ·) := (List.pairwise_map.mpr h).sublist (uniques_sublist _)
  exact (hle.and (nodup_uniques (xs.map key))).imp fun hlt => lt_of_le_of_ne hlt.1 hlt.2

/-- Lists in order with the same members have the same distinct members. -/
theorem uniques_congr {ks ks' : List κ} (h : ks.Pairwise (· ≤ ·)) (h' : ks'.Pairwise (· ≤ ·))
    (hmem : ∀ k, k ∈ ks ↔ k ∈ ks') : uniques ks = uniques ks' := by
  have hperm : (uniques ks).Perm (uniques ks') := by
    rw [List.perm_ext_iff_of_nodup (nodup_uniques ks) (nodup_uniques ks')]
    intro k
    rw [mem_uniques, mem_uniques, hmem]
  exact hperm.eq_of_pairwise (fun _ _ _ _ => le_antisymm) (h.sublist (uniques_sublist ks)) (h'.sublist (uniques_sublist ks'))

private theorem filter_flatMap_groups (ks : List κ) (hn : ks.Nodup) (t : κ) :
    (ks.flatMap fun k => xs.filter fun x => key x = k).filter (fun x => key x = t) =
      if t ∈ ks then xs.filter fun x => key x = t else [] := by
  induction ks with
  | nil => rfl
  | cons k ks ih =>
    obtain ⟨hk, hks⟩ := List.nodup_cons.mp hn
    rw [List.flatMap_cons, List.filter_append, ih hks, List.filter_filter]
    by_cases ht : t = k
    · subst ht
      simp [hk]
    · have hnone : xs.filter (fun x => decide (key x = t) && decide (key x = k)) = [] := by
        rw [List.filter_eq_nil_iff]
        intro x _ hx
        simp only [Bool.and_eq_true, decide_eq_true_eq] at hx
        exact ht (hx.1.symm.trans hx.2)
      simp [hnone, ht]

/-- The groups of a list in the order of its keys are the list, cut. -/
theorem flatten_groups (h : xs.Pairwise fun a b => key a ≤ key b) : (groups key xs).flatMap Prod.snd = xs := by
  have hflat : (groups key xs).flatMap Prod.snd = (uniques (xs.map key)).flatMap fun k => xs.filter fun x => key x = k := by
    rw [groups, List.flatMap_map]
  apply RankedSort.eq_of_filter_eq key
  · rw [hflat, List.pairwise_flatMap]
    refine ⟨fun k _ => h.filter _, ?_⟩
    have hkeys := keys_groups h
    rw [groups, List.map_map, List.pairwise_map] at hkeys
    refine hkeys.imp fun hlt x hx y hy => ?_
    rw [of_decide_eq_true (List.mem_filter.mp hx).2, of_decide_eq_true (List.mem_filter.mp hy).2]
    exact hlt.le
  · exact h
  · intro t
    rw [hflat, filter_flatMap_groups _ (nodup_uniques _) t]
    split_ifs with ht
    · rfl
    · rw [eq_comm, List.filter_eq_nil_iff]
      intro x hx hk
      rw [decide_eq_true_eq] at hk
      exact ht (mem_uniques.mpr (List.mem_map.mpr ⟨x, hx, hk⟩))

end Groups

section Sorting
variable {α κ : Type*} [LinearOrder κ] (key : α → κ)

def NotLater (a b : α) : Prop := key a ≤ key b

instance : DecidableRel (NotLater key) := fun a b => inferInstanceAs (Decidable (key a ≤ key b))

instance : Std.Total (NotLater key) := ⟨fun a b => le_total (key a) (key b)⟩

instance : IsTrans α (NotLater key) := ⟨fun _ _ _ => le_trans⟩

def sortBy (xs : List α) : List α := xs.insertionSort (NotLater key)

theorem perm_sortBy (xs : List α) : (sortBy key xs).Perm xs := List.perm_insertionSort _ _

theorem pairwise_sortBy (xs : List α) : (sortBy key xs).Pairwise fun a b => key a ≤ key b :=
  List.pairwise_insertionSort _ _

theorem sortBy_eq_self {xs : List α} (h : xs.Pairwise fun a b => key a ≤ key b) : sortBy key xs = xs :=
  List.Pairwise.insertionSort_eq h

/-- The values of one key keep their order. -/
theorem filter_sortBy (t : κ) (xs : List α) :
    (sortBy key xs).filter (fun x => key x = t) = xs.filter fun x => key x = t := by
  have hkey {x : α} (hx : x ∈ xs.filter fun x => key x = t) : key x = t := of_decide_eq_true (List.mem_filter.mp hx).2
  have hsorted : (xs.filter fun x => key x = t).Pairwise (NotLater key) :=
    List.pairwise_of_forall_mem_list fun x hx y hy => (hkey hx).trans_le (hkey hy).ge
  have hsub := (List.sublist_insertionSort hsorted List.filter_sublist).filter fun x => key x = t
  rw [List.filter_filter] at hsub
  simp only [Bool.and_self] at hsub
  exact (hsub.eq_of_length ((perm_sortBy key xs).filter _).length_eq.symm).symm

theorem sortBy_eq {xs ys : List α} (h : ys.Pairwise fun a b => key a ≤ key b)
    (he : ∀ t, ys.filter (fun x => key x = t) = xs.filter fun x => key x = t) : sortBy key xs = ys := by
  apply RankedSort.eq_of_filter_eq key (pairwise_sortBy key xs) h
  intro t
  rw [filter_sortBy, he]

/-- A sorted rearrangement is the sorted list. -/
theorem sortBy_id_eq {ks ks' : List κ} (h : ks'.Pairwise (· ≤ ·)) (hp : ks.Perm ks') : sortBy id ks = ks' :=
  ((perm_sortBy id ks).trans hp).eq_of_pairwise (fun _ _ _ _ => le_antisymm) (pairwise_sortBy id ks) h

/-- Sorting and leaving out can be exchanged. -/
theorem sortBy_filter (p : α → Bool) (xs : List α) : sortBy key (xs.filter p) = (sortBy key xs).filter p := by
  apply sortBy_eq key ((pairwise_sortBy key xs).filter p)
  intro t
  rw [List.filter_comm, filter_sortBy, List.filter_comm]

end Sorting

section Columns
variable {α : Type*} (f : α → α → α)

def combine (xs : List (Option α)) : Option α := xs.foldr (Option.merge f) none

theorem combine_cons (x : Option α) (xs : List (Option α)) : combine f (x :: xs) = Option.merge f x (combine f xs) := rfl

theorem combine_append [Std.Associative f] (xs ys : List (Option α)) :
    combine f (xs ++ ys) = Option.merge f (combine f xs) (combine f ys) := by
  induction xs with
  | nil =>
    rw [List.nil_append]
    cases combine f ys <;> rfl
  | cons x xs ih =>
    rw [List.cons_append, combine_cons, ih, combine_cons]
    have hassoc : Std.Associative (Option.merge f) := inferInstance
    exact (hassoc.assoc _ _ _).symm

/-- Columns can be taken together first. -/
theorem combine_flatten [Std.Associative f] (xss : List (List (Option α))) :
    combine f xss.flatten = combine f (xss.map (combine f)) := by
  induction xss with
  | nil => rfl
  | cons xs xss ih => rw [List.flatten_cons, combine_append, ih, List.map_cons, combine_cons]

/-- The values of a column that are there. -/
theorem combine_isSome (xs : List (Option α)) : (combine f xs).isSome = xs.any Option.isSome := by
  induction xs with
  | nil => rfl
  | cons x xs ih =>
    rw [combine_cons, List.any_cons, ← ih]
    cases x <;> cases combine f xs <;> rfl

theorem combine_eq_none {xs : List (Option α)} : combine f xs = none ↔ ∀ x, some x ∉ xs := by
  rw [← Option.not_isSome_iff_eq_none, combine_isSome, List.any_eq_true]
  constructor
  · intro h x hx
    exact h ⟨some x, hx, rfl⟩
  · rintro h ⟨x, hx, hsome⟩
    obtain ⟨a, rfl⟩ := Option.isSome_iff_exists.mp hsome
    exact h a hx

/-- The first value that is there. -/
theorem combine_first (xs : List (Option α)) : combine (fun a _ => a) xs = (xs.filterMap id).head? := by
  induction xs with
  | nil => rfl
  | cons x xs ih =>
    rw [combine_cons, ih]
    cases x with
    | none => exact Option.merge_none_left
    | some x => cases h : (xs.filterMap id).head? <;> rfl

theorem combine_last (xs : List (Option α)) : combine (fun _ b => b) xs = (xs.filterMap id).getLast? := by
  induction xs with
  | nil => rfl
  | cons x xs ih =>
    rw [combine_cons, ih]
    cases x with
    | none => exact Option.merge_none_left
    | some x =>
      have hcons : (some x :: xs).filterMap id = x :: xs.filterMap id := rfl
      rw [hcons, List.getLast?_cons]
      cases (xs.filterMap id).getLast? <;> rfl

/-- The highest of the values is one of them, and none is higher. -/
theorem combine_max [LinearOrder α] (xs : List (Option α)) (h : α) :
    combine max xs = some h ↔ some h ∈ xs ∧ ∀ x, some x ∈ xs → x ≤ h := by
  induction xs generalizing h with
  | nil => simp [combine]
  | cons x xs ih =>
    rw [combine_cons]
    cases x with
    | none =>
      rw [Option.merge_none_left, ih]
      simp
    | some v =>
      cases hrest : combine max xs with
      | none =>
        have hnone := (combine_eq_none max).mp hrest
        simp only [Option.merge, List.mem_cons, Option.some.injEq, hnone, or_false, forall_eq]
        exact ⟨fun heq => ⟨heq.symm, heq.le⟩, fun heq => heq.1.symm⟩
      | some m =>
        obtain ⟨hmem, hle⟩ := (ih m).mp hrest
        have hmerge : Option.merge max (some v) (some m) = some (max v m) := rfl
        rw [hmerge, Option.some.injEq]
        constructor
        · rintro rfl
          refine ⟨?_, fun x hx => ?_⟩
          · rcases max_choice v m with hmax | hmax <;> simp [hmax, hmem]
          · rcases List.mem_cons.mp hx with hx | hx
            · exact (Option.some.inj hx).trans_le (le_max_left v m)
            · exact (hle x hx).trans (le_max_right v m)
        · rintro ⟨hh, hall⟩
          apply le_antisymm (max_le (hall v List.mem_cons_self) (hall m (List.mem_cons_of_mem _ hmem)))
          rcases List.mem_cons.mp hh with hh | hh
          · exact (Option.some.inj hh).trans_le (le_max_left v m)
          · exact (hle h hh).trans (le_max_right v m)

theorem combine_min [LinearOrder α] (xs : List (Option α)) (l : α) :
    combine min xs = some l ↔ some l ∈ xs ∧ ∀ x, some x ∈ xs → l ≤ x :=
  @combine_max αᵒᵈ _ xs l

end Columns
end NTrade.Lib.Grouping
