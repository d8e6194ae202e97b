import Mathlib.Data.List.Nodup
import Mathlib.Data.List.Sort
import Mathlib.Data.List.Induction
import Mathlib.Order.Basic

/-! Entries in the order of a key, one for each: what lies up to an entry is the part of the list that ends
with it. -/
namespace NTrade.Lib.Timeline
variable {α κ : Type*} [LinearOrder κ] (key : α → κ)

def firsts (xs : List α) : List α := xs.foldl (fun kept x => if key x ∈ kept.map key then kept else kept ++ [x]) []

def NotAfter (a b : α) : Prop := key a ≤ key b

instance : DecidableRel (NotAfter key) := fun a b => inferInstanceAs (Decidable (key a ≤ key b))

instance : Std.Total (NotAfter key) := ⟨fun a b => le_total (key a) (key b)⟩

instance : IsTrans α (NotAfter key) := ⟨fun _ _ _ => le_trans⟩

def timeline (xs : List α) : List α := (firsts key xs).insertionSort (NotAfter key)

def Increasing (xs : List α) : Prop := xs.Pairwise fun a b => key a < key b

theorem nodup_firsts (xs : List α) : ((firsts key xs).map key).Nodup := by
  induction xs using List.reverseRecOn with
  | nil => exact List.nodup_nil
  | append_singleton xs x ih =>
    have hstep : firsts key (xs ++ [x]) =
        if key x ∈ (firsts key xs).map key then firsts key xs else firsts key xs ++ [x] := List.foldl_concat _ _ _ _
    rw [hstep]
    split
    · exact ih
    · next h =>
      rw [List.map_append, List.nodup_append]
      refine ⟨ih, List.nodup_singleton _, fun k hk k' hk' he => ?_⟩
      rw [List.map_singleton, List.mem_singleton] at hk'
      rw [he, hk'] at hk
      exact h hk

theorem increasing_timeline (xs : List α) : Increasing key (timeline key xs) := by
  have hsorted : (timeline key xs).Pairwise (NotAfter key) := List.pairwise_insertionSort _ _
  have hnodup : ((timeline key xs).map key).Nodup :=
    (((List.perm_insertionSort _ _).map key).nodup_iff).mpr (nodup_firsts key xs)
  have hne : (timeline key xs).Pairwise fun a b => key a ≠ key b := List.pairwise_map.mp hnodup
  exact (hsorted.and hne).imp fun h => lt_of_le_of_ne h.1 h.2

variable {key} {xs : List α}

/-- The entries up to one of them. -/
theorem filter_le_eq_take (h : Increasing key xs) {i : Nat} {x : α} (hx : xs[i]? = some x) :
    xs.filter (fun y => key y ≤ key x) = xs.take (i + 1) := by
  induction xs generalizing i with
  | nil => cases hx
  | cons y ys ih =>
    obtain ⟨hy, hys⟩ := List.pairwise_cons.mp h
    cases i with
    | zero =>
      obtain rfl : y = x := Option.some.inj hx
      have hnone : ys.filter (fun z => key z ≤ key y) = [] := by
        rw [List.filter_eq_nil_iff]
        intro z hz hle
        exact absurd (of_decide_eq_true hle) (not_le.mpr (hy z hz))
      rw [List.filter_cons_of_pos (by simp), hnone]
      rfl
    | succ i =>
      have hx : ys[i]? = some x := hx
      have hle : key y ≤ key x := (hy x (List.mem_of_getElem? hx)).le
      rw [List.filter_cons_of_pos (by simpa using hle), ih hys hx, List.take_succ_cons]

end NTrade.Lib.Timeline
