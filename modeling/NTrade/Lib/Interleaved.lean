import Mathlib

/-! Two lists taken in turn: what one round takes, where each list's values stand, and how to get each list back. -/
namespace NTrade.Lib.Interleaved

variable {α : Type*}

/-- A round takes the first value of each list that has one. -/
theorem interleave_round (xs ys : List α) :
    xs.interleave ys = xs.take 1 ++ (ys.take 1 ++ (xs.drop 1).interleave (ys.drop 1)) := by
  cases xs with
  | nil =>
    rw [List.take_nil, List.drop_nil, List.nil_interleave, List.nil_interleave, List.nil_append, List.take_append_drop]
  | cons x xs =>
    cases ys with
    | nil => simp
    | cons y ys => simp

/-- While both lists last, even places hold the values of the first and odd places those of the second. -/
theorem getElem?_interleave (xs ys : List α) (i : Nat) (hi : i < 2 * min xs.length ys.length) :
    (xs.interleave ys)[i]? = if i % 2 = 0 then xs[i / 2]? else ys[i / 2]? := by
  induction xs generalizing ys i with
  | nil => simp at hi
  | cons x xs ih =>
    cases ys with
    | nil => simp at hi
    | cons y ys =>
      rw [List.cons_interleave, List.cons_interleave]
      match i with
      | 0 => rfl
      | 1 => rfl
      | i + 2 =>
        rw [List.length_cons, List.length_cons] at hi
        rw [List.getElem?_cons_succ, List.getElem?_cons_succ, ih ys i (by omega), Nat.add_mod_right,
          Nat.add_div_right i (by decide), List.getElem?_cons_succ, List.getElem?_cons_succ]

variable {p : α → Bool} {xs ys : List α}

private theorem filter_append_of_sides (hx : ∀ x ∈ xs, p x = true) (hy : ∀ y ∈ ys, p y = false) :
    (xs ++ ys).filter p = xs := by
  have hys : ys.filter p = [] := List.filter_eq_nil_iff.mpr fun y h => ne_true_of_eq_false (hy y h)
  rw [List.filter_append, List.filter_eq_self.mpr hx, hys, List.append_nil]

/-- A part of a list whose values have a property, and that is as long as all that have it, is those values. -/
private theorem filter_eq_of_sublist {l zs : List α} (hsub : l.Sublist zs) (hl : ∀ x ∈ l, p x = true)
    (hlength : (zs.filter p).length = l.length) : zs.filter p = l := by
  have hfilter := hsub.filter p
  rw [List.filter_eq_self.mpr hl] at hfilter
  exact (hfilter.eq_of_length hlength.symm).symm

/-- The values that only the first list has are that list. -/
theorem filter_interleave_left (hx : ∀ x ∈ xs, p x = true) (hy : ∀ y ∈ ys, p y = false) :
    (xs.interleave ys).filter p = xs := by
  apply filter_eq_of_sublist List.left_sublist_interleave hx
  have hboth : (xs.interleave ys).Perm (xs ++ ys) := List.interleave_perm_append
  rw [(hboth.filter p).length_eq, filter_append_of_sides hx hy]

/-- The values that only the second list has are that list. -/
theorem filter_interleave_right (hx : ∀ x ∈ xs, p x = false) (hy : ∀ y ∈ ys, p y = true) :
    (xs.interleave ys).filter p = ys := by
  apply filter_eq_of_sublist List.right_sublist_interleave hy
  have hboth : (xs.interleave ys).Perm (ys ++ xs) := List.interleave_perm_append.trans List.perm_append_comm
  rw [(hboth.filter p).length_eq, filter_append_of_sides hy hx]

end NTrade.Lib.Interleaved
