import NTrade.Lib.Keyed
import Mathlib.Data.List.Induction
import Mathlib.Order.Lattice

/-! Rows of which the first one of a key counts, and the newest rows of a list in the order of a key, also where
the rows of a window are taken out of them. -/
namespace NTrade.Lib.Newest

section First
variable {α κ : Type*} [DecidableEq κ] (key : α → κ)

def keepFirst (rows : List α) : List α :=
  rows.foldl (fun kept row => if kept.any fun r => key r = key row then kept else kept ++ [row]) []

variable {key} {row : α} {rows : List α}

theorem keepFirst_concat (rows : List α) (row : α) : keepFirst key (rows ++ [row]) =
    if (keepFirst key rows).any (fun r => key r = key row) then keepFirst key rows else keepFirst key rows ++ [row] := by
  rw [keepFirst, List.foldl_append, List.foldl_cons, List.foldl_nil, ← keepFirst]

/-- The row that is kept for a key is the first one that has it. -/
theorem lookup_keepFirst (k : κ) (rows : List α) :
    Keyed.lookup key k (keepFirst key rows) = Keyed.lookup key k rows := by
  induction rows using List.reverseRecOn with
  | nil => rfl
  | append_singleton rows row ih =>
    rw [keepFirst_concat, Keyed.lookup_concat, ← ih]
    split_ifs with hany hk hk
    · cases h : Keyed.lookup key k (keepFirst key rows) with
      | some r => rfl
      | none =>
        rw [Keyed.lookup_eq_none] at h
        obtain ⟨r, hr, he⟩ := List.any_eq_true.mp hany
        exact absurd (List.mem_map.mpr ⟨r, hr, (of_decide_eq_true he).trans hk⟩) h
    · rw [Option.or_none]
    · rw [Keyed.lookup_concat, if_pos hk]
    · rw [Keyed.lookup_concat, if_neg hk]

theorem nodup_keepFirst (rows : List α) : ((keepFirst key rows).map key).Nodup := by
  induction rows using List.reverseRecOn with
  | nil => exact List.nodup_nil
  | append_singleton rows row ih =>
    rw [keepFirst_concat]
    split_ifs with hany
    · exact ih
    · refine Keyed.nodup_concat ih (Keyed.lookup_eq_none.mpr fun hm => hany ?_)
      obtain ⟨r, hr, he⟩ := List.mem_map.mp hm
      exact List.any_eq_true.mpr ⟨r, hr, decide_eq_true he⟩

theorem mem_keepFirst : row ∈ keepFirst key rows ↔ Keyed.lookup key (key row) rows = some row := by
  rw [← lookup_keepFirst]
  exact ⟨Keyed.lookup_mem (nodup_keepFirst rows), fun h => (Keyed.lookup_some h).1⟩

end First

section Last
variable {α : Type*} {n : Nat} {xs ys : List α}

def newest (n : Nat) (xs : List α) : List α := xs.drop (xs.length - n)

theorem newest_of_length_le (h : xs.length ≤ n) : newest n xs = xs := by
  rw [newest, Nat.sub_eq_zero_of_le h, List.drop_zero]

@[simp] theorem length_newest (n : Nat) (xs : List α) : (newest n xs).length = min n xs.length := by
  rw [newest, List.length_drop]
  omega

theorem newest_append_of_le (h : n ≤ ys.length) : newest n (xs ++ ys) = newest n ys := by
  have hlen : xs.length + ys.length - n = xs.length + (ys.length - n) := by omega
  rw [newest, List.length_append, hlen, List.drop_length_add_append, ← newest]

theorem newest_append_of_ge (h : ys.length ≤ n) : newest n (xs ++ ys) = newest (n - ys.length) xs ++ ys := by
  have hlen : xs.length + ys.length - n = xs.length - (n - ys.length) := by omega
  rw [newest, List.length_append, hlen, List.drop_append_of_le_length (Nat.sub_le _ _), ← newest]

theorem newest_eq_newest_iff {m : Nat} (xs : List α) : newest m xs = newest n xs ↔ min m xs.length = min n xs.length := by
  constructor
  · intro h
    rw [← length_newest, h, length_newest]
  · intro h
    rw [newest, newest]
    congr 1
    omega

end Last

section Window
variable {α : Type*} {p : α → Bool} {xs ys : List α}

private theorem filter_newest_all (h : ∀ x ∈ xs, p x = true) (n : Nat) : (newest n xs).filter p = newest n xs :=
  List.filter_eq_self.mpr fun x hx => h x (List.mem_of_mem_drop hx)

private theorem filter_newest_none (h : ∀ x ∈ xs, p x = false) (n : Nat) : (newest n xs).filter p = [] :=
  List.filter_eq_nil_iff.mpr fun x hx => Bool.eq_false_iff.mp (h x (List.mem_of_mem_drop hx))

/-- Rows that are left out at the end take the place of newest ones. -/
theorem filter_newest_before (xs ys : List α) (hx : ∀ x ∈ xs, p x = true) (hy : ∀ y ∈ ys, p y = false) (n : Nat) :
    (newest n (xs ++ ys)).filter p = newest (n - ys.length) xs := by
  rcases Nat.le_total n ys.length with hn | hn
  · rw [newest_append_of_le hn, filter_newest_none hy, Nat.sub_eq_zero_of_le hn, newest, Nat.sub_zero, List.drop_length]
  · rw [newest_append_of_ge hn, List.filter_append, filter_newest_all hx, List.filter_eq_nil_iff.mpr, List.append_nil]
    exact fun y hm => Bool.eq_false_iff.mp (hy y hm)

/-- Rows that are left out at the start take no place. -/
theorem filter_newest_after (xs ys : List α) (hx : ∀ x ∈ xs, p x = false) (hy : ∀ y ∈ ys, p y = true) (n : Nat) :
    (newest n (xs ++ ys)).filter p = newest n ys := by
  rcases Nat.le_total n ys.length with hn | hn
  · rw [newest_append_of_le hn, filter_newest_all hy]
  · rw [newest_append_of_ge hn, List.filter_append, filter_newest_none hx, List.filter_eq_self.mpr hy, List.nil_append,
      newest_of_length_le hn]

/-- A list of which the rows that pass come first is these rows, and the others. -/
theorem filter_append_filter (xs : List α) (h : xs.Pairwise fun a b => p b = true → p a = true) :
    xs.filter p ++ xs.filter (fun x => !p x) = xs := by
  induction xs with
  | nil => rfl
  | cons x xs ih =>
    obtain ⟨hx, hxs⟩ := List.pairwise_cons.mp h
    by_cases hp : p x = true
    · rw [List.filter_cons_of_pos hp, List.filter_cons_of_neg (by simp [hp]), List.cons_append, ih hxs]
    · have hnone : xs.filter p = [] := List.filter_eq_nil_iff.mpr fun y hy hpy => hp (hx y hy hpy)
      have hall : xs.filter (fun y => !p y) = xs :=
        List.filter_eq_self.mpr fun y hy => by simpa using fun hpy => hp (hx y hy hpy)
      rw [List.filter_cons_of_neg hp, List.filter_cons_of_pos (by simpa using hp), hnone, hall, List.nil_append]

variable {κ : Type*} [LinearOrder κ] {key : α → κ}

/-- The rows of a window among the newest ones: each row after the window takes the place of one of it. -/
theorem filter_newest (h : xs.Pairwise fun a b => key a ≤ key b) (lo hi : κ) (n : Nat) :
    (newest n xs).filter (fun x => lo ≤ key x ∧ key x ≤ hi) =
      newest (n - xs.countP fun x => hi < key x) (xs.filter fun x => lo ≤ key x ∧ key x ≤ hi) := by
  have hboth (l : List α) : l.filter (fun x => lo ≤ key x ∧ key x ≤ hi) =
      (l.filter fun x => key x ≤ hi).filter fun x => !decide (key x < lo) := by
    rw [List.filter_filter]
    congr 1
    funext x
    simp only [← decide_not, not_lt, Bool.decide_and]
  have hcount : (xs.countP fun x => hi < key x) = (xs.filter fun x => !decide (key x ≤ hi)).length := by
    rw [List.countP_eq_length_filter]
    congr 2
    funext x
    simp only [← decide_not, not_le]
  -- the rows up to the end of the window, and the others
  have hcut := filter_append_filter (p := fun x => key x ≤ hi) xs <| h.imp fun {a b} hab hb =>
    decide_eq_true (hab.trans (of_decide_eq_true hb))
  have hend := filter_newest_before (p := fun x => key x ≤ hi) (xs.filter fun x => key x ≤ hi)
    (xs.filter fun x => !decide (key x ≤ hi)) (fun x hx => (List.mem_filter.mp hx).2)
    (fun x hx => by simpa using (List.mem_filter.mp hx).2) n
  rw [hcut] at hend
  -- of these, the rows before its start, and the others
  have hcut' := filter_append_filter (p := fun x => key x < lo) (xs.filter fun x => key x ≤ hi) <|
    (h.filter _).imp fun {a b} hab hb => decide_eq_true (hab.trans_lt (of_decide_eq_true hb))
  have hstart := filter_newest_after (p := fun x => !decide (key x < lo))
    ((xs.filter fun x => key x ≤ hi).filter fun x => key x < lo)
    ((xs.filter fun x => key x ≤ hi).filter fun x => !decide (key x < lo))
    (fun x hx => by simpa using (List.mem_filter.mp hx).2) (fun x hx => (List.mem_filter.mp hx).2)
  rw [hcut'] at hstart
  rw [hboth, hend, hstart, hboth, hcount]

end Window

end NTrade.Lib.Newest
