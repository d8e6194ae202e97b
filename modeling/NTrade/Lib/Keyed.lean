import Mathlib.Data.List.Nodup
import Mathlib.Data.List.Basic

/-! Lists of records that are looked up by a key: what is read, written or dropped is the
first entry with the key. -/
namespace NTrade.Lib.Keyed
variable {κ α : Type*} [DecidableEq κ] (key : α → κ)

def lookup (k : κ) (xs : List α) : Option α := xs.find? fun x => key x = k

def revise (k : κ) (f : α → α) : List α → List α
  | [] => []
  | x :: xs => if key x = k then f x :: xs else x :: revise k f xs

def discard (k : κ) (xs : List α) : List α := xs.eraseP fun x => key x = k

variable {key} {k j : κ} {f : α → α} {x : α} {xs : List α}

@[simp] theorem lookup_nil : lookup key k [] = none := rfl

theorem lookup_cons : lookup key k (x :: xs) = if key x = k then some x else lookup key k xs := by
  unfold lookup
  rw [List.find?_cons]
  split
  · next h => rw [if_pos (of_decide_eq_true h)]
  · next h => rw [if_neg (of_decide_eq_false h)]

theorem lookup_concat : lookup key k (xs ++ [x]) = (lookup key k xs).or (if key x = k then some x else none) := by
  rw [lookup, List.find?_append]
  exact congrArg _ lookup_cons

theorem lookup_some (h : lookup key k xs = some x) : x ∈ xs ∧ key x = k :=
  ⟨List.mem_of_find?_eq_some h, by simpa using List.find?_some h⟩

theorem lookup_eq_none : lookup key k xs = none ↔ k ∉ xs.map key := by
  simp only [lookup, List.find?_eq_none, decide_eq_true_eq, List.mem_map, not_exists, not_and]

theorem lookup_mem (hn : (xs.map key).Nodup) (hx : x ∈ xs) : lookup key (key x) xs = some x := by
  cases h : lookup key (key x) xs with
  | none => exact absurd (List.mem_map_of_mem hx) (lookup_eq_none.mp h)
  | some y =>
    obtain ⟨hy, he⟩ := lookup_some h
    rw [List.inj_on_of_nodup_map hn hy hx he]

theorem map_key_revise (hf : ∀ x, key x = k → key (f x) = k) : (revise key k f xs).map key = xs.map key := by
  induction xs with
  | nil => rfl
  | cons x xs ih =>
    unfold revise
    split
    · next hx => rw [List.map_cons, List.map_cons, hf x hx, hx]
    · rw [List.map_cons, List.map_cons, ih]

theorem lookup_revise (hf : ∀ x, key x = k → key (f x) = k) :
    lookup key j (revise key k f xs) = if j = k then (lookup key j xs).map f else lookup key j xs := by
  induction xs with
  | nil => simp [revise]
  | cons x xs ih =>
    unfold revise
    by_cases hx : key x = k
    · rw [if_pos hx, lookup_cons, lookup_cons, hf x hx, hx]
      by_cases hj : j = k
      · rw [if_pos hj.symm, if_pos hj, if_pos hj.symm]
        rfl
      · rw [if_neg hj, if_neg (Ne.symm hj), if_neg (Ne.symm hj)]
    · rw [if_neg hx, lookup_cons, lookup_cons, ih]
      by_cases hj : key x = j
      · rw [if_pos hj, if_pos hj, if_neg fun h => hx (hj.trans h)]
      · rw [if_neg hj, if_neg hj]

/-- Writing what is there changes nothing. -/
theorem revise_const (h : lookup key k xs = some x) : revise key k (fun _ => x) xs = xs := by
  induction xs with
  | nil => rfl
  | cons y ys ih =>
    rw [lookup_cons] at h
    rw [revise]
    split_ifs at h ⊢ with hy
    · rw [Option.some.inj h]
    · rw [ih h]

theorem nodup_concat (hn : (xs.map key).Nodup) (hx : lookup key (key x) xs = none) : ((xs ++ [x]).map key).Nodup := by
  rw [List.map_append, List.map_singleton]
  exact List.nodup_append_comm.mp (List.nodup_cons.mpr ⟨lookup_eq_none.mp hx, hn⟩)

theorem discard_sublist : (discard key k xs).Sublist xs := List.eraseP_sublist

theorem nodup_discard (hn : (xs.map key).Nodup) : ((discard key k xs).map key).Nodup :=
  hn.sublist (discard_sublist.map key)

theorem lookup_discard (hn : (xs.map key).Nodup) :
    lookup key j (discard key k xs) = if j = k then none else lookup key j xs := by
  induction xs with
  | nil => simp [discard]
  | cons x xs ih =>
    obtain ⟨hnot, hn⟩ := List.nodup_cons.mp hn
    by_cases hx : key x = k
    · have hd : discard key k (x :: xs) = xs := List.eraseP_cons_of_pos (by simpa using hx)
      rw [hd, lookup_cons]
      by_cases hj : j = k
      · rw [if_pos hj, lookup_eq_none, hj, ← hx]
        exact hnot
      · rw [if_neg hj, if_neg fun h => hj (h.symm.trans hx)]
    · have hd : discard key k (x :: xs) = x :: discard key k xs :=
        List.eraseP_cons_of_neg (by simpa using hx)
      rw [hd, lookup_cons, lookup_cons, ih hn]
      by_cases hj : key x = j
      · rw [if_pos hj, if_pos hj, if_neg fun h => hx (hj.trans h)]
      · rw [if_neg hj, if_neg hj]

theorem lookup_filter (p : κ → Prop) [DecidablePred p] :
    lookup key k (xs.filter fun x => p (key x)) = if p k then lookup key k xs else none := by
  induction xs with
  | nil => simp
  | cons x xs ih =>
    rw [List.filter_cons]
    by_cases hx : p (key x)
    · rw [if_pos (by simpa using hx), lookup_cons, lookup_cons, ih]
      by_cases hj : key x = k
      · rw [if_pos hj, if_pos hj, if_pos (hj ▸ hx)]
      · rw [if_neg hj, if_neg hj]
    · rw [if_neg (by simpa using hx), ih, lookup_cons]
      by_cases hj : key x = k
      · rw [if_neg (hj ▸ hx), if_neg (hj ▸ hx)]
      · rw [if_neg hj]

end NTrade.Lib.Keyed
