import Mathlib.Data.List.Basic
import Mathlib.Data.List.TakeDrop

/-! Causal functions of lists: no value depends on what comes after it, so the values of a part at the
front are those of the whole. -/
namespace NTrade.Lib
variable {α β γ : Type*}

def Causal (f : List α → List β) : Prop := ∀ xs n, f (xs.take n) = (f xs).take n

theorem Causal.getD {f : List α → List β} (h : Causal f) {n i : Nat} (hi : i < n) (xs : List α) (d : β) :
    (f (xs.take n)).getD i d = (f xs).getD i d := by
  rw [h, List.getD_eq_getElem?_getD, List.getD_eq_getElem?_getD, List.getElem?_take_of_lt hi]

theorem Causal.map (g : α → β) : Causal (List.map g) := fun _ _ => List.map_take

theorem Causal.comp {f : List α → List β} {g : List β → List γ} (hf : Causal f) (hg : Causal g) :
    Causal fun xs => g (f xs) := by
  intro xs n
  have h : g (f (xs.take n)) = (g (f xs)).take n := by rw [hf, hg]
  exact h

/-- The values of `g` on the lists that a list starts with. -/
def prefixwise (g : List α → β) (xs : List α) : List β := (List.range xs.length).map fun i => g (xs.take (i + 1))

@[simp] theorem length_prefixwise (g : List α → β) (xs : List α) : (prefixwise g xs).length = xs.length := by
  simp [prefixwise]

theorem getD_prefixwise (g : List α → β) {xs : List α} {i : Nat} (hi : i < xs.length) (d : β) :
    (prefixwise g xs).getD i d = g (xs.take (i + 1)) := by
  simp [prefixwise, hi]

theorem Causal.prefixwise (g : List α → β) : Causal (prefixwise g) := by
  intro xs n
  rw [Lib.prefixwise, Lib.prefixwise, ← List.map_take, List.take_range, List.length_take]
  apply List.map_congr_left
  intro i hi
  have hn : i + 1 ≤ n := Nat.le_trans (List.mem_range.mp hi) (Nat.min_le_left _ _)
  rw [List.take_take, Nat.min_eq_left hn]

/-- The values of `g` on each entry and the one before it. -/
def mapPrev (g : Option α → α → β) : Option α → List α → List β
  | _, [] => []
  | p, x :: xs => g p x :: mapPrev g (some x) xs

@[simp] theorem length_mapPrev (g : Option α → α → β) (p : Option α) (xs : List α) :
    (mapPrev g p xs).length = xs.length := by
  induction xs generalizing p with
  | nil => rfl
  | cons x xs ih => rw [mapPrev, List.length_cons, ih, List.length_cons]

theorem Causal.mapPrev (g : Option α → α → β) (p : Option α) : Causal (mapPrev g p) := by
  intro xs n
  induction xs generalizing p n with
  | nil => simp [Lib.mapPrev]
  | cons x xs ih =>
    cases n with
    | zero => rfl
    | succ n => rw [List.take_succ_cons, Lib.mapPrev, ih, Lib.mapPrev, List.take_succ_cons]

theorem mapPrev_eq_map (g : Option α → α → β) (p : Option α) (xs : List α) :
    mapPrev g p xs = (mapPrev Prod.mk p xs).map fun e => g e.1 e.2 := by
  induction xs generalizing p with
  | nil => rfl
  | cons x xs ih => rw [mapPrev, ih, mapPrev, List.map_cons]

theorem getElem?_mapPrev_zero (g : Option α → α → β) (p : Option α) (xs : List α) :
    (mapPrev g p xs)[0]? = xs[0]?.map (g p) := by
  cases xs <;> rfl

theorem getElem?_mapPrev_succ (g : Option α → α → β) (p : Option α) (xs : List α) (i : Nat) :
    (mapPrev g p xs)[i + 1]? = xs[i + 1]?.map (g xs[i]?) := by
  induction xs generalizing p i with
  | nil => rfl
  | cons x xs ih =>
    rw [mapPrev, List.getElem?_cons_succ, List.getElem?_cons_succ]
    cases i with
    | zero => exact getElem?_mapPrev_zero g (some x) xs
    | succ i => exact ih (some x) i

/-- An entry and the one before it are entries. -/
theorem mem_mapPrev {p : Option α} {xs : List α} {e : Option α × α} (h : e ∈ mapPrev Prod.mk p xs) :
    e.2 ∈ xs ∧ (e.1 = p ∨ ∃ y ∈ xs, e.1 = some y) := by
  induction xs generalizing p with
  | nil => cases h
  | cons x xs ih =>
    rcases List.mem_cons.mp h with rfl | h
    · exact ⟨List.mem_cons_self, .inl rfl⟩
    · obtain ⟨hmem, hprev⟩ := ih h
      refine ⟨List.mem_cons_of_mem _ hmem, .inr ?_⟩
      rcases hprev with hx | ⟨y, hy, he⟩
      · exact ⟨x, List.mem_cons_self, hx⟩
      · exact ⟨y, List.mem_cons_of_mem _ hy, he⟩

theorem Causal.zipWith {δ : Type*} {f : List α → List β} {g : List α → List γ} (hf : Causal f) (hg : Causal g)
    (op : β → γ → δ) : Causal fun xs => List.zipWith op (f xs) (g xs) := by
  intro xs n
  dsimp only
  rw [hf, hg, List.take_zipWith]

end NTrade.Lib
