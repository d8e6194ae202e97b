import Mathlib.Data.List.Basic

/-! Loops that write the places of a list: nested loops are one list of writes, and if every place is
written, what was there before does not matter. -/
namespace NTrade.Lib.Writes
variable {α β : Type*}

def write (init : List α) (writes : List (Nat × α)) : List α := writes.foldl (fun xs w => xs.set w.1 w.2) init

@[simp] theorem length_write (init : List α) (writes : List (Nat × α)) : (write init writes).length = init.length := by
  induction writes generalizing init with
  | nil => rfl
  | cons w writes ih => exact (ih _).trans List.length_set

/-- A loop in a loop writes one list of writes. -/
theorem foldl_foldl (outer : List β) (inner : β → List Nat) (value : β → Nat → α) (init : List α) :
    outer.foldl (fun xs b => (inner b).foldl (fun xs i => xs.set i (value b i)) xs) init =
      write init (outer.flatMap fun b => (inner b).map fun i => (i, value b i)) := by
  induction outer generalizing init with
  | nil => rfl
  | cons b outer ih =>
    rw [List.foldl_cons, ih, List.flatMap_cons, write, write, List.foldl_append, List.foldl_map]

/-- If every place is written, what was there before does not matter. -/
theorem write_congr {init init' : List α} (hlen : init.length = init'.length) {writes : List (Nat × α)}
    (h : ∀ i < init.length, i ∈ writes.map Prod.fst) : write init writes = write init' writes := by
  have hagree : ∀ (writes : List (Nat × α)) (init init' : List α) (i : Nat), init.length = init'.length →
      i ∈ writes.map Prod.fst ∨ init[i]? = init'[i]? → (write init writes)[i]? = (write init' writes)[i]? := by
    intro writes
    induction writes with
    | nil =>
      intro init init' i _ hi
      simpa [write] using hi
    | cons w writes ih =>
      intro init init' i hlen hi
      apply ih (init.set w.1 w.2) (init'.set w.1 w.2) i (by rw [List.length_set, List.length_set, hlen])
      rw [List.getElem?_set, List.getElem?_set, hlen]
      by_cases hw : w.1 = i
      · simp [hw]
      · simpa [hw, Ne.symm hw] using hi
  apply List.ext_getElem?
  intro i
  apply hagree writes init init' i hlen
  rcases Nat.lt_or_ge i init.length with hlt | hge
  · exact .inl (h i hlt)
  · right
    rw [List.getElem?_eq_none hge, List.getElem?_eq_none (hlen ▸ hge)]

end NTrade.Lib.Writes
