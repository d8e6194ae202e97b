import Mathlib.Data.List.Pairwise
import Mathlib.Order.Defs.LinearOrder

/-! The maximal runs of consecutive numbers of a set, from a list of its members in increasing order. -/
namespace NTrade.Lib.Runs

/-- Runs that together are the members of a set: they are in increasing order, there is a number between any two
of them, and none of them can be extended. -/
structure Maximal (p : Nat → Prop) (runs : List (Nat × Nat)) : Prop where
  ordered : ∀ run ∈ runs, run.1 ≤ run.2
  separated : runs.Pairwise fun run run' => run.2 + 1 < run'.1
  covers : ∀ i, p i ↔ ∃ run ∈ runs, run.1 ≤ i ∧ i ≤ run.2
  maximal : ∀ run ∈ runs, ¬ p (run.2 + 1) ∧ ∀ i, i + 1 = run.1 → ¬ p i

/-- The runs of an increasing list, the first of which is open from `first` to `last`. -/
def close (first last : Nat) : List Nat → List (Nat × Nat)
  | [] => [(first, last)]
  | i :: rest => if i ≠ last + 1 then (first, last) :: close i i rest else close first i rest

variable {first last : Nat} {rest : List Nat}

/-- The first of the runs starts where it was open. -/
private theorem first_le_of_mem_close (h : (last :: rest).Pairwise (· < ·)) (hle : first ≤ last) :
    ∀ run ∈ close first last rest, first ≤ run.1 ∧ run.1 ≤ run.2 := by
  induction rest generalizing first last with
  | nil =>
    intro run hrun
    obtain rfl := List.mem_singleton.mp hrun
    exact ⟨Nat.le_refl _, hle⟩
  | cons i rest ih =>
    obtain ⟨hlast, hrest⟩ := List.pairwise_cons.mp h
    have hi := hlast i List.mem_cons_self
    intro run hrun
    rw [close] at hrun
    split_ifs at hrun with hgap
    · rcases List.mem_cons.mp hrun with rfl | hrun
      · exact ⟨Nat.le_refl _, hle⟩
      · obtain ⟨hfirst, hrun⟩ := ih hrest (Nat.le_refl i) run hrun
        exact ⟨by omega, hrun⟩
    · exact ih hrest (by omega) run hrun

private theorem separated_close (h : (last :: rest).Pairwise (· < ·)) (hle : first ≤ last) :
    (close first last rest).Pairwise fun run run' => run.2 + 1 < run'.1 := by
  induction rest generalizing first last with
  | nil => exact List.pairwise_singleton _ _
  | cons i rest ih =>
    obtain ⟨hlast, hrest⟩ := List.pairwise_cons.mp h
    have hi := hlast i List.mem_cons_self
    rw [close]
    split_ifs with hgap
    · refine List.pairwise_cons.mpr ⟨fun run hrun => ?_, ih hrest (Nat.le_refl i)⟩
      obtain ⟨hfirst, -⟩ := first_le_of_mem_close hrest (Nat.le_refl i) run hrun
      dsimp only
      omega
    · exact ih hrest (by omega)

private theorem covers_close (h : (last :: rest).Pairwise (· < ·)) (hle : first ≤ last) (j : Nat) :
    (∃ run ∈ close first last rest, run.1 ≤ j ∧ j ≤ run.2) ↔ first ≤ j ∧ j ≤ last ∨ j ∈ rest := by
  induction rest generalizing first last with
  | nil => simp [close]
  | cons i rest ih =>
    obtain ⟨hlast, hrest⟩ := List.pairwise_cons.mp h
    have hi := hlast i List.mem_cons_self
    rw [close, List.mem_cons]
    split_ifs with hgap
    · have hnext := ih hrest (Nat.le_refl i)
      simp only [List.mem_cons, exists_eq_or_imp, hnext]
      have : i ≤ j ∧ j ≤ i ↔ j = i := by omega
      rw [this]
    · have hnext := ih hrest (by omega : first ≤ i)
      rw [hnext]
      have : first ≤ j ∧ j ≤ i ↔ first ≤ j ∧ j ≤ last ∨ j = i := by omega
      rw [this, or_assoc]

/-- Runs that are apart and cover a set cannot be extended. -/
theorem Maximal.of_separated {p : Nat → Prop} {runs : List (Nat × Nat)} (hordered : ∀ run ∈ runs, run.1 ≤ run.2)
    (hseparated : runs.Pairwise fun run run' => run.2 + 1 < run'.1)
    (hcovers : ∀ i, p i ↔ ∃ run ∈ runs, run.1 ≤ i ∧ i ≤ run.2) : Maximal p runs := by
  refine ⟨hordered, hseparated, hcovers, fun run hrun => ?_⟩
  have hapart (run' : Nat × Nat) (hrun' : run' ∈ runs) : run' = run ∨ run'.2 + 1 < run.1 ∨ run.2 + 1 < run'.1 := by
    by_cases heq : run' = run
    · exact .inl heq
    · have hsymm : Std.Symm fun run run' : Nat × Nat => run.2 + 1 < run'.1 ∨ run'.2 + 1 < run.1 := ⟨fun _ _ => Or.symm⟩
      have heither : runs.Pairwise fun run run' => run.2 + 1 < run'.1 ∨ run'.2 + 1 < run.1 := hseparated.imp Or.inl
      exact .inr (heither.forall hrun' hrun heq)
  have hle := hordered run hrun
  constructor
  · rw [hcovers]
    rintro ⟨run', hrun', hstart, hstop⟩
    rcases hapart run' hrun' with rfl | h | h <;> omega
  · intro i hi
    rw [hcovers]
    rintro ⟨run', hrun', hstart, hstop⟩
    have hle' := hordered run' hrun'
    rcases hapart run' hrun' with rfl | h | h <;> omega

/-- What is closed are the maximal runs of the members of the list. -/
theorem maximal_close {i : Nat} (h : (i :: rest).Pairwise (· < ·)) : Maximal (· ∈ i :: rest) (close i i rest) := by
  apply Maximal.of_separated
  · intro run hrun
    exact (first_le_of_mem_close h (Nat.le_refl i) run hrun).2
  · exact separated_close h (Nat.le_refl i)
  · intro j
    rw [covers_close h (Nat.le_refl i), List.mem_cons]
    refine or_congr_left ⟨?_, ?_⟩ <;> omega

end NTrade.Lib.Runs
