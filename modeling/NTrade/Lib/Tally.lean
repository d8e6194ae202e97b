import Mathlib.Algebra.BigOperators.Group.List.Basic
import Mathlib.Data.List.Forall2
import Mathlib.Data.List.Induction

/-! Values added up in numbered slots, by an addition that may round. -/
namespace NTrade.Lib.Tally

variable {α M M' : Type*}

def record (add : M → M → M) (slot : α → Nat) (value : α → M) (slots : List M) (x : α) : List M :=
  slots.modify (slot x) (add · (value x))

def tally [Zero M] (add : M → M → M) (n : Nat) (slot : α → Nat) (value : α → M) (items : List α) : List M :=
  items.foldl (record add slot value) (List.replicate n 0)

section Length
variable [Zero M] {add : M → M → M} {n : Nat} {slot : α → Nat} {value : α → M}

omit [Zero M] in
theorem length_foldl_record (slots : List M) (items : List α) :
    (items.foldl (record add slot value) slots).length = slots.length := by
  induction items generalizing slots with
  | nil => rfl
  | cons x items ih => rw [List.foldl_cons, ih, record, List.length_modify]

@[simp] theorem length_tally (items : List α) : (tally add n slot value items).length = n := by
  rw [tally, length_foldl_record, List.length_replicate]

theorem tally_concat (items : List α) (x : α) :
    tally add n slot value (items ++ [x]) = record add slot value (tally add n slot value items) x := by
  rw [tally, List.foldl_append, ← tally]
  rfl

end Length

section Sums
variable [AddCommMonoid M] {n : Nat} {slot : α → Nat} {value : α → M}

/-- An item adds its value to the whole. -/
theorem sum_record {slots : List M} {x : α} (h : slot x < slots.length) :
    (record (· + ·) slot value slots x).sum = slots.sum + value x := by
  unfold record
  generalize slot x = i at h
  induction slots generalizing i with
  | nil => exact absurd h (Nat.not_lt_zero i)
  | cons y slots ih =>
    cases i with
    | zero => rw [List.modify_zero_cons, List.sum_cons, List.sum_cons, add_right_comm]
    | succ i => rw [List.modify_succ_cons, List.sum_cons, List.sum_cons, ih i (Nat.lt_of_succ_lt_succ h), add_assoc]

/-- The slots hold all values together. -/
theorem sum_tally {items : List α} (h : ∀ x ∈ items, slot x < n) :
    (tally (· + ·) n slot value items).sum = (items.map value).sum := by
  induction items using List.reverseRecOn with
  | nil => rw [tally, List.foldl_nil, List.sum_replicate, nsmul_zero, List.map_nil, List.sum_nil]
  | append_singleton items x ih =>
    have hx : slot x < (tally (· + ·) n slot value items).length := by
      rw [length_tally]
      exact h x (List.mem_append_right _ List.mem_cons_self)
    rw [tally_concat, sum_record hx, ih fun y hy => h y (List.mem_append_left _ hy), List.map_append, List.sum_append]
    simp

end Sums

section Relation
variable {R S : M → M' → Prop}

theorem forall₂_modify {f : M → M} {g : M' → M'} {xs : List M} {ys : List M'} (h : List.Forall₂ R xs ys)
    (hkeep : ∀ x y, R x y → S x y) (hmodify : ∀ x y, R x y → S (f x) (g y)) (i : Nat) :
    List.Forall₂ S (xs.modify i f) (ys.modify i g) := by
  induction h generalizing i with
  | nil => cases i <;> exact .nil
  | cons hxy hrest ih =>
    cases i with
    | zero => exact .cons (hmodify _ _ hxy) (hrest.imp hkeep)
    | succ i => exact .cons (hkeep _ _ hxy) (ih i)

theorem forall₂_replicate {x : M} {y : M'} (h : R x y) (n : Nat) :
    List.Forall₂ R (List.replicate n x) (List.replicate n y) := by
  induction n with
  | zero => exact .nil
  | succ n ih => exact .cons h ih

variable [Zero M] [Zero M'] {add : M → M → M} {add' : M' → M' → M'} {n : Nat} {slot : α → Nat} {value : α → M}
  {value' : α → M'} {items : List α} {P : Nat → M → M' → Prop}

/-- What two ways to add up have in common, after as many additions as there are items. -/
theorem forall₂_tally (hzero : P 0 0 0) (hkeep : ∀ k x y, P k x y → P (k + 1) x y)
    (hadd : ∀ k x y, ∀ a ∈ items, P k x y → P (k + 1) (add x (value a)) (add' y (value' a))) :
    List.Forall₂ (P items.length) (tally add n slot value items) (tally add' n slot value' items) := by
  induction items using List.reverseRecOn with
  | nil => exact forall₂_replicate hzero n
  | append_singleton items a ih =>
    have hitems := ih fun k x y b hb => hadd k x y b (List.mem_append_left _ hb)
    rw [tally_concat, tally_concat, List.length_append, record, record]
    exact forall₂_modify hitems (hkeep _) (fun x y => hadd _ x y a (List.mem_append_right _ List.mem_cons_self)) _

end Relation

end NTrade.Lib.Tally
