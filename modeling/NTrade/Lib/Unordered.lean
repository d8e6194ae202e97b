import Mathlib.Order.Lattice
import Mathlib.Order.Defs.LinearOrder

/-! The values of a linear order and one that is not in it, as floats have with the one that is not a number. It
compares false with every value, and a maximum that is found by comparing keeps its first argument unless the second
is above it. -/
namespace NTrade.Lib.Unordered
variable {α β : Type*} [LinearOrder α] [LinearOrder β]

def Lt : Option α → Option α → Prop
  | some a, some b => a < b
  | _, _ => False

def Le : Option α → Option α → Prop
  | some a, some b => a ≤ b
  | _, _ => False

instance decidableLt : DecidableRel (Lt (α := α))
  | some a, some b => inferInstanceAs (Decidable (a < b))
  | some _, none => inferInstanceAs (Decidable False)
  | none, _ => inferInstanceAs (Decidable False)

instance decidableLe : DecidableRel (Le (α := α))
  | some a, some b => inferInstanceAs (Decidable (a ≤ b))
  | some _, none => inferInstanceAs (Decidable False)
  | none, _ => inferInstanceAs (Decidable False)

def larger (x y : Option α) : Option α := if Lt x y then y else x

def smaller (x y : Option α) : Option α := if Lt y x then y else x

theorem lt_iff {x y : Option α} : Lt x y ↔ ∃ a b, x = some a ∧ y = some b ∧ a < b := by
  cases x <;> cases y <;> simp [Lt]

theorem le_iff {x y : Option α} : Le x y ↔ ∃ a b, x = some a ∧ y = some b ∧ a ≤ b := by
  cases x <;> cases y <;> simp [Le]

@[simp] theorem larger_some (a b : α) : larger (some a) (some b) = some (max a b) := by
  rw [larger, max_def_lt]
  exact (apply_ite some (a < b) b a).symm

@[simp] theorem smaller_some (a b : α) : smaller (some a) (some b) = some (min a b) := by
  rw [smaller, min_def_lt]
  show (if b < a then some b else some a) = _
  rcases lt_trichotomy a b with h | rfl | h
  · rw [if_neg h.not_gt, if_pos h]
  · rw [if_neg (lt_irrefl a), if_neg (lt_irrefl a)]
  · rw [if_pos h, if_neg h.not_gt]

end NTrade.Lib.Unordered
