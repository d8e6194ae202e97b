import Mathlib.Data.List.Basic

/-! Deques of bounded length: a push into a full one drops the oldest entry. -/
namespace NTrade.Lib

structure Deque (α : Type*) (maxlen : Nat) where
  items : List α
  bounded : items.length ≤ maxlen

namespace Deque
variable {α : Type*} {maxlen : Nat}

def empty : Deque α maxlen := ⟨[], Nat.zero_le _⟩

def size (d : Deque α maxlen) : Nat := d.items.length

def push (x : α) (d : Deque α maxlen) : Deque α maxlen where
  items := (d.items ++ [x]).drop (d.items.length + 1 - maxlen)
  bounded := by
    rw [List.length_drop, List.length_append, List.length_singleton]
    omega

/-- A push makes a deque longer as long as it is not full. -/
theorem size_push (x : α) (d : Deque α maxlen) : (d.push x).size = if d.size < maxlen then d.size + 1 else d.size := by
  have hb : d.items.length ≤ maxlen := d.bounded
  unfold size push
  rw [List.length_drop, List.length_append, List.length_singleton]
  split
  · omega
  · omega

def pushAll (xs : List α) (d : Deque α maxlen) : Deque α maxlen := xs.foldl (fun d x => d.push x) d

theorem pushAll_append (xs ys : List α) (d : Deque α maxlen) : d.pushAll (xs ++ ys) = (d.pushAll xs).pushAll ys :=
  List.foldl_append

/-- A deque keeps the last entries of all it was given. -/
theorem items_pushAll (xs : List α) (d : Deque α maxlen) :
    (d.pushAll xs).items = (d.items ++ xs).drop ((d.items ++ xs).length - maxlen) := by
  induction xs generalizing d with
  | nil =>
    have hb : d.items.length ≤ maxlen := d.bounded
    rw [List.append_nil, Nat.sub_eq_zero_of_le hb]
    rfl
  | cons x xs ih =>
    have hk : d.items.length + 1 - maxlen ≤ (d.items ++ [x]).length := by
      rw [List.length_append, List.length_singleton]
      omega
    have hp : (d.push x).items ++ xs = (d.items ++ x :: xs).drop (d.items.length + 1 - maxlen) := by
      rw [push, ← List.drop_append_of_le_length hk, List.append_assoc]
      rfl
    have hx : d.pushAll (x :: xs) = (d.push x).pushAll xs := rfl
    rw [hx, ih, hp, List.drop_drop, List.length_drop, List.length_append, List.length_cons]
    congr 1
    omega

end Deque
end NTrade.Lib
