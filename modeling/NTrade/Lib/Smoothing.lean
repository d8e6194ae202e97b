import Mathlib.Algebra.Order.Field.Basic
import Mathlib.Data.List.Induction
import Mathlib.Algebra.BigOperators.Ring.List
import Mathlib.Tactic.FieldSimp
import Mathlib.Tactic.LinearCombination
import Mathlib.Tactic.Linarith
import Mathlib.Tactic.Positivity
import Mathlib.Tactic.Ring

/-! Means with weights that fall by one factor back in time, and the mean that moves by a fixed share of
each new value. The one steps as the other does exactly where the new value is the mean before it. -/
namespace NTrade.Lib.Smoothing
variable {K : Type*} [Field K]

/-- The sum in which each value weighs `q` times the one after it, and the last weighs 1. -/
def weighted (q : K) (xs : List K) : K := xs.foldl (fun s x => q * s + x) 0

def weight (q : K) (n : Nat) : K := weighted q (List.replicate n 1)

def weightedMean (q : K) (xs : List K) : K := weighted q xs / weight q xs.length

/-- The mean after one more value, of which it takes the share `1 - q`. -/
def smooth (q m x : K) : K := q * m + (1 - q) * x

section Sums
variable (q : K) (xs : List K) (x : K)

@[simp] theorem weighted_nil : weighted q [] = 0 := rfl

@[simp] theorem weighted_concat : weighted q (xs ++ [x]) = q * weighted q xs + x := by
  rw [weighted, List.foldl_concat, weighted]

theorem weight_succ (n : Nat) : weight q (n + 1) = q * weight q n + 1 := by
  rw [weight, List.replicate_succ', weighted_concat, weight]

/-- The weights are a geometric series. -/
theorem one_sub_mul_weight (n : Nat) : (1 - q) * weight q n = 1 - q ^ n := by
  induction n with
  | zero => simp [weight]
  | succ n ih =>
    rw [weight_succ, pow_succ]
    linear_combination q * ih

theorem weighted_sub (m : K) : weighted q (xs.map (· - m)) = weighted q xs - m * weight q xs.length := by
  induction xs using List.reverseRecOn with
  | nil => simp [weight]
  | append_singleton xs x ih =>
    rw [List.map_append, List.map_singleton, weighted_concat, weighted_concat, ih, List.length_append,
      List.length_singleton, weight_succ]
    ring

/-- The weighted sum, term by term from the last value. -/
theorem weighted_eq_sum : weighted q xs =
    (List.zipWith (· * ·) xs.reverse ((List.range xs.length).map fun i => q ^ i)).sum := by
  induction xs using List.reverseRecOn with
  | nil => rfl
  | append_singleton xs x ih =>
    have hshift : ((List.range xs.length).map fun i => q ^ (i + 1)) = ((List.range xs.length).map fun i => q ^ i).map (q * ·) := by
      rw [List.map_map]
      apply List.map_congr_left
      intro i _
      exact pow_succ' q i
    have hmul (ys zs : List K) : (List.zipWith (· * ·) ys (zs.map (q * ·))).sum = q * (List.zipWith (· * ·) ys zs).sum := by
      induction ys generalizing zs with
      | nil => simp
      | cons y ys ihy =>
        cases zs with
        | nil => simp
        | cons z zs =>
          simp only [List.map_cons, List.zipWith_cons_cons, List.sum_cons, ihy]
          ring
    rw [weighted_concat, ih, List.reverse_append, List.length_append, List.length_singleton, List.range_succ_eq_map,
      List.map_cons, List.map_map, List.reverse_singleton, List.singleton_append, List.zipWith_cons_cons, List.sum_cons]
    have hcomp : ((fun i => q ^ i) ∘ Nat.succ) = fun i => q ^ (i + 1) := rfl
    rw [hcomp, hshift, hmul, pow_zero, mul_one, add_comm]

theorem weight_eq_sum (n : Nat) : weight q n = ((List.range n).map fun i => q ^ i).sum := by
  induction n with
  | zero => rfl
  | succ n ih =>
    rw [weight_succ, List.range_succ_eq_map, List.map_cons, List.map_map, List.sum_cons, pow_zero, add_comm, ih,
      ← List.sum_map_mul_left]
    congr 2
    apply List.map_congr_left
    intro i _
    exact (pow_succ' q i).symm

@[simp] theorem smooth_self (m : K) : smooth q m m = m := by
  rw [smooth]
  ring

end Sums

section Means
variable [LinearOrder K] [IsStrictOrderedRing K] {q : K} {xs : List K} {x : K}

theorem weight_pos (hq : 0 ≤ q) {n : Nat} (hn : 0 < n) : 0 < weight q n := by
  obtain ⟨n, rfl⟩ := Nat.exists_eq_succ_of_ne_zero hn.ne'
  rw [Nat.succ_eq_add_one, weight_succ]
  have hw : 0 ≤ weight q n := by
    induction n with
    | zero => exact le_rfl
    | succ n ih =>
      rw [weight_succ]
      have := ih (Nat.succ_pos n)
      positivity
  positivity

/-- The weighted mean steps like the smoothed one, and by as much of the surprise as is left of the first weight. -/
theorem weightedMean_concat (hq : 0 ≤ q) (hxs : xs ≠ []) :
    weightedMean q (xs ++ [x]) =
      smooth q (weightedMean q xs) x + q ^ (xs.length + 1) * (x - weightedMean q xs) / weight q (xs.length + 1) := by
  have hpos := weight_pos hq (List.length_pos_iff.mpr hxs)
  have hpos' := weight_pos hq (Nat.succ_pos xs.length)
  have hgeo := one_sub_mul_weight q xs.length
  have hw := weight_succ q xs.length
  have hM : weighted q xs = weightedMean q xs * weight q xs.length := by
    rw [weightedMean, div_mul_cancel₀ _ hpos.ne']
  rw [weightedMean, weighted_concat, List.length_append, List.length_singleton, div_eq_iff hpos'.ne', add_mul,
    div_mul_cancel₀ _ hpos'.ne', hM, hw, smooth, pow_succ]
  linear_combination q * (weightedMean q xs - x) * hgeo

/-- The weighted mean steps as the smoothed one does exactly where nothing changes. -/
theorem weightedMean_concat_eq_smooth_iff (hq : 0 < q) (hxs : xs ≠ []) :
    weightedMean q (xs ++ [x]) = smooth q (weightedMean q xs) x ↔ x = weightedMean q xs := by
  have hpos := weight_pos hq.le (Nat.succ_pos xs.length)
  rw [weightedMean_concat hq.le hxs, add_eq_left, div_eq_zero_iff, or_iff_left hpos.ne', mul_eq_zero,
    or_iff_right (pow_pos hq _).ne', sub_eq_zero]

/-- A mean is the weighted one exactly if the values balance around it. -/
theorem weightedMean_eq_iff (hq : 0 ≤ q) (hxs : xs ≠ []) (m : K) :
    weightedMean q xs = m ↔ weighted q (xs.map (· - m)) = 0 := by
  have hpos := weight_pos hq (List.length_pos_iff.mpr hxs)
  rw [weighted_sub, weightedMean, div_eq_iff hpos.ne', sub_eq_zero]

end Means

section Linear
variable {α : Type*}

theorem weighted_map_add (q : K) (f g : α → K) (l : List α) :
    weighted q (l.map fun a => f a + g a) = weighted q (l.map f) + weighted q (l.map g) := by
  induction l using List.reverseRecOn with
  | nil => simp
  | append_singleton l a ih =>
    rw [List.map_append, List.map_append, List.map_append, List.map_singleton, List.map_singleton, List.map_singleton,
      weighted_concat, weighted_concat, weighted_concat, ih]
    ring

theorem weighted_map_mul (q c : K) (f : α → K) (l : List α) :
    weighted q (l.map fun a => c * f a) = c * weighted q (l.map f) := by
  induction l using List.reverseRecOn with
  | nil => simp
  | append_singleton l a ih =>
    rw [List.map_append, List.map_append, List.map_singleton, List.map_singleton, weighted_concat, weighted_concat, ih]
    ring

end Linear

section Order
variable [LinearOrder K] [IsStrictOrderedRing K] {q : K} {α : Type*} {f g : α → K} {l : List α}

/-- More in each place weighs more. -/
theorem weighted_map_le (hq : 0 ≤ q) (h : ∀ a ∈ l, f a ≤ g a) : weighted q (l.map f) ≤ weighted q (l.map g) := by
  induction l using List.reverseRecOn with
  | nil => simp
  | append_singleton l a ih =>
    have hl := mul_le_mul_of_nonneg_left (ih fun b hb => h b (List.mem_append_left _ hb)) hq
    have ha := h a (List.mem_append_right _ (List.mem_singleton_self a))
    rw [List.map_append, List.map_append, List.map_singleton, List.map_singleton, weighted_concat, weighted_concat]
    linarith

theorem weighted_map_nonneg (hq : 0 ≤ q) (h : ∀ a ∈ l, 0 ≤ f a) : 0 ≤ weighted q (l.map f) := by
  have hzero : weighted q (l.map fun _ => (0 : K)) = 0 := by
    simpa using weighted_map_mul q 0 (fun _ : α => (0 : K)) l
  exact hzero ▸ weighted_map_le hq h

/-- The last value has at least the share in the mean that it has in the long run. -/
theorem share_le_weightedMean (hq : 0 ≤ q) (xs : List K) (hxs : ∀ x ∈ xs, 0 ≤ x) {x : K} (hx : 0 ≤ x) :
    (1 - q) * x ≤ weightedMean q (xs ++ [x]) := by
  have hpos := weight_pos hq (Nat.succ_pos xs.length)
  have hgeo := one_sub_mul_weight q (xs.length + 1)
  have hpow := pow_nonneg hq (xs.length + 1)
  have hrest : 0 ≤ weighted q xs := by simpa using weighted_map_nonneg (f := id) hq hxs
  rw [weightedMean, weighted_concat, List.length_append, List.length_singleton, le_div_iff₀ hpos]
  calc (1 - q) * x * weight q (xs.length + 1) = (1 - q ^ (xs.length + 1)) * x := by rw [← hgeo]; ring
    _ ≤ 1 * x := mul_le_mul_of_nonneg_right (by linarith) hx
    _ ≤ q * weighted q xs + x := by linarith [mul_nonneg hq hrest]

/-- What weighs nothing where every weight counts is nothing. -/
theorem weighted_map_eq_zero (hq : 0 < q) (hf : ∀ a ∈ l, 0 ≤ f a) (h : weighted q (l.map f) = 0) : ∀ a ∈ l, f a = 0 := by
  induction l using List.reverseRecOn with
  | nil => simp
  | append_singleton l a ih =>
    have hl : ∀ b ∈ l, 0 ≤ f b := fun b hb => hf b (List.mem_append_left _ hb)
    have ha := hf a (List.mem_append_right _ (List.mem_singleton_self a))
    have hsum := weighted_map_nonneg hq.le hl
    rw [List.map_append, List.map_singleton, weighted_concat] at h
    have hzero : weighted q (l.map f) = 0 := by
      have := mul_nonneg hq.le hsum
      exact (mul_eq_zero.mp (by linarith)).resolve_left hq.ne'
    intro b hb
    rcases List.mem_append.mp hb with hb | hb
    · exact ih hl hzero b hb
    · rw [List.mem_singleton.mp hb]
      rw [hzero] at h
      linarith

end Order
end NTrade.Lib.Smoothing
