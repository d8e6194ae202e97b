import Mathlib.Algebra.Order.Field.Basic
import Mathlib.Algebra.BigOperators.Group.List.Basic
import Mathlib.Data.Finset.Max
import Mathlib.Tactic.Linarith
import Mathlib.Tactic.LinearCombination
import Mathlib.Tactic.Ring

/-! Functions that are straight between finitely many breakpoints, fall before the first and rise after the last: sums of
them are such functions, and each has its least value at a breakpoint. -/
namespace NTrade.Lib.Breakpoints

variable {K : Type*} [Field K] [LinearOrder K] [IsStrictOrderedRing K]

structure Kinked (ks : Finset K) (f : K → K) : Prop where
  straight : ∀ a x b, a ≤ x → x ≤ b → (∀ k ∈ ks, k ≤ a ∨ b ≤ k) → (b - a) * f x = (b - x) * f a + (x - a) * f b
  falls : ∀ x y, x ≤ y → (∀ k ∈ ks, y ≤ k) → f y ≤ f x
  rises : ∀ x y, x ≤ y → (∀ k ∈ ks, k ≤ x) → f x ≤ f y

variable {ks : Finset K} {f g : K → K}

omit [IsStrictOrderedRing K] in
theorem Kinked.zero : Kinked ks fun _ => 0 :=
  ⟨fun _ _ _ _ _ _ => by ring, fun _ _ _ _ => le_rfl, fun _ _ _ _ => le_rfl⟩

theorem Kinked.add (hf : Kinked ks f) (hg : Kinked ks g) : Kinked ks fun x => f x + g x where
  straight a x b ha hb hk := by linear_combination hf.straight a x b ha hb hk + hg.straight a x b ha hb hk
  falls x y h hk := add_le_add (hf.falls x y h hk) (hg.falls x y h hk)
  rises x y h hk := add_le_add (hf.rises x y h hk) (hg.rises x y h hk)

theorem Kinked.mul_const (hf : Kinked ks f) {c : K} (hc : 0 ≤ c) : Kinked ks fun x => f x * c where
  straight a x b ha hb hk := by linear_combination c * hf.straight a x b ha hb hk
  falls x y h hk := mul_le_mul_of_nonneg_right (hf.falls x y h hk) hc
  rises x y h hk := mul_le_mul_of_nonneg_right (hf.rises x y h hk) hc

theorem Kinked.sum {ι : Type*} {fs : List ι} {f : ι → K → K} (h : ∀ i ∈ fs, Kinked ks (f i)) :
    Kinked ks fun x => (fs.map fun i => f i x).sum := by
  induction fs with
  | nil => exact Kinked.zero
  | cons i fs ih =>
    simp only [List.map_cons, List.sum_cons]
    exact (h i List.mem_cons_self).add (ih fun j hj => h j (List.mem_cons_of_mem i hj))

/-- What is above a breakpoint. -/
theorem kinked_above {k : K} (hk : k ∈ ks) : Kinked ks fun x => max (x - k) 0 where
  straight a x b ha hb hks := by
    rcases hks k hk with h | h
    · rw [max_eq_left (by linarith), max_eq_left (by linarith), max_eq_left (by linarith)]
      ring
    · rw [max_eq_right (by linarith), max_eq_right (by linarith), max_eq_right (by linarith)]
      ring
  falls x y _ hks := by
    rw [max_eq_right (sub_nonpos.mpr (hks k hk))]
    exact le_max_right _ _
  rises x y h _ := max_le_max_right 0 (sub_le_sub_right h k)

/-- What is below a breakpoint. -/
theorem kinked_below {k : K} (hk : k ∈ ks) : Kinked ks fun x => max (k - x) 0 where
  straight a x b ha hb hks := by
    rcases hks k hk with h | h
    · rw [max_eq_right (by linarith), max_eq_right (by linarith), max_eq_right (by linarith)]
      ring
    · rw [max_eq_left (by linarith), max_eq_left (by linarith), max_eq_left (by linarith)]
      ring
  falls x y h _ := max_le_max_right 0 (sub_le_sub_left h k)
  rises x y _ hks := by
    rw [max_eq_right (sub_nonpos.mpr (hks k hk))]
    exact le_max_right _ _

/-- On a straight piece a value is not below both ends. -/
private theorem end_le {a x b : K} (ha : a ≤ x) (hb : x ≤ b) (h : (b - a) * f x = (b - x) * f a + (x - a) * f b) :
    f a ≤ f x ∨ f b ≤ f x := by
  by_contra! hlt
  obtain ⟨hfa, hfb⟩ := hlt
  rcases ha.eq_or_lt with rfl | ha
  · exact lt_irrefl _ hfa
  · have hleft : 0 ≤ (b - x) * (f a - f x) := mul_nonneg (sub_nonneg.mpr hb) (sub_nonneg.mpr hfa.le)
    have hright : 0 < (x - a) * (f b - f x) := mul_pos (sub_pos.mpr ha) (sub_pos.mpr hfb)
    linarith

/-- A kinked function is nowhere below all its values at breakpoints. -/
theorem Kinked.exists_le (hf : Kinked ks f) (hne : ks.Nonempty) (x : K) : ∃ k ∈ ks, f k ≤ f x := by
  by_cases hbelow : (ks.filter (· ≤ x)).Nonempty
  · obtain ⟨a, ha, hmax⟩ := Finset.exists_max_image _ id hbelow
    obtain ⟨hak, hax⟩ := Finset.mem_filter.mp ha
    by_cases habove : (ks.filter (x ≤ ·)).Nonempty
    · obtain ⟨b, hb, hmin⟩ := Finset.exists_min_image _ id habove
      obtain ⟨hbk, hxb⟩ := Finset.mem_filter.mp hb
      have hgap (k : K) (hk : k ∈ ks) : k ≤ a ∨ b ≤ k := by
        rcases le_total k x with h | h
        · exact .inl (hmax k (Finset.mem_filter.mpr ⟨hk, h⟩))
        · exact .inr (hmin k (Finset.mem_filter.mpr ⟨hk, h⟩))
      rcases end_le hax hxb (hf.straight a x b hax hxb hgap) with h | h
      · exact ⟨a, hak, h⟩
      · exact ⟨b, hbk, h⟩
    · refine ⟨a, hak, hf.rises a x hax fun k hk => hmax k (Finset.mem_filter.mpr ⟨hk, ?_⟩)⟩
      by_contra hlt
      exact habove ⟨k, Finset.mem_filter.mpr ⟨hk, (not_le.mp hlt).le⟩⟩
  · obtain ⟨b, hb, hmin⟩ := Finset.exists_min_image ks id hne
    refine ⟨b, hb, hf.falls x b ?_ hmin⟩
    by_contra hlt
    exact hbelow ⟨b, Finset.mem_filter.mpr ⟨hb, (not_le.mp hlt).le⟩⟩

end NTrade.Lib.Breakpoints
