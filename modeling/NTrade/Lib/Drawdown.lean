import Mathlib.Algebra.Order.Field.Basic
import Mathlib.Algebra.Order.Group.MinMax
import Mathlib.Data.List.Forall2
import Mathlib.Tactic.FieldSimp
import Mathlib.Tactic.Linarith
import Mathlib.Tactic.Positivity
import Mathlib.Tactic.Ring

/-! The drawdown of a path, and how far paths that are near each other differ in it. -/
namespace NTrade.Lib.Drawdown
variable {K : Type*} [LinearOrder K]

/-- Each value of a path, with the highest so far. -/
def peaks : K → List K → List (K × K)
  | _, [] => []
  | peak, x :: xs => (max peak x, x) :: peaks (max peak x) xs

theorem peaks_concat (peak : K) (xs : List K) (x : K) :
    peaks peak (xs ++ [x]) = peaks peak xs ++ [(max (xs.foldl max peak) x, x)] := by
  induction xs generalizing peak with
  | nil => rfl
  | cons y ys ih =>
    rw [List.cons_append, peaks, ih, peaks]
    rfl

theorem map_snd_peaks (peak : K) (xs : List K) : (peaks peak xs).map Prod.snd = xs := by
  induction xs generalizing peak with
  | nil => rfl
  | cons x xs ih => rw [peaks, List.map_cons, ih]

variable [Field K]

def fall (p : K × K) : K := (p.1 - p.2) / p.1 * 100

def deeper (d : K) (p : K × K) : K := if 0 < p.1 then max d (fall p) else d

def drawdown (points : List (K × K)) : K := points.foldl deeper 0

theorem le_foldl_deeper (d : K) (points : List (K × K)) : d ≤ points.foldl deeper d := by
  induction points generalizing d with
  | nil => exact le_rfl
  | cons p points ih =>
    apply le_trans _ (ih (deeper d p))
    rw [deeper]
    split
    · exact le_max_left _ _
    · exact le_rfl

theorem fall_le_foldl {d : K} {points : List (K × K)} {p : K × K} (hp : p ∈ points) (hpos : 0 < p.1) :
    fall p ≤ points.foldl deeper d := by
  induction points generalizing d with
  | nil => cases hp
  | cons q points ih =>
    rcases List.mem_cons.mp hp with rfl | hp
    · apply le_trans _ (le_foldl_deeper (deeper d p) points)
      rw [deeper, if_pos hpos]
      exact le_max_right _ _
    · exact ih hp

/-- A point at its peak does not fall. -/
theorem drawdown_cons_self (c : K) (points : List (K × K)) : drawdown ((c, c) :: points) = drawdown points := by
  have hfall : deeper 0 (c, c) = 0 := by
    rw [deeper, fall, sub_self, zero_div, zero_mul, max_self]
    exact ite_self 0
  rw [drawdown, List.foldl_cons, hfall]
  rfl

variable [IsStrictOrderedRing K] {c ε b : K}

structure Near (c ε : K) (p q : K × K) : Prop where
  above : c ≤ p.1
  above' : c ≤ q.1
  below : q.2 ≤ q.1
  peak : |p.1 - q.1| ≤ ε
  value : |p.2 - q.2| ≤ ε

theorem Near.fall_nonneg {p q : K × K} (h : Near c ε p q) (hc : 0 < c) : 0 ≤ fall q := by
  have hq : 0 < q.1 := hc.trans_le h.above'
  rw [fall]
  have hd : 0 ≤ q.1 - q.2 := sub_nonneg.mpr h.below
  positivity

theorem Near.abs_fall_sub_le {p q : K × K} (h : Near c ε p q) (hc : 0 < c) :
    |fall p - fall q| ≤ ε / c * (200 + fall q) := by
  have hp : 0 < p.1 := hc.trans_le h.above
  have hq : 0 < q.1 := hc.trans_le h.above'
  have hε : 0 ≤ ε := (abs_nonneg _).trans h.peak
  have hfall := h.fall_nonneg hc
  have hsub : fall p - fall q = 100 / p.1 * (q.2 / q.1 * (p.1 - q.1) - (p.2 - q.2)) := by
    rw [fall, fall]
    field_simp
    ring
  have hratio : q.2 / q.1 = 1 - fall q / 100 := by
    rw [fall]
    field_simp
    ring
  have habs : |q.2 / q.1| ≤ 1 + fall q / 100 := by
    rw [hratio, abs_le]
    constructor <;> linarith
  have hin : |q.2 / q.1 * (p.1 - q.1) - (p.2 - q.2)| ≤ (2 + fall q / 100) * ε := by
    calc
      _ ≤ |q.2 / q.1| * |p.1 - q.1| + |p.2 - q.2| := by
        rw [← abs_mul]
        exact abs_sub _ _
      _ ≤ (1 + fall q / 100) * ε + ε :=
        add_le_add (mul_le_mul habs h.peak (abs_nonneg _) (by positivity)) h.value
      _ = (2 + fall q / 100) * ε := by ring
  rw [hsub, abs_mul, abs_of_pos (div_pos (by norm_num) hp)]
  calc
    _ ≤ 100 / p.1 * ((2 + fall q / 100) * ε) := mul_le_mul_of_nonneg_left hin (by positivity)
    _ ≤ 100 / c * ((2 + fall q / 100) * ε) :=
      mul_le_mul_of_nonneg_right (div_le_div_of_nonneg_left (by norm_num) hc h.above) (by positivity)
    _ = ε / c * (200 + fall q) := by
      field_simp
      ring

theorem near_peaks {xs ys : List K} (h : List.Forall₂ (fun x y => |x - y| ≤ ε) xs ys) {a b : K} (ha : c ≤ a)
    (hb : c ≤ b) (hab : |a - b| ≤ ε) : List.Forall₂ (Near c ε) (peaks a xs) (peaks b ys) := by
  induction h generalizing a b with
  | nil => exact .nil
  | cons hxy _ ih =>
    have hm := (abs_max_sub_max_le_max _ _ _ _).trans (max_le hab hxy)
    refine .cons ⟨le_max_of_le_left ha, le_max_of_le_left hb, le_max_right _ _, hm, hxy⟩ ?_
    exact ih (le_max_of_le_left ha) (le_max_of_le_left hb) hm

theorem foldl_deeper_near {ps qs : List (K × K)}
    (h : List.Forall₂ (fun p q => 0 < p.1 ∧ 0 < q.1 ∧ |fall p - fall q| ≤ b) ps qs) {d d' : K} (hd : |d - d'| ≤ b) :
    |ps.foldl deeper d - qs.foldl deeper d'| ≤ b := by
  induction h generalizing d d' with
  | nil => exact hd
  | cons hpq _ ih =>
    obtain ⟨hp, hq, hf⟩ := hpq
    apply ih
    rw [deeper, deeper, if_pos hp, if_pos hq]
    exact (abs_max_sub_max_le_max _ _ _ _).trans (max_le hd hf)

/-- Paths that are near each other from one positive start have near drawdowns. -/
theorem drawdown_near {xs ys : List K} (h : List.Forall₂ (fun x y => |x - y| ≤ ε) xs ys) (hc : 0 < c) (hε : 0 ≤ ε) :
    |drawdown (peaks c xs) - drawdown (peaks c ys)| ≤ ε / c * (200 + drawdown (peaks c ys)) := by
  have hn := near_peaks h le_rfl le_rfl (show |c - c| ≤ ε by rwa [sub_self, abs_zero])
  have hnonneg : 0 ≤ drawdown (peaks c ys) := le_foldl_deeper _ _
  apply foldl_deeper_near
  · rw [List.forall₂_iff_get] at hn ⊢
    refine ⟨hn.1, fun i hi hi' => ?_⟩
    have hnear := hn.2 i hi hi'
    have hq := hc.trans_le hnear.above'
    refine ⟨hc.trans_le hnear.above, hq, (hnear.abs_fall_sub_le hc).trans ?_⟩
    apply mul_le_mul_of_nonneg_left _ (by positivity)
    exact add_le_add_right (fall_le_foldl (List.get_mem _ _) hq) _
  · rw [sub_self, abs_zero]
    positivity

end NTrade.Lib.Drawdown
