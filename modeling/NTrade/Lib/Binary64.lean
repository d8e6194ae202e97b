import NTrade.Lib.HalfEven
import Mathlib.Algebra.Order.BigOperators.Group.List
import Mathlib.Data.Int.Log
import Mathlib.Data.Rat.Floor
import Mathlib.Tactic.NormNum
import Mathlib.Tactic.Ring

/-! Rounding to a significand of 53 bits, as floats are where nothing overflows and nothing is lost below the least of
them, and how far a number that was rounded several times is from the exact one. -/
namespace NTrade.Lib.Binary64

/-- How far the floats about a number are from each other. -/
def ulp (q : Rat) : Rat := 2 ^ (Int.log 2 |q| - 52)

/-- The float that is nearest to a number, the one with the even significand of two. -/
def round (q : Rat) : Rat := HalfEven.nearest (q / ulp q) * ulp q

/-- The float that is nearest to a number's value with this many decimals. -/
def decimals (q : Rat) (ndigits : Nat) : Rat := round (HalfEven.decimals q ndigits)

/-- A rounding moves a number by no more than this part of it. -/
def UNIT : Rat := 1 / 2 ^ 53

section Rounding
variable {q x y : Rat}

theorem ulp_pos (q : Rat) : 0 < ulp q := zpow_pos two_pos _

theorem ulp_neg (q : Rat) : ulp (-q) = ulp q := by rw [ulp, abs_neg, ulp]

/-- A whole number of steps is a float. -/
theorem round_of_steps {m : Int} (h : q = m * ulp q) : round q = q := by
  have hm : q / ulp q = m := (div_eq_iff (ulp_pos q).ne').mpr h
  rw [round, hm, HalfEven.nearest_intCast]
  exact h.symm

theorem round_zero : round 0 = 0 := round_of_steps (m := 0) (by rw [Int.cast_zero, zero_mul])

theorem round_neg (q : Rat) : round (-q) = -round q := by
  rw [round, ulp_neg, neg_div, HalfEven.nearest_neg, Int.cast_neg, neg_mul, round]

theorem abs_round_sub_le (q : Rat) : |round q - q| ≤ ulp q / 2 := by
  have hpos := ulp_pos q
  have hq : round q - q = (HalfEven.nearest (q / ulp q) - q / ulp q) * ulp q := by
    rw [round, sub_mul, div_mul_cancel₀ _ hpos.ne']
  have hnearest := HalfEven.abs_nearest_sub_le (q / ulp q)
  rw [hq, abs_mul, abs_of_pos hpos]
  calc
    |(HalfEven.nearest (q / ulp q) : Rat) - q / ulp q| * ulp q ≤ 1 / 2 * ulp q :=
      mul_le_mul_of_nonneg_right hnearest hpos.le
    _ = ulp q / 2 := by ring

/-- A number is at least 2 ^ 52 steps of its floats, and less than 2 ^ 53. -/
theorem ulp_bounds (h : 0 < q) : 2 ^ 52 * ulp q ≤ q ∧ q < 2 ^ 53 * ulp q := by
  have hlog : (2 : Rat) ^ Int.log 2 q ≤ q := by exact_mod_cast Int.zpow_log_le_self one_lt_two h
  have hnext : q < (2 : Rat) ^ (Int.log 2 q + 1) := by exact_mod_cast Int.lt_zpow_succ_log_self one_lt_two q
  have hulp : ulp q = (2 : Rat) ^ Int.log 2 q / 2 ^ 52 := by
    rw [ulp, abs_of_pos h, zpow_sub₀ two_ne_zero]
    norm_cast
  rw [zpow_add_one₀ two_ne_zero] at hnext
  rw [hulp]
  constructor
  · rw [mul_div_cancel₀ _ (by positivity)]
    exact hlog
  · calc
      q < (2 : Rat) ^ Int.log 2 q * 2 := hnext
      _ = 2 ^ 53 * ((2 : Rat) ^ Int.log 2 q / 2 ^ 52) := by ring

/-- Rounding does not leave the numbers with the same distance of floats, their upper end included. -/
theorem round_bounds (h : 0 < q) : 2 ^ 52 * ulp q ≤ round q ∧ round q ≤ 2 ^ 53 * ulp q := by
  have hpos := ulp_pos q
  obtain ⟨hlow, hhigh⟩ := ulp_bounds h
  have hlow' : ((2 ^ 52 : Int) : Rat) ≤ q / ulp q := by
    rw [le_div_iff₀ hpos]
    exact_mod_cast hlow
  have hhigh' : q / ulp q ≤ ((2 ^ 53 : Int) : Rat) := by
    rw [div_le_iff₀ hpos]
    exact_mod_cast hhigh.le
  have hle := HalfEven.nearest_mono hlow'
  have hge := HalfEven.nearest_mono hhigh'
  rw [HalfEven.nearest_intCast] at hle hge
  constructor
  · exact mul_le_mul_of_nonneg_right (by exact_mod_cast hle) hpos.le
  · exact mul_le_mul_of_nonneg_right (by exact_mod_cast hge) hpos.le

theorem round_pos (h : 0 < q) : 0 < round q :=
  (mul_pos (by positivity) (ulp_pos q)).trans_le (round_bounds h).1

theorem round_nonneg (h : 0 ≤ q) : 0 ≤ round q := by
  rcases h.eq_or_lt with rfl | h
  · exact round_zero.ge
  · exact (round_pos h).le

theorem round_nonpos (h : q ≤ 0) : round q ≤ 0 := by
  have hneg := round_nonneg (neg_nonneg.mpr h)
  rw [round_neg] at hneg
  exact neg_nonneg.mp hneg

/-- Rounding keeps the sign. -/
theorem round_pos_iff : 0 < round q ↔ 0 < q := by
  refine ⟨fun h => ?_, round_pos⟩
  by_contra hq
  exact absurd (round_nonpos (not_lt.mp hq)) (not_le.mpr h)

/-- The floats are no denser about a larger number. -/
theorem ulp_mono (hx : 0 < x) (h : x ≤ y) : ulp x = ulp y ∨ 2 * ulp x ≤ ulp y := by
  have hlog : Int.log 2 x ≤ Int.log 2 y := Int.log_mono_right hx h
  rw [ulp, ulp, abs_of_pos hx, abs_of_pos (hx.trans_le h)]
  rcases hlog.eq_or_lt with heq | hlt
  · exact .inl (by rw [heq])
  · refine .inr ?_
    rw [← zpow_one_add₀ two_ne_zero]
    exact zpow_le_zpow_right₀ one_le_two (by omega)

private theorem round_mono_of_pos (hx : 0 < x) (h : x ≤ y) : round x ≤ round y := by
  rcases ulp_mono hx h with heq | hle
  · rw [round, round, heq]
    have hpos := ulp_pos y
    have hnearest := HalfEven.nearest_mono (div_le_div_of_nonneg_right h hpos.le)
    exact mul_le_mul_of_nonneg_right (by exact_mod_cast hnearest) hpos.le
  · calc
      round x ≤ 2 ^ 53 * ulp x := (round_bounds hx).2
      _ = 2 ^ 52 * (2 * ulp x) := by ring
      _ ≤ 2 ^ 52 * ulp y := mul_le_mul_of_nonneg_left hle (by positivity)
      _ ≤ round y := (round_bounds (hx.trans_le h)).1

theorem round_mono (h : x ≤ y) : round x ≤ round y := by
  rcases lt_or_ge 0 x with hx | hx
  · exact round_mono_of_pos hx h
  · rcases lt_or_ge y 0 with hy | hy
    · have hneg := round_mono_of_pos (neg_pos.mpr hy) (neg_le_neg h)
      rw [round_neg, round_neg] at hneg
      exact neg_le_neg_iff.mp hneg
    · exact (round_nonpos hx).trans (round_nonneg hy)

theorem decimals_mono (h : x ≤ y) (ndigits : Nat) : decimals x ndigits ≤ decimals y ndigits :=
  round_mono (HalfEven.decimals_mono h ndigits)

/-- The steps of a number are told by where it lies between two powers. -/
theorem ulp_eq {e : Int} (hlow : 2 ^ 52 * 2 ^ e ≤ x) (hhigh : x < 2 ^ 53 * 2 ^ e) : ulp x = 2 ^ e := by
  have hpow : (0 : Rat) < 2 ^ e := zpow_pos two_pos e
  have hx : 0 < x := (mul_pos (by positivity) hpow).trans_le hlow
  have hle : 52 + e ≤ Int.log 2 x := by
    apply (Int.zpow_le_iff_le_log one_lt_two hx).mp
    push_cast
    rw [zpow_add₀ two_ne_zero]
    exact_mod_cast hlow
  have hlt : Int.log 2 x < 53 + e := by
    apply (Int.lt_zpow_iff_log_lt one_lt_two hx).mp
    push_cast
    rw [zpow_add₀ two_ne_zero]
    exact_mod_cast hhigh
  rw [ulp, abs_of_pos hx]
  congr 1
  omega

private theorem round_round_of_pos (h : 0 < q) : round (round q) = round q := by
  obtain ⟨hlow, hhigh⟩ := round_bounds h
  rcases hhigh.eq_or_lt with htop | hlt
  · -- rounded up to the next power of two, about which the steps are twice as long
    refine round_of_steps (m := 2 ^ 52) ?_
    have hulp : ulp (round q) = 2 ^ (Int.log 2 |q| - 52 + 1) := by
      apply ulp_eq
      · rw [htop, zpow_add_one₀ two_ne_zero, ← ulp]
        linarith
      · rw [htop, zpow_add_one₀ two_ne_zero, ← ulp]
        linarith [ulp_pos q]
    rw [hulp, zpow_add_one₀ two_ne_zero, ← ulp, htop]
    push_cast
    ring
  · have hulp : ulp (round q) = ulp q := ulp_eq hlow hlt
    refine round_of_steps (m := HalfEven.nearest (q / ulp q)) ?_
    rw [hulp, round]

/-- What is rounded is a float. -/
theorem round_round (q : Rat) : round (round q) = round q := by
  rcases lt_trichotomy q 0 with hneg | rfl | hpos
  · have h := round_round_of_pos (neg_pos.mpr hneg)
    rw [round_neg, round_neg] at h
    exact neg_inj.mp h
  · rw [round_zero, round_zero]
  · exact round_round_of_pos hpos

def Whole (q : Rat) : Prop := ∃ n : Nat, (n : Rat) = q

theorem whole_zero : Whole 0 := ⟨0, Nat.cast_zero⟩

theorem Whole.nonneg (h : Whole q) : 0 ≤ q := by
  obtain ⟨n, rfl⟩ := h
  exact Nat.cast_nonneg n

theorem Whole.add (h : Whole x) (h' : Whole y) : Whole (x + y) := by
  obtain ⟨m, rfl⟩ := h
  obtain ⟨n, rfl⟩ := h'
  exact ⟨m + n, Nat.cast_add m n⟩

theorem whole_sum {xs : List Rat} (h : ∀ x ∈ xs, Whole x) : Whole xs.sum := by
  induction xs with
  | nil => exact whole_zero
  | cons x xs ih =>
    rw [List.sum_cons]
    exact (h x List.mem_cons_self).add (ih fun y hy => h y (List.mem_cons_of_mem x hy))

/-- Up to 2 ^ 53 every whole number is a float. -/
theorem round_of_whole (h : Whole q) (hle : q ≤ 2 ^ 53) : round q = q := by
  obtain ⟨n, rfl⟩ := h
  have hle' : n ≤ 2 ^ 53 := by exact_mod_cast hle
  rcases Nat.eq_zero_or_pos n with rfl | hn
  · exact round_zero
  · have hlog : Int.log 2 |(n : Rat)| = Nat.log 2 n := by rw [Nat.abs_cast, Int.log_natCast]
    rcases hle'.eq_or_lt with rfl | hlt
    · -- the last of them is an even number of steps
      refine round_of_steps (m := 2 ^ 52) ?_
      rw [ulp, hlog, Nat.log_pow one_lt_two]
      norm_num
    · have hle : Nat.log 2 n ≤ 52 := Nat.lt_succ_iff.mp (Nat.log_lt_of_lt_pow hn.ne' hlt)
      refine round_of_steps (m := n * 2 ^ (52 - Nat.log 2 n)) ?_
      have hexp : (Nat.log 2 n : Int) - 52 = -((52 - Nat.log 2 n : Nat) : Int) := by omega
      rw [ulp, hlog, hexp, zpow_neg, zpow_natCast]
      push_cast
      rw [mul_assoc, mul_inv_cancel₀ (by positivity), mul_one]

end Rounding

/-- What a way to round results keeps. -/
structure Rounding (fl : Rat → Rat) : Prop where
  mono : Monotone fl
  pos_iff : ∀ x, 0 < fl x ↔ 0 < x

theorem rounding_exact : Rounding id := ⟨monotone_id, fun _ => Iff.rfl⟩

theorem rounding_round : Rounding round := ⟨fun _ _ => round_mono, fun _ => round_pos_iff⟩

section Nearness

/-- A number that lies within some relative roundings of a number that is not negative. -/
structure Near (k : Nat) (exact computed : Rat) : Prop where
  nonneg : 0 ≤ exact
  low : (1 - UNIT) ^ k * exact ≤ computed
  high : computed ≤ (1 + UNIT) ^ k * exact

variable {k l : Nat} {x x' y y' : Rat}

theorem unit_pos : 0 < UNIT := by
  rw [UNIT]
  positivity

theorem one_sub_unit_pos : 0 < 1 - UNIT := by
  rw [UNIT]
  norm_num

theorem Near.refl (h : 0 ≤ x) : Near 0 x x where
  nonneg := h
  low := by rw [pow_zero, one_mul]
  high := by rw [pow_zero, one_mul]

theorem Near.computed_nonneg (h : Near k x y) : 0 ≤ y :=
  (mul_nonneg (pow_nonneg one_sub_unit_pos.le k) h.nonneg).trans h.low

theorem Near.computed_pos (h : Near k x y) (hx : 0 < x) : 0 < y :=
  (mul_pos (pow_pos one_sub_unit_pos k) hx).trans_le h.low

theorem Near.mono (h : Near k x y) (hkl : k ≤ l) : Near l x y where
  nonneg := h.nonneg
  low := by
    have hpow : (1 - UNIT) ^ l ≤ (1 - UNIT) ^ k :=
      pow_le_pow_of_le_one one_sub_unit_pos.le (sub_le_self 1 unit_pos.le) hkl
    exact (mul_le_mul_of_nonneg_right hpow h.nonneg).trans h.low
  high := by
    have hpow : (1 + UNIT) ^ k ≤ (1 + UNIT) ^ l := pow_le_pow_right₀ (le_add_of_nonneg_right unit_pos.le) hkl
    exact h.high.trans (mul_le_mul_of_nonneg_right hpow h.nonneg)

theorem Near.add (h : Near k x y) (h' : Near k x' y') : Near k (x + x') (y + y') where
  nonneg := add_nonneg h.nonneg h'.nonneg
  low := by
    rw [mul_add]
    exact add_le_add h.low h'.low
  high := by
    rw [mul_add]
    exact add_le_add h.high h'.high

theorem Near.mul (h : Near k x y) (h' : Near l x' y') : Near (k + l) (x * x') (y * y') where
  nonneg := mul_nonneg h.nonneg h'.nonneg
  low := by
    rw [pow_add, mul_mul_mul_comm]
    exact mul_le_mul h.low h'.low (mul_nonneg (pow_nonneg one_sub_unit_pos.le l) h'.nonneg) h.computed_nonneg
  high := by
    rw [pow_add, mul_mul_mul_comm]
    exact mul_le_mul h.high h'.high h'.computed_nonneg (h.computed_nonneg.trans h.high)

/-- Rounding a number that is not negative moves it by a part of it. -/
theorem near_round (h : 0 ≤ x) : Near 1 x (round x) := by
  rcases h.eq_or_lt with rfl | hpos
  · rw [round_zero]
    exact (Near.refl le_rfl).mono zero_le_one
  · have herror := abs_le.mp (abs_round_sub_le x)
    have hulp : ulp x / 2 ≤ UNIT * x := by
      have hle := (ulp_bounds hpos).1
      rw [UNIT]
      linarith
    refine ⟨h, ?_, ?_⟩
    · rw [pow_one]
      linarith
    · rw [pow_one]
      linarith

/-- One more rounding. -/
theorem Near.round (h : Near k x y) : Near (k + 1) x (round y) := by
  have hround := near_round h.computed_nonneg
  refine ⟨h.nonneg, ?_, ?_⟩
  · calc
      (1 - UNIT) ^ (k + 1) * x = (1 - UNIT) ^ 1 * ((1 - UNIT) ^ k * x) := by ring
      _ ≤ (1 - UNIT) ^ 1 * y := mul_le_mul_of_nonneg_left h.low (pow_nonneg one_sub_unit_pos.le 1)
      _ ≤ Binary64.round y := hround.low
  · have hone : (0 : Rat) ≤ 1 + UNIT := add_nonneg zero_le_one unit_pos.le
    calc
      Binary64.round y ≤ (1 + UNIT) ^ 1 * y := hround.high
      _ ≤ (1 + UNIT) ^ 1 * ((1 + UNIT) ^ k * x) := mul_le_mul_of_nonneg_left h.high (pow_nonneg hone 1)
      _ = (1 + UNIT) ^ (k + 1) * x := by ring

/-- What is negative counts as nothing, before or after rounding. -/
theorem near_max_zero (x : Rat) : Near 1 (max x 0) (max (Binary64.round x) 0) := by
  rcases le_total 0 x with h | h
  · rw [max_eq_left h, max_eq_left (round_nonneg h)]
    exact near_round h
  · rw [max_eq_right h, max_eq_right (round_nonpos h)]
    exact (Near.refl le_rfl).mono zero_le_one

theorem Near.nil : Near k ([] : List Rat).sum ([] : List Rat).sum := (Near.refl le_rfl).mono (Nat.zero_le k)

/-- Exact sums of numbers that are near each other. -/
theorem Near.sum {xs ys : List Rat} (h : List.Forall₂ (Near k) xs ys) : Near k xs.sum ys.sum := by
  induction h with
  | nil => exact Near.nil
  | cons hxy _ ih =>
    rw [List.sum_cons, List.sum_cons]
    exact hxy.add ih

/-- By which factor numbers may be out of order that are in order after some roundings. -/
def slack (k : Nat) : Rat := ((1 + UNIT) / (1 - UNIT)) ^ k

theorem one_le_slack (k : Nat) : 1 ≤ slack k := by
  refine one_le_pow₀ ((one_le_div one_sub_unit_pos).mpr ?_)
  linarith [unit_pos]

theorem slack_nonneg (k : Nat) : 0 ≤ slack k :=
  pow_nonneg (div_nonneg (add_nonneg zero_le_one unit_pos.le) one_sub_unit_pos.le) k

theorem Near.le_of_le (h : Near k x y) (h' : Near k x' y') (hle : y ≤ y') : x ≤ slack k * x' := by
  have hpos : 0 < (1 - UNIT) ^ k := pow_pos one_sub_unit_pos k
  rw [slack, div_pow, div_mul_eq_mul_div, le_div_iff₀ hpos, mul_comm]
  exact h.low.trans (hle.trans h'.high)

/-- Adding numbers up one by one, each of them near an exact one, with a rounding after each. -/
theorem near_foldl {α : Type*} {exact computed : α → Rat} (items : List α) {start total : Rat}
    (h : ∀ a ∈ items, Near k (exact a) (computed a)) (hstart : Near (k + l) total start) :
    Near (k + l + items.length) (total + (items.map exact).sum)
      (items.foldl (fun sum a => round (sum + computed a)) start) := by
  induction items generalizing start total l with
  | nil => simpa using hstart
  | cons a items ih =>
    have hitem := (h a List.mem_cons_self).mono (Nat.le_add_right k l)
    have hnext : Near (k + (l + 1)) (total + exact a) (Binary64.round (start + computed a)) := (hstart.add hitem).round
    have hrest := ih (fun b hb => h b (List.mem_cons_of_mem a hb)) hnext
    rw [List.foldl_cons, List.map_cons, List.sum_cons, ← add_assoc, List.length_cons]
    have hlength : k + l + (items.length + 1) = k + (l + 1) + items.length := by omega
    rw [hlength]
    exact hrest

/-- A way to add up floats, from the first to the last or with something that makes up for the roundings. -/
structure Summation where
  sum : List Rat → Rat
  near : ∀ xs, (∀ x ∈ xs, 0 ≤ x) → Near xs.length xs.sum (sum xs)
  whole : ∀ xs, (∀ x ∈ xs, Whole x) → xs.sum ≤ 2 ^ 53 → sum xs = xs.sum

private theorem foldl_whole {xs : List Rat} {start : Rat} (hstart : Whole start) (h : ∀ x ∈ xs, Whole x)
    (hle : start + xs.sum ≤ 2 ^ 53) : xs.foldl (fun sum x => Binary64.round (sum + x)) start = start + xs.sum := by
  induction xs generalizing start with
  | nil => exact (add_zero start).symm
  | cons x xs ih =>
    rw [List.sum_cons, ← add_assoc] at hle
    have hrest : ∀ y ∈ xs, Whole y := fun y hy => h y (List.mem_cons_of_mem x hy)
    have hnext := hstart.add (h x List.mem_cons_self)
    have hround : Binary64.round (start + x) = start + x :=
      round_of_whole hnext (le_trans (le_add_of_nonneg_right (whole_sum hrest).nonneg) hle)
    rw [List.foldl_cons, hround, ih hnext hrest hle, List.sum_cons, add_assoc]

def Summation.running : Summation where
  sum xs := xs.foldl (fun sum x => Binary64.round (sum + x)) 0
  near xs h := by
    have hsum := near_foldl (k := 0) (l := 0) xs (fun x hx => Near.refl (h x hx)) (Near.refl (le_refl (0 : Rat)))
    rw [zero_add, zero_add, zero_add, List.map_id'] at hsum
    exact hsum
  whole xs h hle := by
    rw [foldl_whole whole_zero h (by rwa [zero_add]), zero_add]

end Nearness

end NTrade.Lib.Binary64
