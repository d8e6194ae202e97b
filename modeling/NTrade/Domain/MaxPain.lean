import NTrade.Domain.Derivatives
import NTrade.Lib.Binary64
import NTrade.Lib.Breakpoints
import Mathlib.Algebra.Order.Ring.Cast
import Mathlib.Data.List.MinMax
import Mathlib.Data.Real.Basic

/-! The strike at which the holders of a chain's options are paid least, which is found with floats. -/
namespace NTrade.Domain.MaxPain

open NTrade.Domain.Derivatives NTrade.Lib NTrade.Lib.Breakpoints

section Model

def optionPain (strike : Rat) (o : OptionContract Rat) : Rat :=
  let value :=
    if o.optionType = .CE then max (Binary64.round (strike - o.strike)) 0 else max (Binary64.round (o.strike - strike)) 0
  Binary64.round (value * Binary64.round (max o.oi 0 : Int))

def pain (options : List (OptionContract Rat)) (strike : Rat) : Rat :=
  options.foldl (fun pain o => Binary64.round (pain + optionPain strike o)) 0

/-- One strike of the loop over them, with the best strike and its pain so far. -/
def betterStrike (options : List (OptionContract Rat)) (best : Rat × WithTop Rat) (strike : Rat) : Rat × WithTop Rat :=
  let pain := pain options strike
  if (pain : WithTop Rat) < best.2 then (strike, pain) else best

def maxPain (options : List (OptionContract Rat)) : Rat :=
  ((strikes options).foldl (betterStrike options) (0, ⊤)).1

end Model

section Payout

variable {K : Type*} [Field K] [LinearOrder K]

/-- What the holders of all options are paid when the underlying settles at a price. -/
def payout (options : List (OptionContract K)) (settlement : K) : K :=
  (options.map fun o => intrinsicValue o.optionType settlement o.strike * (max o.oi 0 : Int)).sum

variable [IsStrictOrderedRing K] {options : List (OptionContract K)}

theorem kinked_payout : Kinked (strikes options).toFinset (payout options) := by
  apply Kinked.sum
  intro o ho
  have hk : o.strike ∈ (strikes options).toFinset := List.mem_toFinset.mpr (mem_strikes.mpr ⟨o, ho, rfl⟩)
  have hoi : (0 : K) ≤ (max o.oi 0 : Int) := Int.cast_nonneg (le_max_right _ _)
  cases htype : o.optionType with
  | CE => exact (kinked_above hk).mul_const hoi
  | PE => exact (kinked_below hk).mul_const hoi

/-- No settlement price pays less than all strikes. -/
theorem exists_strike_le (h : options ≠ []) (settlement : K) :
    ∃ k ∈ strikes options, payout options k ≤ payout options settlement := by
  obtain ⟨o, ho⟩ := List.exists_mem_of_ne_nil options h
  have hstrike : o.strike ∈ (strikes options).toFinset := List.mem_toFinset.mpr (mem_strikes.mpr ⟨o, ho, rfl⟩)
  obtain ⟨k, hk, hle⟩ := kinked_payout.exists_le ⟨o.strike, hstrike⟩ settlement
  exact ⟨k, List.mem_toFinset.mp hk, hle⟩

end Payout

section Reals

def real (o : OptionContract Rat) : OptionContract ℝ := ⟨o.strike, o.optionType, o.oi⟩

variable {options : List (OptionContract Rat)}

theorem payout_real (settlement : Rat) : payout (options.map real) settlement = (payout options settlement : Rat) := by
  have hvalue (o : OptionContract Rat) : intrinsicValue o.optionType (settlement : ℝ) (real o).strike =
      (intrinsicValue o.optionType settlement o.strike : Rat) := by
    cases htype : o.optionType with
    | CE => simp [intrinsicValue, real]
    | PE => simp [intrinsicValue, real]
  induction options with
  | nil => simp [payout]
  | cons o options ih =>
    rw [payout] at ih ⊢
    rw [List.map_cons, List.map_cons, List.sum_cons, ih, payout, payout, List.map_cons, List.sum_cons]
    have ho := hvalue o
    simp only [real] at ho ⊢
    rw [ho]
    push_cast
    rfl

theorem mem_strikes_real {k : ℝ} : k ∈ strikes (options.map real) ↔ ∃ strike ∈ strikes options, (strike : ℝ) = k := by
  simp [mem_strikes, real]

end Reals

section Rounding

variable {options : List (OptionContract Rat)}

theorem near_optionPain (strike : Rat) (o : OptionContract Rat) :
    Binary64.Near 3 (intrinsicValue o.optionType strike o.strike * (max o.oi 0 : Int)) (optionPain strike o) := by
  have hoi : Binary64.Near 1 ((max o.oi 0 : Int) : Rat) (Binary64.round (max o.oi 0 : Int)) :=
    Binary64.near_round (Int.cast_nonneg (le_max_right _ _))
  cases htype : o.optionType with
  | CE =>
    rw [intrinsicValue, optionPain, if_pos rfl, htype, if_pos rfl]
    exact ((Binary64.near_max_zero _).mul hoi).round
  | PE =>
    rw [intrinsicValue, optionPain, if_neg nofun, htype, if_neg nofun]
    exact ((Binary64.near_max_zero _).mul hoi).round

/-- What the loop adds up is what the holders are paid, but for three roundings of each part and one of each sum. -/
theorem near_pain {strike : Rat} : Binary64.Near (3 + options.length) (payout options strike) (pain options strike) := by
  have hstart : Binary64.Near (3 + 0) 0 0 := (Binary64.Near.refl le_rfl).mono (Nat.zero_le _)
  have hsum := Binary64.near_foldl options (fun o _ => near_optionPain strike o) hstart
  rw [zero_add] at hsum
  exact hsum

end Rounding

variable {options : List (OptionContract Rat)}

/-- The loop keeps the first of the strikes with the least pain. -/
theorem foldl_betterStrike (ks : List Rat) :
    ks.foldl (betterStrike options) (0, ⊤) =
      (ks.argmin (pain options)).elim (0, ⊤) fun k => (k, ((pain options k : Rat) : WithTop Rat)) := by
  induction ks using List.reverseRecOn with
  | nil => rfl
  | append_singleton ks k ih =>
    rw [List.foldl_append, ih, List.argmin_concat]
    cases ks.argmin (pain options) with
    | none =>
      have htop : ((pain options k : Rat) : WithTop Rat) < ⊤ := WithTop.coe_lt_top _
      simp only [Option.elim_none, List.foldl_cons, List.foldl_nil, betterStrike, if_pos htop]
      rfl
    | some best =>
      simp only [Option.elim_some, List.foldl_cons, List.foldl_nil, betterStrike, WithTop.coe_lt_coe]
      split_ifs <;> rfl

/-- In an increasing list the first of the values at which a function is least is the lowest of them. -/
private theorem le_of_mem_argmin {f : Rat → Rat} {ks : List Rat} {m k : Rat} (hks : ks.Pairwise (· < ·))
    (hm : m ∈ ks.argmin f) (hk : k ∈ ks) (hle : f k ≤ f m) : m ≤ k := by
  have hindex := List.index_of_argmin hm hk hle
  rcases hindex.eq_or_lt with heq | hlt
  · exact ((List.idxOf_inj (List.argmin_mem hm)).mp heq).le
  · have hm' := List.idxOf_lt_length_of_mem (List.argmin_mem hm)
    have hk' := List.idxOf_lt_length_of_mem hk
    have hvalues := List.pairwise_iff_getElem.mp hks _ _ hm' hk' hlt
    rw [List.getElem_idxOf, List.getElem_idxOf] at hvalues
    exact hvalues.le

/-- The strike that is found has the least pain of all strikes, and is the lowest of those that do. -/
theorem maxPain_least (h : options ≠ []) :
    maxPain options ∈ strikes options ∧
      ∀ k ∈ strikes options, pain options (maxPain options) ≤ pain options k ∧
        (pain options k ≤ pain options (maxPain options) → maxPain options ≤ k) := by
  obtain ⟨o, ho⟩ := List.exists_mem_of_ne_nil options h
  obtain ⟨m, hm⟩ : ∃ m, m ∈ (strikes options).argmin (pain options) := by
    apply Option.ne_none_iff_exists'.mp
    rw [Ne, List.argmin_eq_none]
    exact List.ne_nil_of_mem (mem_strikes.mpr ⟨o, ho, rfl⟩)
  have hmax : maxPain options = m := by
    rw [maxPain, foldl_betterStrike, Option.mem_def.mp hm, Option.elim_some]
  rw [hmax]
  exact ⟨List.argmin_mem hm, fun k hk => ⟨List.le_of_mem_argmin hk hm, le_of_mem_argmin strikes_increasing hm hk⟩⟩

/-- No real settlement price pays the holders less than some strike. -/
private theorem exists_strike_le_real (h : options ≠ []) (settlement : ℝ) :
    ∃ k ∈ strikes options, ((payout options k : Rat) : ℝ) ≤ payout (options.map real) settlement := by
  have hne : options.map real ≠ [] := fun he => h (List.map_eq_nil_iff.mp he)
  obtain ⟨k, hk, hle⟩ := exists_strike_le hne settlement
  obtain ⟨strike, hstrike, rfl⟩ := mem_strikes_real.mp hk
  rw [payout_real] at hle
  exact ⟨strike, hstrike, hle⟩

/-- The strike of a chain that is not empty has the least pain that is computed of all strikes, and is the lowest that
does. No real settlement price pays the holders less by more than the roundings account for; and where the pain of each
strike is what the holders are paid, none pays less at all, and no lower strike pays as little. -/
theorem max_pain_minimises (h : options ≠ []) :
    maxPain options ∈ strikes options ∧
      (∀ k ∈ strikes options, pain options (maxPain options) ≤ pain options k ∧
        (pain options k ≤ pain options (maxPain options) → maxPain options ≤ k)) ∧
      (∀ settlement : ℝ, payout (options.map real) (maxPain options) ≤
        Binary64.slack (3 + options.length) * payout (options.map real) settlement) ∧
      ((∀ k ∈ strikes options, pain options k = payout options k) →
        (∀ settlement : ℝ, payout (options.map real) (maxPain options) ≤ payout (options.map real) settlement) ∧
          ∀ k ∈ strikes options,
            (∀ settlement : ℝ, payout (options.map real) k ≤ payout (options.map real) settlement) → maxPain options ≤ k) := by
  obtain ⟨hmem, hleast⟩ := maxPain_least h
  have hslack : (0 : Rat) ≤ Binary64.slack (3 + options.length) := Binary64.slack_nonneg _
  refine ⟨hmem, hleast, fun settlement => ?_, fun hexact => ⟨fun settlement => ?_, fun k hk hmin => ?_⟩⟩
  · obtain ⟨k, hk, hle⟩ := exists_strike_le_real h settlement
    have hnear := near_pain.le_of_le near_pain (hleast k hk).1
    rw [payout_real]
    calc
      ((payout options (maxPain options) : Rat) : ℝ) ≤ (Binary64.slack (3 + options.length) : ℝ) * ((payout options k : Rat) : ℝ) := by
        exact_mod_cast hnear
      _ ≤ Binary64.slack (3 + options.length) * payout (options.map real) settlement :=
        mul_le_mul_of_nonneg_left hle (by exact_mod_cast hslack)
  · obtain ⟨k, hk, hle⟩ := exists_strike_le_real h settlement
    have hpain := (hleast k hk).1
    rw [hexact _ hmem, hexact k hk] at hpain
    rw [payout_real]
    exact le_trans (by exact_mod_cast hpain) hle
  · have hpay := hmin (maxPain options)
    rw [payout_real, payout_real] at hpay
    apply (hleast k hk).2
    rw [hexact _ hmem, hexact k hk]
    exact_mod_cast hpay

/-- In this chain every pain is exact. -/
theorem max_pain_minimises_two :
    let options : List (OptionContract Rat) := [⟨100, .CE, 5⟩, ⟨110, .PE, 3⟩, ⟨105, .PE, -2⟩]
    maxPain options = 100 ∧
      (∀ settlement : ℝ, payout (options.map real) (100 : Rat) ≤ payout (options.map real) settlement) := by
  intro options
  have hmax : maxPain options = 100 := by decide +kernel
  have hexact : ∀ k ∈ strikes options, pain options k = payout options k := by decide +kernel
  have h := ((max_pain_minimises (List.cons_ne_nil _ _)).2.2.2 hexact).1
  rw [hmax] at h
  exact ⟨hmax, h⟩

/-- Between 108.05 and 128.05 every price pays the holders the same. The two parts of the pain of 118.05 add up to the
float below that of the other strikes. -/
theorem max_pain_not_lowest :
    let options : List (OptionContract Rat) :=
      [⟨Binary64.round (2161 / 20), .CE, 1200⟩, ⟨Binary64.round (2361 / 20), .CE, 0⟩, ⟨Binary64.round (2561 / 20), .PE, 1200⟩]
    ¬((∀ settlement : ℝ, payout (options.map real) (maxPain options) ≤ payout (options.map real) settlement) ∧
        ∀ k ∈ strikes options,
          (∀ settlement : ℝ, payout (options.map real) k ≤ payout (options.map real) settlement) → maxPain options ≤ k) := by
  intro options h
  have hmem : Binary64.round (2161 / 20) ∈ strikes options := mem_strikes.mpr ⟨_, List.mem_cons_self, rfl⟩
  have hlt : ¬maxPain options ≤ Binary64.round (2161 / 20) := by decide +kernel
  refine hlt (h.2 _ hmem fun settlement => ?_)
  have hpay : payout options (Binary64.round (2161 / 20)) =
      (Binary64.round (2561 / 20) - Binary64.round (2161 / 20)) * 1200 := by decide +kernel
  rw [payout_real, hpay]
  have hsum : payout (options.map real) settlement =
      max (settlement - (Binary64.round (2161 / 20) : Rat)) 0 * 1200 +
        max ((Binary64.round (2561 / 20) : Rat) - settlement) 0 * 1200 := by
    simp [options, real, payout, intrinsicValue]
  have hcall := le_max_left (settlement - (Binary64.round (2161 / 20) : Rat)) 0
  have hput := le_max_left ((Binary64.round (2561 / 20) : Rat) - settlement) 0
  rw [hsum]
  push_cast
  linarith

end NTrade.Domain.MaxPain
