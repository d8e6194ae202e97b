import NTrade.Domain.HalfTrend
import NTrade.Lib.Smoothing

/-! The average true range against the one of the Pine indicator that HalfTrend is a port of: Wilder's mean,
which starts as the mean of the first true ranges and moves by a share of each later one. -/
namespace NTrade.Domain
open NTrade.Engines NTrade.Lib NTrade.Lib.Smoothing

/-- `ta.atr`: undefined before the period is full, then the mean of the true ranges of the period, and from
there on `((p - 1) * atr[1] + tr) / p`. -/
structure IsWilder (period : Nat) (tr : List Rat) (atr : List (Option Rat)) : Prop where
  before : ∀ i, i < tr.length → i + 1 < period → atr[i]? = some none
  seed : period ≤ tr.length → atr[period - 1]? = some (some (mean (tr.take period)))
  step : ∀ i x, period ≤ i → tr[i]? = some x → ∃ a, atr[i - 1]? = some (some a) ∧
    atr[i]? = some (some (((period - 1 : Rat) * a + x) / period))

/-- True ranges on which the exponential weights make no difference: those of the first period balance around
their mean, and unless the period is 1 no later one leaves it. -/
def Steady (period : Nat) (tr : List Rat) : Prop :=
  period ≤ tr.length →
    weighted (1 - 1 / (period : Rat)) ((tr.take period).map (· - mean (tr.take period))) = 0 ∧
      (period = 1 ∨ ∀ x ∈ tr.drop period, x = mean (tr.take period))

instance (period : Nat) (tr : List Rat) : Decidable (Steady period tr) := inferInstanceAs (Decidable (_ → _))

section Wilder
variable {period : Nat} {df : List Ohlcv} {tr : List Rat}

theorem ewmMean_eq (period : Nat) (tr : List Rat) : ewmMean period tr =
    prefixwise (fun xs => if xs.length < max period 1 then none
      else some (weightedMean (1 - 1 / (period : Rat)) xs)) tr := by
  rw [ewmMean]
  congr 1
  funext xs
  rw [weightedMean, weighted_eq_sum, weight_eq_sum]

/-- The value at an index. -/
theorem getElem?_ewmMean {i : Nat} (hi : i < tr.length) : (ewmMean period tr)[i]? =
    some (if i + 1 < max period 1 then none else some (weightedMean (1 - 1 / (period : Rat)) (tr.take (i + 1)))) := by
  rw [ewmMean_eq, prefixwise, List.getElem?_map, List.getElem?_range hi, Option.map_some, List.length_take,
    Nat.min_eq_left (Nat.succ_le_of_lt hi)]

theorem factor_nonneg (hp : 0 < period) : 0 ≤ 1 - 1 / (period : Rat) := by
  have h1 : (1 : Rat) ≤ period := by exact_mod_cast hp
  have hle : 1 / (period : Rat) ≤ 1 := (div_le_one (by linarith)).mpr h1
  linarith

theorem factor_pos (hp : 1 < period) : 0 < 1 - 1 / (period : Rat) := by
  have h1 : (1 : Rat) < period := by exact_mod_cast hp
  have hlt : 1 / (period : Rat) < 1 := (div_lt_one (by linarith)).mpr h1
  linarith

theorem smooth_factor (hp : 0 < period) (a x : Rat) :
    smooth (1 - 1 / (period : Rat)) a x = ((period - 1 : Rat) * a + x) / period := by
  have h0 : (period : Rat) ≠ 0 := by exact_mod_cast hp.ne'
  rw [smooth]
  field_simp
  ring

theorem take_ne_nil {n : Nat} (hn : 0 < n) (hle : n ≤ tr.length) : tr.take n ≠ [] := by
  intro h
  have hlen := congrArg List.length h
  rw [List.length_take, Nat.min_eq_left hle, List.length_nil] at hlen
  omega

theorem take_succ_of_getElem? {n : Nat} {x : Rat} (hx : tr[n]? = some x) : tr.take (n + 1) = tr.take n ++ [x] := by
  rw [List.take_add_one, hx]
  rfl

/-- The mean of true ranges that do not leave it stays. -/
theorem weightedMean_take (hp : 0 < period) {m : Rat}
    (hseed : weightedMean (1 - 1 / (period : Rat)) (tr.take period) = m) {n : Nat} (hn : period ≤ n) (hlen : n ≤ tr.length)
    (h : ∀ i x, period ≤ i → i < n → tr[i]? = some x →
      weightedMean (1 - 1 / (period : Rat)) (tr.take i) = m → x = m) :
    weightedMean (1 - 1 / (period : Rat)) (tr.take n) = m := by
  induction n, hn using Nat.le_induction with
  | base => exact hseed
  | succ n hn ih =>
    have hx := List.getElem?_eq_getElem (show n < tr.length by omega)
    have hM := ih (by omega) fun i x hi hin => h i x hi (by omega)
    have hxm := h n _ hn (by omega) hx hM
    rw [take_succ_of_getElem? hx, weightedMean_concat (factor_nonneg hp) (take_ne_nil (by omega) (by omega)), hM, hxm,
      smooth_self, sub_self, mul_zero, zero_div, add_zero]

/-- The exponential mean is Wilder's exactly on steady true ranges. -/
theorem ewmMean_isWilder_iff (hp : 0 < period) (tr : List Rat) : IsWilder period tr (ewmMean period tr) ↔ Steady period tr := by
  have hq := factor_nonneg hp
  have hmax : max period 1 = period := Nat.max_eq_left hp
  -- the value at an index of a full period
  have hat {n : Nat} (hn : period ≤ n) (hlen : n ≤ tr.length) :
      (ewmMean period tr)[n - 1]? = some (some (weightedMean (1 - 1 / (period : Rat)) (tr.take n))) := by
    rw [getElem?_ewmMean (show n - 1 < tr.length by omega), hmax, Nat.sub_add_cancel (by omega), if_neg (by omega)]
  have hseed (hlen : period ≤ tr.length) : weightedMean (1 - 1 / (period : Rat)) (tr.take period) = mean (tr.take period) ↔
      weighted (1 - 1 / (period : Rat)) ((tr.take period).map (· - mean (tr.take period))) = 0 :=
    weightedMean_eq_iff hq (take_ne_nil hp hlen) _
  -- where Wilder's mean steps
  have hstep {i : Nat} {x : Rat} (hi : period ≤ i) (hx : tr[i]? = some x) :
      (∃ a, (ewmMean period tr)[i - 1]? = some (some a) ∧
        (ewmMean period tr)[i]? = some (some (((period - 1 : Rat) * a + x) / period))) ↔
      weightedMean (1 - 1 / (period : Rat)) (tr.take i ++ [x]) =
        smooth (1 - 1 / (period : Rat)) (weightedMean (1 - 1 / (period : Rat)) (tr.take i)) x := by
    have hlt := (List.getElem?_eq_some_iff.mp hx).1
    have hnew := hat (show period ≤ i + 1 by omega) hlt
    rw [Nat.add_sub_cancel] at hnew
    rw [hat hi hlt.le, hnew, smooth_factor hp, take_succ_of_getElem? hx]
    simp
  constructor
  · intro h hlen
    have hbase : weightedMean (1 - 1 / (period : Rat)) (tr.take period) = mean (tr.take period) := by
      have hs := h.seed hlen
      rw [hat le_rfl hlen] at hs
      exact Option.some.inj (Option.some.inj hs)
    refine ⟨(hseed hlen).mp hbase, or_iff_not_imp_left.mpr fun hone => ?_⟩
    have hq1 := factor_pos (show 1 < period by omega)
    have hnew {i : Nat} {x : Rat} (hi : period ≤ i) (hx : tr[i]? = some x) :
        x = weightedMean (1 - 1 / (period : Rat)) (tr.take i) := by
      have hlt := (List.getElem?_eq_some_iff.mp hx).1
      have hne := take_ne_nil (show 0 < i by omega) hlt.le
      exact (weightedMean_concat_eq_smooth_iff hq1 hne).mp ((hstep hi hx).mp (h.step i x hi hx))
    intro x hx
    obtain ⟨j, hj⟩ := List.getElem?_of_mem hx
    rw [List.getElem?_drop] at hj
    have hlt := (List.getElem?_eq_some_iff.mp hj).1
    rw [hnew (Nat.le_add_right _ _) hj]
    apply weightedMean_take hp hbase (Nat.le_add_right _ _) hlt.le
    intro i y hi _ hy hM
    rw [hnew hi hy, hM]
  · intro h
    refine ⟨fun i hi hlt => ?_, fun hlen => ?_, fun i x hle hx => (hstep hle hx).mpr ?_⟩
    · rw [getElem?_ewmMean hi, hmax, if_pos hlt]
    · rw [hat le_rfl hlen, (hseed hlen).mpr (h hlen).1]
    · have hlt := (List.getElem?_eq_some_iff.mp hx).1
      obtain ⟨hbalance, hlater⟩ := h (by omega)
      have hne := take_ne_nil (show 0 < i by omega) hlt.le
      rcases hlater with hone | hlater
      · have hq0 : 1 - 1 / (period : Rat) = 0 := by
          rw [hone]
          norm_num
        rw [weightedMean_concat hq hne, hq0, zero_pow (Nat.succ_ne_zero _), zero_mul, zero_div, add_zero]
      · have hm : ∀ j y, period ≤ j → tr[j]? = some y → y = mean (tr.take period) := by
          intro j y hj hy
          apply hlater
          apply List.mem_of_getElem? (i := j - period)
          rw [List.getElem?_drop, Nat.add_sub_cancel' hj, hy]
        have hM := weightedMean_take hp ((hseed (by omega)).mpr hbalance) hle hlt.le fun j y hj _ hy _ => hm j y hj hy
        rw [weightedMean_concat hq hne, hM, hm i x hle hx, sub_self, mul_zero, zero_div, add_zero]

/-- The average true range is the one that the port claims exactly on steady true ranges. -/
theorem atr_isWilder_iff (hp : 0 < period) (df : List Ohlcv) :
    IsWilder period (trueRange df) (atr period df) ↔ Steady period (trueRange df) :=
  ewmMean_isWilder_iff hp (trueRange df)

private def level : Ohlcv := ⟨10, 11, 9, 10, 5⟩

theorem level_isWilder : IsWilder 14 (trueRange (List.replicate 20 level)) (atr 14 (List.replicate 20 level)) :=
  (atr_isWilder_iff (by decide) _).mpr (by decide +kernel)

/-- Two bars whose ranges are 2 and 4: at a period of 2 the mean is 3, and the exponential one 10 / 3. -/
theorem widening_not_wilder : ¬ ∀ (period : Nat) (df : List Ohlcv), 0 < period →
    IsWilder period (trueRange df) (atr period df) := by
  intro h
  have hs := (h 2 [level, ⟨10, 12, 8, 10, 5⟩] (by decide)).seed (by decide)
  exact absurd hs (by decide +kernel)

end Wilder

end NTrade.Domain
