import NTrade.Domain.WilderAtr
import NTrade.Lib.Directional

/-! The average directional index of a frame, with the two directional indicators it comes from, in exact arithmetic. A
value that is not a number is `none`. -/
namespace NTrade.Domain.DirectionalMovement
open NTrade.Engines NTrade.Lib NTrade.Lib.Smoothing NTrade.Lib.Directional

section Columns

def plusDm (before : Option Ohlcv) (bar : Ohlcv) : Rat :=
  before.elim 0 fun b => gain (bar.high - b.high) (b.low - bar.low)

def minusDm (before : Option Ohlcv) (bar : Ohlcv) : Rat :=
  before.elim 0 fun b => gain (b.low - bar.low) (bar.high - b.high)

/-- `clip(lower=0.0, upper=100.0)`. -/
def clip (x : Rat) : Rat := min (max x 0) 100

/-- `x.where(x > 0, 1e-10)`. -/
def safe (x : Option Rat) : Rat := if 0 < x.getD 0 then x.getD 0 else 1 / 10 ^ 10

def share (dm tr : Option Rat) : Option Rat := dm.map fun dm => 100 * dm / safe tr

def contrast (plus minus : Option Rat) : Option Rat :=
  plus.bind fun p => minus.map fun m => 100 * |p - m| / safe (some (p + m))

/-- `ewm(alpha=1/period, min_periods=period).mean()`, where a value that is missing weighs nothing. -/
def ewmObserved (period : Nat) : List (Option Rat) → List (Option Rat) :=
  prefixwise fun xs =>
    if xs.countP Option.isSome < max period 1 then none
    else some (weighted (1 - 1 / (period : Rat)) (xs.map fun x => x.getD 0) /
      weighted (1 - 1 / (period : Rat)) (xs.map fun x => if x.isSome then 1 else 0))

end Columns

structure AdxRow where
  adx : Option Rat
  plusDi : Option Rat
  minusDi : Option Rat
  deriving DecidableEq, Repr

def directionalIndicators (cut : Rat → Rat) (period : Nat) (df : List Ohlcv) : List (Option Rat) × List (Option Rat) :=
  let smoothTr := ewmMean period (trueRange df)
  let smoothPlusDm := ewmMean period (mapPrev plusDm none df)
  let smoothMinusDm := ewmMean period (mapPrev minusDm none df)
  (List.zipWith (fun dm tr => (share dm tr).map cut) smoothPlusDm smoothTr,
    List.zipWith (fun dm tr => (share dm tr).map cut) smoothMinusDm smoothTr)

def adxRows (cut : Rat → Rat) (period : Nat) (df : List Ohlcv) : List AdxRow :=
  let (plusDi, minusDi) := directionalIndicators cut period df
  let dx := List.zipWith (fun p m => (contrast p m).map cut) plusDi minusDi
  let adx := (ewmObserved period dx).map (Option.map cut)
  List.zipWith (fun a di => ⟨a, di.1, di.2⟩) adx (plusDi.zip minusDi)

/-- `adx`; a frame of one row has no values. -/
def adx (period : Nat) (df : List Ohlcv) : Except String (List AdxRow) :=
  if df.length < 2 then .ok (df.map fun _ => ⟨none, none, none⟩)
  else if period = 0 then .error "division by zero"
  else .ok (adxRows clip period df)

section Movements
variable {period : Nat} {df : List Ohlcv}

def Closed (bar : Ohlcv) : Prop := bar.low ≤ bar.close ∧ bar.close ≤ bar.high

abbrev Step := Option Ohlcv × Ohlcv

def steps (df : List Ohlcv) : List Step := mapPrev Prod.mk none df

def rangeOf (e : Step) : Rat :=
  e.1.elim (e.2.high - e.2.low) fun before =>
    max (max (e.2.high - e.2.low) |e.2.high - before.close|) |e.2.low - before.close|

def plusOf (e : Step) : Rat := plusDm e.1 e.2

def minusOf (e : Step) : Rat := minusDm e.1 e.2

@[simp] theorem length_steps (df : List Ohlcv) : (steps df).length = df.length := length_mapPrev _ _ _

theorem trueRange_eq (df : List Ohlcv) : trueRange df = (steps df).map rangeOf := by
  rw [trueRange, mapPrev_eq_map]
  apply List.map_congr_left
  intro e _
  rw [rangeOf]
  cases e.1 <;> rfl

theorem plusDm_eq (df : List Ohlcv) : mapPrev plusDm none df = (steps df).map plusOf := mapPrev_eq_map _ _ _

theorem minusDm_eq (df : List Ohlcv) : mapPrev minusDm none df = (steps df).map minusOf := mapPrev_eq_map _ _ _

theorem plusOf_nonneg (e : Step) : 0 ≤ plusOf e := by
  rw [plusOf, plusDm]
  cases e.1 with
  | none => exact le_rfl
  | some b => exact gain_nonneg _ _

theorem minusOf_nonneg (e : Step) : 0 ≤ minusOf e := by
  rw [minusOf, minusDm]
  cases e.1 with
  | none => exact le_rfl
  | some b => exact gain_nonneg _ _

/-- What a bar gains on both sides is within its true range. -/
theorem movement_le_range (h : ∀ bar ∈ df, Closed bar) {e : Step} (he : e ∈ steps df) :
    plusOf e + minusOf e ≤ rangeOf e := by
  obtain ⟨hmem, hprev⟩ := mem_mapPrev he
  obtain ⟨hlow, hhigh⟩ := h e.2 hmem
  rw [plusOf, minusOf, rangeOf, plusDm, minusDm]
  rcases hprev with hnone | ⟨b, hb, hsome⟩
  · rw [hnone, Option.elim_none, Option.elim_none, Option.elim_none]
    linarith
  · obtain ⟨hlow', hhigh'⟩ := h b hb
    rw [hsome, Option.elim_some, Option.elim_some, Option.elim_some]
    exact gain_le_range (hlow.trans hhigh) hlow' hhigh'

def smoothed (period : Nat) (df : List Ohlcv) (f : Step → Rat) (i : Nat) : Rat :=
  weightedMean (1 - 1 / (period : Rat)) (((steps df).map f).take (i + 1))

theorem getElem?_smoothed (f : Step → Rat) {i : Nat} (hi : i < df.length) :
    (ewmMean period ((steps df).map f))[i]? = some (if i + 1 < max period 1 then none else some (smoothed period df f i)) :=
  getElem?_ewmMean (by simpa using hi)

theorem smoothed_nonneg (hp : 0 < period) {f : Step → Rat} (hf : ∀ e ∈ steps df, 0 ≤ f e) {i : Nat} (hi : i < df.length) :
    0 ≤ smoothed period df f i := by
  have hlen : 0 < (((steps df).map f).take (i + 1)).length := by simp; omega
  rw [smoothed, weightedMean, ← List.map_take]
  apply div_nonneg
  · exact weighted_map_nonneg (factor_nonneg hp) fun e he => hf e (List.mem_of_mem_take he)
  · rw [List.map_take]
    exact (weight_pos (factor_nonneg hp) hlen).le

/-- The smoothed gains are within the smoothed true range. -/
theorem smoothed_le (hp : 0 < period) (h : ∀ bar ∈ df, Closed bar) {i : Nat} (hi : i < df.length) :
    smoothed period df plusOf i + smoothed period df minusOf i ≤ smoothed period df rangeOf i := by
  have hlen : 0 < ((steps df).take (i + 1)).length := by simp; omega
  have hpos := weight_pos (factor_nonneg hp) hlen
  have hle := weighted_map_le (factor_nonneg hp) (l := (steps df).take (i + 1)) (f := fun e => plusOf e + minusOf e)
    (g := rangeOf) fun e he => movement_le_range h (List.mem_of_mem_take he)
  rw [weighted_map_add] at hle
  rw [smoothed, smoothed, smoothed, weightedMean, weightedMean, weightedMean, ← List.map_take, ← List.map_take,
    ← List.map_take, List.length_map, List.length_map, List.length_map, ← add_div]
  exact div_le_div_of_nonneg_right hle hpos.le

end Movements

section Series
variable {n first period : Nat} {v w : Nat → Rat}

def series (n first : Nat) (v : Nat → Rat) : List (Option Rat) :=
  (List.range n).map fun i => if i + 1 < first then none else some (v i)

@[simp] theorem length_series : (series n first v).length = n := by simp [series]

theorem getElem?_series {i : Nat} (hi : i < n) :
    (series n first v)[i]? = some (if i + 1 < first then none else some (v i)) := by
  rw [series, List.getElem?_map, List.getElem?_range hi, Option.map_some]

theorem take_series (k : Nat) : (series n first v).take k = series (min k n) first v := by
  rw [series, series, ← List.map_take, List.take_range]

theorem map_series (f : Rat → Rat) : (series n first v).map (Option.map f) = series n first fun i => f (v i) := by
  rw [series, series, List.map_map]
  apply List.map_congr_left
  intro i _
  simp only [Function.comp]
  split_ifs <;> rfl

theorem zipWith_series {f : Option Rat → Option Rat → Option Rat} {u : Nat → Rat} (hnone : f none none = none)
    (hsome : ∀ i, i < n → f (some (v i)) (some (w i)) = some (u i)) :
    List.zipWith f (series n first v) (series n first w) = series n first u := by
  rw [series, series, series, List.zipWith_map, List.zipWith_self]
  apply List.map_congr_left
  intro i hi
  split_ifs
  · exact hnone
  · exact hsome i (List.mem_range.mp hi)

theorem series_congr (h : ∀ i, i < n → v i = w i) : series n first v = series n first w := by
  apply List.map_congr_left
  intro i hi
  rw [h i (List.mem_range.mp hi)]

theorem ewmMean_steps (hp : 0 < period) (df : List Ohlcv) (f : Step → Rat) :
    ewmMean period ((steps df).map f) = series df.length period (smoothed period df f) := by
  apply List.ext_getElem?
  intro i
  rcases Nat.lt_or_ge i df.length with hi | hi
  · rw [getElem?_smoothed f hi, getElem?_series hi, Nat.max_eq_left hp]
  · rw [List.getElem?_eq_none (by rw [ewmMean, length_prefixwise, List.length_map, length_steps]; exact hi),
      List.getElem?_eq_none (by rw [length_series]; exact hi)]

private theorem countP_series (n first : Nat) (v : Nat → Rat) :
    (series n first v).countP Option.isSome = n - (first - 1) := by
  induction n with
  | zero => simp [series]
  | succ n ih =>
    rw [series, List.range_succ, List.map_append, List.countP_append, ← series, ih, List.map_singleton,
      List.countP_singleton]
    split_ifs with h h' <;> first | omega | simp_all

/-- The mean of the values that there are. -/
def observedMean (period first : Nat) (v : Nat → Rat) (i : Nat) : Rat :=
  weighted (1 - 1 / (period : Rat)) ((series (i + 1) first v).map fun x => x.getD 0) /
    weighted (1 - 1 / (period : Rat)) ((series (i + 1) first v).map fun x => if x.isSome then 1 else 0)

theorem ewmObserved_series (hp : 0 < period) :
    ewmObserved period (series n first v) = series n (first - 1 + period) (observedMean period first v) := by
  rw [ewmObserved, prefixwise, length_series, series]
  apply List.map_congr_left
  intro i hi
  have htake : (series n first v).take (i + 1) = series (min (i + 1) n) first v := take_series (i + 1)
  rw [Nat.min_eq_left (List.mem_range.mp hi)] at htake
  rw [← series, htake, countP_series, Nat.max_eq_left hp, observedMean]
  have hiff : i + 1 - (first - 1) < period ↔ i + 1 < first - 1 + period := by omega
  simp only [hiff]

/-- A value that there is has a weight. -/
theorem observed_pos (hp : 0 < period) {i : Nat} (hi : first ≤ i + 1) :
    0 < weighted (1 - 1 / (period : Rat)) ((series (i + 1) first v).map fun x => if x.isSome then (1 : Rat) else 0) := by
  have hlast : series (i + 1) first v = series i first v ++ [some (v i)] := by
    rw [series, List.range_succ, List.map_append, List.map_singleton, if_neg (by omega), series]
  rw [hlast, List.map_append, List.map_singleton, weighted_concat]
  have hrest := weighted_map_nonneg (factor_nonneg hp) (l := series i first v)
    (f := fun x => if x.isSome then (1 : Rat) else 0) fun x _ => by split_ifs <;> norm_num
  have hmul := mul_nonneg (factor_nonneg hp) hrest
  simp only [Option.isSome_some, if_true]
  linarith

private theorem mem_series_nonneg {i : Nat} (h : ∀ j, j ≤ i → 0 ≤ v j) {x : Option Rat} (hx : x ∈ series (i + 1) first v) :
    0 ≤ x.getD 0 := by
  obtain ⟨j, hj, rfl⟩ := List.mem_map.mp hx
  split_ifs
  · exact le_rfl
  · exact h j (Nat.lt_succ_iff.mp (List.mem_range.mp hj))

theorem observedMean_nonneg (hp : 0 < period) {i : Nat} (hi : first ≤ i + 1) (h : ∀ j, j ≤ i → 0 ≤ v j) :
    0 ≤ observedMean period first v i :=
  div_nonneg (weighted_map_nonneg (factor_nonneg hp) fun _ hx => mem_series_nonneg h hx) (observed_pos hp hi).le

/-- A mean in which every value counts is nothing where all of them are. -/
theorem observedMean_eq_zero_iff (hp : 1 < period) {i : Nat} (hi : first ≤ i + 1) (h : ∀ j, j ≤ i → 0 ≤ v j) :
    observedMean period first v i = 0 ↔ ∀ j, first ≤ j + 1 → j ≤ i → v j = 0 := by
  have hpos := observed_pos (v := v) (Nat.lt_of_succ_lt hp) hi
  rw [observedMean, div_eq_zero_iff, or_iff_left hpos.ne']
  constructor
  · intro hzero j hj hji
    have hmem : some (v j) ∈ series (i + 1) first v :=
      List.mem_map.mpr ⟨j, List.mem_range.mpr (Nat.lt_succ_of_le hji), if_neg (by omega)⟩
    exact weighted_map_eq_zero (factor_pos hp) (fun _ hx => mem_series_nonneg h hx) hzero _ hmem
  · intro hall
    have hmap : (series (i + 1) first v).map (fun x => x.getD 0) = (series (i + 1) first v).map fun _ => (0 : Rat) := by
      apply List.map_congr_left
      intro x hx
      obtain ⟨j, hj, rfl⟩ := List.mem_map.mp hx
      split_ifs with hf
      · rfl
      · exact hall j (by omega) (Nat.lt_succ_iff.mp (List.mem_range.mp hj))
    rw [hmap]
    simpa using weighted_map_mul (1 - 1 / (period : Rat)) 0 (fun _ : Option Rat => (0 : Rat)) (series (i + 1) first v)

/-- A mean of values within bounds is within them. -/
theorem observedMean_bounds (hp : 0 < period) {i : Nat} (hi : first ≤ i + 1)
    (h : ∀ j, j ≤ i → 0 ≤ v j ∧ v j ≤ 100) : 0 ≤ observedMean period first v i ∧ observedMean period first v i ≤ 100 := by
  refine ⟨observedMean_nonneg hp hi fun j hj => (h j hj).1, ?_⟩
  rw [observedMean, div_le_iff₀ (observed_pos hp hi), ← weighted_map_mul]
  refine weighted_map_le (factor_nonneg hp) fun x hx => ?_
  obtain ⟨j, hj, rfl⟩ := List.mem_map.mp hx
  by_cases hf : j + 1 < first
  · simp [hf]
  · simpa [hf] using (h j (Nat.lt_succ_iff.mp (List.mem_range.mp hj))).2

end Series

section Bounds
variable {period : Nat} {df : List Ohlcv}

def shareAt (period : Nat) (df : List Ohlcv) (f : Step → Rat) (i : Nat) : Rat :=
  100 * smoothed period df f i / safe (some (smoothed period df rangeOf i))

def contrastAt (cut : Rat → Rat) (period : Nat) (df : List Ohlcv) (i : Nat) : Rat :=
  100 * |cut (shareAt period df plusOf i) - cut (shareAt period df minusOf i)| /
    safe (some (cut (shareAt period df plusOf i) + cut (shareAt period df minusOf i)))

theorem directionalIndicators_eq (cut : Rat → Rat) (hp : 0 < period) (df : List Ohlcv) :
    directionalIndicators cut period df =
      (series df.length period fun i => cut (shareAt period df plusOf i),
        series df.length period fun i => cut (shareAt period df minusOf i)) := by
  have hzip (f : Step → Rat) :
      List.zipWith (fun dm tr => (share dm tr).map cut) (series df.length period (smoothed period df f))
        (series df.length period (smoothed period df rangeOf)) =
      series df.length period fun i => cut (shareAt period df f i) :=
    zipWith_series (Eq.refl _) fun i _ => Eq.refl _
  rw [directionalIndicators, trueRange_eq, plusDm_eq, minusDm_eq, ewmMean_steps hp, ewmMean_steps hp, ewmMean_steps hp]
  exact Prod.ext (hzip plusOf) (hzip minusOf)

def rowAt (cut : Rat → Rat) (period : Nat) (df : List Ohlcv) (i : Nat) : AdxRow where
  adx := if i + 1 < 2 * period - 1 then none
    else some (cut (observedMean period period (fun i => cut (contrastAt cut period df i)) i))
  plusDi := if i + 1 < period then none else some (cut (shareAt period df plusOf i))
  minusDi := if i + 1 < period then none else some (cut (shareAt period df minusOf i))

theorem adxRows_eq (cut : Rat → Rat) (hp : 0 < period) (df : List Ohlcv) :
    adxRows cut period df = (List.range df.length).map (rowAt cut period df) := by
  have hdx : List.zipWith (fun p m => (contrast p m).map cut) (series df.length period fun i => cut (shareAt period df plusOf i))
      (series df.length period fun i => cut (shareAt period df minusOf i)) =
      series df.length period fun i => cut (contrastAt cut period df i) :=
    zipWith_series (Eq.refl _) fun i _ => Eq.refl _
  rw [adxRows, directionalIndicators_eq cut hp]
  dsimp only
  have hfirst : period - 1 + period = 2 * period - 1 := by omega
  rw [hdx, ewmObserved_series hp, hfirst, map_series, series, series, series, List.zip, List.zipWith_map,
    List.zipWith_self, List.zipWith_map, List.zipWith_self]
  rfl

theorem clip_eq {x : Rat} (h0 : 0 ≤ x) (h1 : x ≤ 100) : clip x = x := by
  rw [clip, max_eq_left h0, min_eq_left h1]

theorem safe_pos (x : Option Rat) : 0 < safe x := by
  rw [safe]
  split_ifs with h
  · exact h
  · norm_num

/-- The shares of the true range, which may be nothing. -/
theorem shareAt_bounds (hp : 0 < period) (h : ∀ bar ∈ df, Closed bar) {i : Nat} (hi : i < df.length) :
    0 ≤ shareAt period df plusOf i ∧ 0 ≤ shareAt period df minusOf i ∧
      shareAt period df plusOf i + shareAt period df minusOf i ≤ 100 := by
  have hplus := smoothed_nonneg hp (f := plusOf) (fun e _ => plusOf_nonneg e) hi
  have hminus := smoothed_nonneg hp (f := minusOf) (fun e _ => minusOf_nonneg e) hi
  have hle := smoothed_le hp h hi
  apply share_bounds hplus hminus (safe_pos _)
  rw [safe, Option.getD_some]
  split_ifs with hpos
  · exact hle
  · exact le_trans (hle.trans (not_lt.mp hpos)) (by norm_num)

theorem contrastAt_bounds (cut : Rat → Rat) {i : Nat} (hp : 0 ≤ cut (shareAt period df plusOf i))
    (hm : 0 ≤ cut (shareAt period df minusOf i)) : 0 ≤ contrastAt cut period df i ∧ contrastAt cut period df i ≤ 100 := by
  apply contrast_bounds hp hm (safe_pos _)
  rw [safe, Option.getD_some]
  split_ifs with hpos
  · exact le_rfl
  · exact (not_lt.mp hpos).trans (by norm_num)

/-- On bars that close in their range, nothing is ever cut. -/
theorem rowAt_clip (hp : 0 < period) (h : ∀ bar ∈ df, Closed bar) {i : Nat} (hi : i < df.length) :
    rowAt clip period df i = rowAt id period df i := by
  have hshare (j : Nat) (hj : j < df.length) : clip (shareAt period df plusOf j) = shareAt period df plusOf j ∧
      clip (shareAt period df minusOf j) = shareAt period df minusOf j := by
    obtain ⟨hplus, hminus, hsum⟩ := shareAt_bounds hp h hj
    exact ⟨clip_eq hplus (by linarith), clip_eq hminus (by linarith)⟩
  have hcontrast (j : Nat) (hj : j < df.length) : clip (contrastAt clip period df j) = contrastAt id period df j := by
    obtain ⟨hplus, hminus, -⟩ := shareAt_bounds hp h hj
    have heq : contrastAt clip period df j = contrastAt id period df j := by
      rw [contrastAt, contrastAt, (hshare j hj).1, (hshare j hj).2]
      rfl
    obtain ⟨h0, h1⟩ := contrastAt_bounds id hplus hminus
    rw [heq, clip_eq h0 h1]
  have hmean : observedMean period period (fun j => clip (contrastAt clip period df j)) i =
      observedMean period period (contrastAt id period df) i := by
    rw [observedMean, observedMean, series_congr fun j hj => hcontrast j (by omega)]
  rw [rowAt, rowAt, (hshare i hi).1, (hshare i hi).2, hmean]
  congr 1
  split_ifs with hfirst
  · rfl
  · have hbounds : 0 ≤ observedMean period period (contrastAt id period df) i ∧
        observedMean period period (contrastAt id period df) i ≤ 100 := observedMean_bounds hp (by omega) fun j hj => by
      obtain ⟨hplus, hminus, -⟩ := shareAt_bounds hp h (show j < df.length by omega)
      exact contrastAt_bounds id hplus hminus
    exact congrArg some (clip_eq hbounds.1 hbounds.2)

/-- On bars that close in their range the indicators are there from the bar on that fills the period, and the
index from the one on that fills it again; the indicators are percentages that come to one hundred at most, the
index is a percentage, and none of it is so by being cut; in floats the cuts take off what is rounded beyond. -/
theorem adx_bounds (hp : 0 < period) (hlen : 2 ≤ df.length) (h : ∀ bar ∈ df, Closed bar) :
    adx period df = .ok (adxRows id period df) ∧ (adxRows id period df).length = df.length ∧
      ∀ i row, (adxRows id period df)[i]? = some row →
        (row.plusDi.isSome ↔ period ≤ i + 1) ∧ (row.minusDi.isSome ↔ period ≤ i + 1) ∧
        (row.adx.isSome ↔ 2 * period ≤ i + 2) ∧
        (∀ p m, row.plusDi = some p → row.minusDi = some m → 0 ≤ p ∧ 0 ≤ m ∧ p + m ≤ 100) ∧
        ∀ a, row.adx = some a → 0 ≤ a ∧ a ≤ 100 := by
  have hsame : adxRows clip period df = adxRows id period df := by
    rw [adxRows_eq clip hp, adxRows_eq id hp]
    exact List.map_congr_left fun i hi => rowAt_clip hp h (List.mem_range.mp hi)
  refine ⟨?_, by rw [adxRows_eq id hp]; simp, fun i row hrow => ?_⟩
  · rw [adx, if_neg (by omega), if_neg hp.ne', hsame]
  · rw [adxRows_eq id hp, List.getElem?_map] at hrow
    obtain ⟨j, hj, rfl⟩ := Option.map_eq_some_iff.mp hrow
    obtain ⟨hi, rfl⟩ := List.getElem?_eq_some_iff.mp hj
    rw [List.length_range] at hi
    obtain ⟨hplus, hminus, hsum⟩ := shareAt_bounds hp h hi
    rw [List.getElem_range]
    refine ⟨?_, ?_, ?_, fun p m hpe hme => ?_, fun a hae => ?_⟩
    · rw [rowAt, ← not_lt]
      by_cases hf : i + 1 < period <;> simp [hf]
    · rw [rowAt, ← not_lt]
      by_cases hf : i + 1 < period <;> simp [hf]
    · have hiff : 2 * period ≤ i + 2 ↔ ¬ (i + 1 < 2 * period - 1) := by omega
      rw [rowAt, hiff]
      by_cases hf : i + 1 < 2 * period - 1 <;> simp [hf]
    · rw [rowAt] at hpe hme
      dsimp only at hpe hme
      split_ifs at hpe hme with hf
      rw [← Option.some.inj hpe, ← Option.some.inj hme]
      exact ⟨hplus, hminus, hsum⟩
    · rw [rowAt] at hae
      dsimp only at hae
      split_ifs at hae with hf
      rw [← Option.some.inj hae]
      refine observedMean_bounds hp (by omega) fun j hj => ?_
      obtain ⟨hplus, hminus, -⟩ := shareAt_bounds hp h (show j < df.length by omega)
      exact contrastAt_bounds id hplus hminus

theorem adx_bounds_swing :
    let df : List Ohlcv := [⟨10, 12, 9, 11, 100⟩, ⟨11, 15, 10, 14, 100⟩, ⟨14, 14, 8, 9, 100⟩]
    adx 2 df = .ok [⟨none, none, none⟩, ⟨none, some (600 / 13), some 0⟩,
        ⟨some (300 / 7), some (600 / 37), some (800 / 37)⟩] ∧
      (0 ≤ (600 / 37 : Rat) ∧ 0 ≤ (800 / 37 : Rat) ∧ (600 / 37 : Rat) + 800 / 37 ≤ 100) ∧
      0 ≤ (300 / 7 : Rat) ∧ (300 / 7 : Rat) ≤ 100 := by
  intro df
  have hclosed : ∀ bar ∈ df, Closed bar := by
    simp only [df, List.mem_cons, List.not_mem_nil, or_false, Closed]
    rintro bar (rfl | rfl | rfl) <;> norm_num
  obtain ⟨hadx, -, hrows⟩ := adx_bounds two_pos (by decide) hclosed
  have hlast : (adxRows id 2 df)[2]? = some ⟨some (300 / 7), some (600 / 37), some (800 / 37)⟩ := by decide +kernel
  obtain ⟨-, -, -, hindicators, hindex⟩ := hrows 2 _ hlast
  exact ⟨hadx.trans (congrArg Except.ok (by decide +kernel)), hindicators _ _ rfl rfl, hindex _ rfl⟩

end Bounds

section Prefixes
variable {period : Nat} {df : List Ohlcv}

theorem causal_ewmMean (period : Nat) : Causal (ewmMean period) := Causal.prefixwise _

private theorem causal_indicator (cut : Rat → Rat) (period : Nat) (dm : Option Ohlcv → Ohlcv → Rat) :
    Causal fun df => List.zipWith (fun dm tr => (share dm tr).map cut) (ewmMean period (mapPrev dm none df))
      (ewmMean period (trueRange df)) :=
  ((Causal.mapPrev dm none).comp (causal_ewmMean period)).zipWith
    ((Causal.mapPrev _ none).comp (causal_ewmMean period)) _

theorem causal_adxRows (cut : Rat → Rat) (period : Nat) : Causal (adxRows cut period) := by
  have hplus := causal_indicator cut period plusDm
  have hminus := causal_indicator cut period minusDm
  have hdx := hplus.zipWith hminus fun p m => (contrast p m).map cut
  have hobserved : Causal (ewmObserved period) := Causal.prefixwise _
  have hadx := (hdx.comp hobserved).comp (Causal.map (Option.map cut))
  exact hadx.zipWith (hplus.zipWith hminus Prod.mk) fun (a : Option Rat) (di : Option Rat × Option Rat) => (⟨a, di.1, di.2⟩ : AdxRow)

/-- The first bars of a frame have the rows that they have in the whole of it, unless the period is one bar and
they are one bar of more: one row alone has no values. -/
theorem adx_take_iff (hp : 0 < period) (df : List Ohlcv) (n : Nat) :
    adx period (df.take n) = (adx period df).map (List.take n) ↔ ¬ (period = 1 ∧ n = 1 ∧ 2 ≤ df.length) := by
  have hok (rows : List AdxRow) : (Except.ok rows : Except String (List AdxRow)).map (List.take n) = .ok (rows.take n) := rfl
  rw [adx, adx]
  rcases Nat.lt_or_ge df.length 2 with hlen | hlen
  · rw [if_pos (by rw [List.length_take]; omega), if_pos hlen, hok, List.map_take]
    simp [Nat.not_le.mpr hlen]
  · rw [if_neg (Nat.not_lt.mpr hlen), if_neg hp.ne', if_neg hp.ne', hok, ← causal_adxRows]
    rcases Nat.lt_or_ge n 2 with hn | hn
    · rw [if_pos (by rw [List.length_take]; omega), adxRows_eq clip hp]
      obtain rfl | rfl : n = 0 ∨ n = 1 := by omega
      · simp
      · have hone : (df.take 1).length = 1 := by rw [List.length_take]; omega
        rw [List.map_const', hone, List.range_one, List.map_singleton, List.replicate_one]
        simp only [Except.ok.injEq, List.cons.injEq, and_true, hlen]
        rcases Nat.eq_or_lt_of_le hp with h1 | h1
        · simp [rowAt, ← h1]
        · have hfirst : 0 + 1 < 2 * period - 1 := by omega
          simp [rowAt, h1, h1.ne', hfirst]
    · rw [if_neg (by rw [List.length_take]; omega)]
      exact iff_of_true (Eq.refl _) fun h => by omega

theorem adx_take_iff_swing :
    let df : List Ohlcv := [⟨10, 12, 9, 11, 100⟩, ⟨11, 15, 10, 14, 100⟩, ⟨14, 14, 8, 9, 100⟩]
    adx 2 (df.take 2) = (adx 2 df).map (List.take 2) ∧ adx 1 (df.take 1) ≠ (adx 1 df).map (List.take 1) :=
  ⟨(adx_take_iff two_pos _ 2).mpr (by decide), fun h => (adx_take_iff one_pos _ 1).mp h (by decide)⟩

end Prefixes
end NTrade.Domain.DirectionalMovement
