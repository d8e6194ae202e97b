import Mathlib.Algebra.Order.Group.MinMax
import NTrade.Domain.DirectionalMovement

/-! The relative strength index of a frame: the share that the smoothed gains have of the smoothed gains and losses, in
exact arithmetic. A value that is not a number is `none`. -/
namespace NTrade.Domain.Rsi
open NTrade.Engines NTrade.Lib NTrade.Lib.Smoothing NTrade.Domain.DirectionalMovement

/-- `close.diff()` -/
def diff (close : List Rat) : List (Option Rat) := mapPrev (fun before c => before.map fun b => c - b) none close

def strength (avgGain avgLoss : Option Rat) : Option Rat := avgGain.map fun g => 100 - 100 / (1 + g / safe avgLoss)

def rsiRows (cut : Rat → Rat) (period : Nat) (df : List Ohlcv) : List (Option Rat) :=
  let delta := diff (df.map Ohlcv.close)
  let gain := delta.map (Option.map fun d => max d 0)
  let loss := delta.map (Option.map fun d => -min d 0)
  (List.zipWith strength (ewmObserved period gain) (ewmObserved period loss)).map (Option.map cut)

def rsi (period : Nat) (df : List Ohlcv) : Except String (List (Option Rat)) :=
  if period = 0 then .error "division by zero" else .ok (rsiRows clip period df)

section Moves
variable {close : List Rat} {period i : Nat}

def change (close : List Rat) (i : Nat) : Rat := close.getD i 0 - close.getD (i - 1) 0

def up (close : List Rat) (i : Nat) : Rat := max (change close i) 0

def down (close : List Rat) (i : Nat) : Rat := -min (change close i) 0

def Rose (close : List Rat) (i : Nat) : Prop := ∃ j b c, j < i ∧ close[j]? = some b ∧ close[j + 1]? = some c ∧ b < c

def Fell (close : List Rat) (i : Nat) : Prop := ∃ j b c, j < i ∧ close[j]? = some b ∧ close[j + 1]? = some c ∧ c < b

theorem diff_eq (close : List Rat) : diff close = series close.length 2 (change close) := by
  apply List.ext_getElem?
  intro i
  rcases Nat.lt_or_ge i close.length with hi | hi
  · rw [getElem?_series hi]
    cases i with
    | zero =>
      rw [diff, getElem?_mapPrev_zero, List.getElem?_eq_getElem hi]
      rfl
    | succ i =>
      have hprev := List.getElem?_eq_getElem (Nat.lt_of_succ_lt hi)
      rw [diff, getElem?_mapPrev_succ, List.getElem?_eq_getElem hi, hprev, change, List.getD_eq_getElem?_getD,
        List.getD_eq_getElem?_getD, Nat.add_sub_cancel, List.getElem?_eq_getElem hi, hprev]
      simp
  · rw [List.getElem?_eq_none (by rw [diff, length_mapPrev]; exact hi),
      List.getElem?_eq_none (by rw [length_series]; exact hi)]

theorem up_nonneg (close : List Rat) (i : Nat) : 0 ≤ up close i := le_max_right _ _

theorem down_nonneg (close : List Rat) (i : Nat) : 0 ≤ down close i := neg_nonneg.mpr (min_le_right _ _)

theorem change_succ {b c : Rat} (hb : close[i]? = some b) (hc : close[i + 1]? = some c) : change close (i + 1) = c - b := by
  rw [change, List.getD_eq_getElem?_getD, List.getD_eq_getElem?_getD, Nat.add_sub_cancel, hb, hc]
  rfl

/-- The smoothed gain of a bar, and its smoothed loss. -/
def avgGain (period : Nat) (close : List Rat) (i : Nat) : Rat := observedMean period 2 (up close) i

def avgLoss (period : Nat) (close : List Rat) (i : Nat) : Rat := observedMean period 2 (down close) i

theorem avgGain_nonneg (hp : 0 < period) (hi : 0 < i) : 0 ≤ avgGain period close i :=
  observedMean_nonneg hp (Nat.succ_le_succ hi) fun j _ => up_nonneg close j

theorem avgLoss_nonneg (hp : 0 < period) (hi : 0 < i) : 0 ≤ avgLoss period close i :=
  observedMean_nonneg hp (Nat.succ_le_succ hi) fun j _ => down_nonneg close j

private theorem pos_iff_exists {f : Nat → Rat} {P : Rat → Rat → Prop} (hp : 1 < period) (hi : 0 < i) (hlen : i < close.length)
    (hf : ∀ j, 0 ≤ f j)
    (hiff : ∀ j b c, close[j]? = some b → close[j + 1]? = some c → (f (j + 1) ≠ 0 ↔ P b c)) :
    0 < observedMean period 2 f i ↔ ∃ j b c, j < i ∧ close[j]? = some b ∧ close[j + 1]? = some c ∧ P b c := by
  have hzero := observedMean_eq_zero_iff hp (Nat.succ_le_succ hi) fun j _ => hf j
  have hnonneg := observedMean_nonneg (v := f) (Nat.lt_of_succ_lt hp) (Nat.succ_le_succ hi) fun j _ => hf j
  rw [hnonneg.lt_iff_ne', Ne, hzero]
  constructor
  · intro hne
    push Not at hne
    obtain ⟨j, hj, hji, hne⟩ := hne
    obtain ⟨j, rfl⟩ := Nat.exists_eq_add_one.mpr (Nat.lt_of_succ_le (Nat.le_of_succ_le_succ hj))
    have hb := List.getElem?_eq_getElem (show j < close.length by omega)
    have hc := List.getElem?_eq_getElem (show j + 1 < close.length by omega)
    exact ⟨j, _, _, hji, hb, hc, (hiff j _ _ hb hc).mp hne⟩
  · rintro ⟨j, b, c, hji, hb, hc, hP⟩ hall
    exact (hiff j b c hb hc).mpr hP (hall (j + 1) (by omega) hji)

/-- The market has gained on average exactly if it ever rose. -/
theorem avgGain_pos_iff (hp : 1 < period) (hi : 0 < i) (hlen : i < close.length) :
    0 < avgGain period close i ↔ Rose close i := by
  refine pos_iff_exists hp hi hlen (up_nonneg close) fun j b c hb hc => ?_
  rw [up, change_succ hb hc, Ne, max_eq_right_iff, not_le, sub_pos]

theorem avgLoss_pos_iff (hp : 1 < period) (hi : 0 < i) (hlen : i < close.length) :
    0 < avgLoss period close i ↔ Fell close i := by
  refine pos_iff_exists hp hi hlen (down_nonneg close) fun j b c hb hc => ?_
  rw [down, change_succ hb hc, Ne, neg_eq_zero, min_eq_right_iff, not_le, sub_neg]

end Moves

section Rows
variable {period : Nat} {df : List Ohlcv}

def strengthAt (period : Nat) (close : List Rat) (i : Nat) : Rat :=
  100 - 100 / (1 + avgGain period close i / safe (some (avgLoss period close i)))

theorem strengthAt_eq {close : List Rat} {i : Nat} (hp : 0 < period) (hi : 0 < i) : strengthAt period close i =
    100 * avgGain period close i / (avgGain period close i + safe (some (avgLoss period close i))) := by
  have hg : 0 ≤ avgGain period close i := avgGain_nonneg hp hi
  have hs := safe_pos (some (avgLoss period close i))
  rw [strengthAt]
  field_simp
  ring

theorem rsiRows_eq (cut : Rat → Rat) (hp : 0 < period) (df : List Ohlcv) :
    rsiRows cut period df = series df.length (period + 1) fun i => cut (strengthAt period (df.map Ohlcv.close) i) := by
  have hcol (f : Rat → Rat) : ewmObserved period ((diff (df.map Ohlcv.close)).map (Option.map f)) =
      series df.length (period + 1) (observedMean period 2 fun i => f (change (df.map Ohlcv.close) i)) := by
    have hfirst : 2 - 1 + period = period + 1 := by omega
    rw [diff_eq, map_series, ewmObserved_series hp, hfirst, List.length_map]
  rw [rsiRows, hcol fun d => max d 0, hcol fun d => -min d 0,
    zipWith_series (u := strengthAt period (df.map Ohlcv.close)) (Eq.refl _) fun i _ => Eq.refl _, map_series]

/-- The index is a percentage below one hundred by itself. -/
theorem strengthAt_bounds (close : List Rat) {i : Nat} (hp : 0 < period) (hi : 0 < i) :
    0 ≤ strengthAt period close i ∧ strengthAt period close i < 100 := by
  have hg : 0 ≤ avgGain period close i := avgGain_nonneg hp hi
  have hs := safe_pos (some (avgLoss period close i))
  rw [strengthAt_eq hp hi]
  constructor
  · positivity
  · rw [div_lt_iff₀ (by linarith)]
    linarith

theorem strengthAt_eq_zero_iff {close : List Rat} {i : Nat} (hp : 1 < period) (hi : 0 < i) (hlen : i < close.length) :
    strengthAt period close i = 0 ↔ ¬ Rose close i := by
  have hg : 0 ≤ avgGain period close i := avgGain_nonneg (Nat.lt_of_succ_lt hp) hi
  have hs := safe_pos (some (avgLoss period close i))
  rw [strengthAt_eq (Nat.lt_of_succ_lt hp) hi, ← avgGain_pos_iff hp hi hlen, div_eq_zero_iff,
    or_iff_left (by linarith), mul_eq_zero, or_iff_right (by norm_num), hg.lt_iff_ne', Ne, not_not]

/-- The index is there from the bar on that fills the period with changes. It is a percentage without being cut,
never one hundred, and nothing exactly while no close is above the one before it; in floats a small part may be lost
beside a large one, and these ends be met. -/
theorem rsi_rows (hp : 1 < period) (df : List Ohlcv) :
    rsi period df = .ok (rsiRows id period df) ∧ (rsiRows id period df).length = df.length ∧
      ∀ i row, (rsiRows id period df)[i]? = some row → (row.isSome ↔ period ≤ i) ∧
        ∀ x, row = some x → 0 ≤ x ∧ x < 100 ∧ (x = 0 ↔ ¬ Rose (df.map Ohlcv.close) i) := by
  have h0 := Nat.lt_of_succ_lt hp
  refine ⟨?_, by rw [rsiRows_eq id h0, length_series], fun i row hrow => ?_⟩
  · rw [rsi, if_neg h0.ne', rsiRows_eq clip h0, rsiRows_eq id h0]
    congr 1
    apply List.map_congr_left
    intro i _
    split_ifs with hfirst
    · rfl
    · obtain ⟨hlow, hhigh⟩ := strengthAt_bounds (df.map Ohlcv.close) h0 (show 0 < i by omega)
      exact congrArg some (clip_eq hlow hhigh.le)
  · have hi := (List.getElem?_eq_some_iff.mp hrow).1
    rw [rsiRows_eq id h0, length_series] at hi
    rw [rsiRows_eq id h0, getElem?_series hi] at hrow
    obtain rfl := Option.some.inj hrow
    refine ⟨?_, fun x hx => ?_⟩
    · by_cases hfirst : i + 1 < period + 1
      · simpa [hfirst] using Nat.lt_of_succ_lt_succ hfirst
      · simpa [hfirst] using Nat.not_lt.mp fun h => hfirst (Nat.succ_lt_succ h)
    · split_ifs at hx with hfirst
      obtain rfl := Option.some.inj hx
      have hpos : 0 < i := by omega
      obtain ⟨hlow, hhigh⟩ := strengthAt_bounds (df.map Ohlcv.close) h0 hpos
      exact ⟨hlow, hhigh, strengthAt_eq_zero_iff hp hpos (by rwa [List.length_map])⟩

theorem rsi_rows_turn :
    let df : List Ohlcv := [⟨100, 100, 100, 100, 50⟩, ⟨100, 100, 99, 99, 50⟩, ⟨99, 99, 98, 98, 50⟩, ⟨98, 99, 98, 99, 50⟩]
    rsi 2 df = .ok [none, none, some 0, some (400 / 7)] ∧ ¬ Rose (df.map Ohlcv.close) 2 ∧ Rose (df.map Ohlcv.close) 3 := by
  intro df
  obtain ⟨hrsi, -, hrows⟩ := rsi_rows Nat.one_lt_two df
  have hfallen : (rsiRows id 2 df)[2]? = some (some 0) := by decide +kernel
  have hturned : (rsiRows id 2 df)[3]? = some (some (400 / 7)) := by decide +kernel
  obtain ⟨-, -, hzero⟩ := (hrows 2 _ hfallen).2 0 rfl
  obtain ⟨-, -, hpositive⟩ := (hrows 3 _ hturned).2 (400 / 7) rfl
  refine ⟨hrsi.trans (congrArg Except.ok (by decide +kernel)), hzero.mp rfl, not_not.mp (hpositive.not.mp ?_)⟩
  norm_num

end Rows

section Mirror
variable {period : Nat} {df df' : List Ohlcv} {k : Rat}

theorem change_mirror {close : List Rat} {i : Nat} (hi : i < close.length) :
    change (close.map fun c => k - c) i = -change close i := by
  have hprev : i - 1 < close.length := by omega
  rw [change, change, List.getD_eq_getElem _ _ (by simpa using hi), List.getD_eq_getElem _ _ (by simpa using hprev),
    List.getD_eq_getElem _ _ hi, List.getD_eq_getElem _ _ hprev, List.getElem_map, List.getElem_map]
  ring

theorem avg_mirror {close : List Rat} {i : Nat} (hi : i < close.length) :
    avgGain period (close.map fun c => k - c) i = avgLoss period close i ∧
      avgLoss period (close.map fun c => k - c) i = avgGain period close i := by
  have hup (j : Nat) (hj : j < i + 1) : up (close.map fun c => k - c) j = down close j := by
    rw [up, down, change_mirror (by omega), ← neg_zero, max_neg_neg, neg_zero]
  have hdown (j : Nat) (hj : j < i + 1) : down (close.map fun c => k - c) j = up close j := by
    rw [up, down, change_mirror (by omega), ← neg_zero, min_neg_neg, neg_zero, neg_neg]
  rw [avgGain, avgGain, avgLoss, avgLoss, observedMean, observedMean, observedMean, observedMean, series_congr hup,
    series_congr hdown]
  exact ⟨Eq.refl _, Eq.refl _⟩

private theorem share_eq_hundred_iff {g l : Rat} (hg : 0 ≤ g) (hl : 0 ≤ l) :
    100 * g / (g + safe (some l)) + 100 * l / (l + safe (some g)) = 100 ↔ 0 < g ∧ 0 < l := by
  have hsafe {x : Rat} (hx : 0 < x) : safe (some x) = x := if_pos hx
  have hlt {x s : Rat} (hx : 0 ≤ x) (hs : 0 < s) : 100 * x / (x + s) < 100 := by
    rw [div_lt_iff₀ (by linarith)]
    linarith
  rcases hg.eq_or_lt with rfl | hg'
  · have := hlt hl (safe_pos (some 0))
    exact iff_of_false (by rw [mul_zero, zero_div, zero_add]; exact this.ne) fun h => h.1.false
  rcases hl.eq_or_lt with rfl | hl'
  · have := hlt hg (safe_pos (some 0))
    exact iff_of_false (by rw [mul_zero, zero_div, add_zero]; exact this.ne) fun h => h.2.false
  · rw [hsafe hg', hsafe hl']
    refine iff_of_true ?_ ⟨hg', hl'⟩
    field_simp
    ring

/-- The index of a market and of its mirror image come to one hundred exactly where the market has both risen and
fallen: one that has not is held against a loss of almost nothing, and one that has not moved has no strength either
way. -/
theorem rsi_mirror_iff (hp : 1 < period) (h : df'.map Ohlcv.close = (df.map Ohlcv.close).map fun c => k - c) {i : Nat}
    {x y : Rat} (hx : (rsiRows clip period df)[i]? = some (some x)) (hy : (rsiRows clip period df')[i]? = some (some y)) :
    x + y = 100 ↔ Rose (df.map Ohlcv.close) i ∧ Fell (df.map Ohlcv.close) i := by
  have h0 := Nat.lt_of_succ_lt hp
  have hlen : df'.length = df.length := by simpa using congrArg List.length h
  have hi := (List.getElem?_eq_some_iff.mp hx).1
  rw [rsiRows_eq clip h0, length_series] at hi
  rw [rsiRows_eq clip h0, getElem?_series hi] at hx
  rw [rsiRows_eq clip h0, getElem?_series (hlen ▸ hi)] at hy
  split_ifs at hx hy with hfirst
  · cases Option.some.inj hx
  have hpos : 0 < i := by omega
  have hi' : i < (df.map Ohlcv.close).length := by rwa [List.length_map]
  rw [← Option.some.inj (Option.some.inj hx), ← Option.some.inj (Option.some.inj hy)]
  obtain ⟨hlow, hhigh⟩ := strengthAt_bounds (df.map Ohlcv.close) h0 hpos
  obtain ⟨hlow', hhigh'⟩ := strengthAt_bounds (df'.map Ohlcv.close) h0 hpos
  rw [clip_eq hlow hhigh.le, clip_eq hlow' hhigh'.le, strengthAt_eq h0 hpos, strengthAt_eq h0 hpos, h, (avg_mirror hi').1,
    (avg_mirror hi').2, share_eq_hundred_iff (avgGain_nonneg h0 hpos) (avgLoss_nonneg h0 hpos), avgGain_pos_iff hp hpos hi',
    avgLoss_pos_iff hp hpos hi']

theorem rsi_mirror_iff_swing :
    let df : List Ohlcv := [⟨100, 100, 100, 100, 50⟩, ⟨100, 102, 100, 102, 50⟩, ⟨102, 102, 101, 101, 50⟩]
    let df' : List Ohlcv := [⟨100, 100, 100, 100, 50⟩, ⟨100, 100, 98, 98, 50⟩, ⟨98, 99, 98, 99, 50⟩]
    (rsiRows clip 2 df)[2]? = some (some 50) ∧ (rsiRows clip 2 df')[2]? = some (some 50) ∧
      ((50 : Rat) + 50 = 100 ↔ Rose (df.map Ohlcv.close) 2 ∧ Fell (df.map Ohlcv.close) 2) := by
  intro df df'
  have hx : (rsiRows clip 2 df)[2]? = some (some 50) := by decide +kernel
  have hy : (rsiRows clip 2 df')[2]? = some (some 50) := by decide +kernel
  exact ⟨hx, hy, rsi_mirror_iff (k := 200) (by decide) (by decide +kernel) hx hy⟩

end Mirror
end NTrade.Domain.Rsi
