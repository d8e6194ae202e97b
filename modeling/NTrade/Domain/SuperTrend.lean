import Mathlib.Algebra.Order.Archimedean.Basic
import NTrade.Domain.DirectionalMovement

/-! The SuperTrend indicator: bands around the middle of each bar that are drawn towards the price, and a trend that
turns when a close breaks the band of the bar before. A value that is not a number is `none`. -/
namespace NTrade.Domain.SuperTrend
open NTrade.Engines NTrade.Lib NTrade.Lib.Smoothing NTrade.Domain.DirectionalMovement

inductive Trend where
  | up | down
  deriving DecidableEq, Repr

structure Row where
  finalUpper : Option Rat
  finalLower : Option Rat
  trend : Trend
  deriving DecidableEq, Repr

def hl2 (bar : Ohlcv) : Rat := (bar.high + bar.low) / 2

def upper (multiplier : Rat) (bar : Ohlcv) (atr : Option Rat) : Option Rat := atr.map fun a => hl2 bar + multiplier * a

def lower (multiplier : Rat) (bar : Ohlcv) (atr : Option Rat) : Option Rat := atr.map fun a => hl2 bar - multiplier * a

def turn (multiplier : Rat) (prev : Row) (before bar : Ohlcv) (atr : Option Rat) : Row :=
  match prev.finalUpper, prev.finalLower with
  | some u, some l =>
    { finalUpper := (upper multiplier bar atr).map fun v => if u < bar.close then v else min v u
      finalLower := (lower multiplier bar atr).map fun v => if bar.close < l then v else max v l
      trend :=
        if before.close ≤ u ∧ u < bar.close then .up
        else if l ≤ before.close ∧ bar.close < l then .down
        else prev.trend }
  | _, _ => { finalUpper := upper multiplier bar atr, finalLower := lower multiplier bar atr, trend := .up }

def loop (multiplier : Rat) : Row → Ohlcv → List (Ohlcv × Option Rat) → List Row
  | _, _, [] => []
  | prev, before, e :: es =>
    turn multiplier prev before e.1 e.2 :: loop multiplier (turn multiplier prev before e.1 e.2) e.1 es

def rows (multiplier : Rat) : List (Ohlcv × Option Rat) → List Row
  | [] => []
  | e :: es =>
    let first := { finalUpper := upper multiplier e.1 e.2, finalLower := lower multiplier e.1 e.2, trend := .up }
    first :: loop multiplier first e.1 es

def supertrend (atrPeriod : Nat) (multiplier : Rat) (df : List Ohlcv) : Except String (List Row) :=
  if atrPeriod = 0 then .error "division by zero"
  else .ok (rows multiplier (df.zip (atr atrPeriod df)))

section Turns
variable {period : Nat} {multiplier : Rat} {df : List Ohlcv}

/-- A close beyond a band of the bar before turns the trend its way. -/
def Turns (df : List Ohlcv) (rows : List Row) : Prop :=
  ∀ i bar prev row, df[i + 1]? = some bar → rows[i]? = some prev → rows[i + 1]? = some row →
    (∀ u, prev.finalUpper = some u → u < bar.close → row.trend = .up) ∧
      ∀ l, prev.finalLower = some l → bar.close < l → row.trend = .down

/-- The close of a bar is between its final bands, which are there together. -/
structure Row.Holds (row : Row) (bar : Ohlcv) : Prop where
  upper : ∀ u, row.finalUpper = some u → bar.close ≤ u
  lower : ∀ l, row.finalLower = some l → l ≤ bar.close
  both : row.finalUpper.isSome = row.finalLower.isSome

def Near (multiplier : Rat) (bar : Ohlcv) (atr : Option Rat) : Prop :=
  ∀ a, atr = some a → |bar.close - hl2 bar| ≤ multiplier * a

theorem Near.bands {bar : Ohlcv} {atr : Option Rat} (h : Near multiplier bar atr) :
    (∀ u, upper multiplier bar atr = some u → bar.close ≤ u) ∧ ∀ l, lower multiplier bar atr = some l → l ≤ bar.close := by
  constructor
  · intro u hu
    obtain ⟨a, ha, rfl⟩ := Option.map_eq_some_iff.mp hu
    linarith [(abs_le.mp (h a ha)).2]
  · intro l hl
    obtain ⟨a, ha, rfl⟩ := Option.map_eq_some_iff.mp hl
    linarith [(abs_le.mp (h a ha)).1]

/-- Bands that are drawn in stop at the close. -/
theorem holds_turn {bar : Ohlcv} {atr : Option Rat} (h : Near multiplier bar atr) (prev : Row) (before : Ohlcv) :
    (turn multiplier prev before bar atr).Holds bar := by
  rw [turn.eq_def]
  split
  · refine ⟨fun v hv => ?_, fun v hv => ?_, by cases atr <;> rfl⟩
    · obtain ⟨w, hw, rfl⟩ := Option.map_eq_some_iff.mp hv
      split_ifs with hc
      · exact h.bands.1 w hw
      · exact le_min (h.bands.1 w hw) (not_lt.mp hc)
    · obtain ⟨w, hw, rfl⟩ := Option.map_eq_some_iff.mp hv
      split_ifs with hc
      · exact h.bands.2 w hw
      · exact max_le (h.bands.2 w hw) (not_lt.mp hc)
  · exact ⟨h.bands.1, h.bands.2, by cases atr <;> rfl⟩

/-- From a close between the bands, a break turns the trend. -/
theorem turn_of_holds {prev : Row} {before : Ohlcv} (h : prev.Holds before) (bar : Ohlcv) (atr : Option Rat) :
    (∀ u, prev.finalUpper = some u → u < bar.close → (turn multiplier prev before bar atr).trend = .up) ∧
      ∀ l, prev.finalLower = some l → bar.close < l → (turn multiplier prev before bar atr).trend = .down := by
  rw [turn.eq_def]
  split
  · next u l hu hl =>
    have hub := h.upper u hu
    have hlb := h.lower l hl
    refine ⟨fun v hv hbreak => ?_, fun v hv hbreak => ?_⟩
    · rw [hu] at hv
      exact if_pos ⟨hub, Option.some.inj hv ▸ hbreak⟩
    · rw [hl] at hv
      obtain rfl := Option.some.inj hv
      have hup : ¬ (before.close ≤ u ∧ u < bar.close) := fun hup => by linarith [hup.2]
      exact (if_neg hup).trans (if_pos ⟨hlb, hbreak⟩)
  · next hnone =>
    refine ⟨fun _ _ _ => Eq.refl _, fun l hl _ => ?_⟩
    have hboth := h.both
    rw [hl, Option.isSome_some] at hboth
    obtain ⟨u, hu⟩ := Option.isSome_iff_exists.mp hboth
    exact absurd hl (hnone u l hu)

/-- The row of a bar, from the one of the bar before. -/
theorem getElem?_rows {es : List (Ohlcv × Option Rat)} {i : Nat} {e e' : Ohlcv × Option Rat} {r : Row}
    (he : es[i]? = some e) (he' : es[i + 1]? = some e') (hr : (rows multiplier es)[i]? = some r) :
    (rows multiplier es)[i + 1]? = some (turn multiplier r e.1 e'.1 e'.2) := by
  have hloop (prev : Row) (b : Ohlcv × Option Rat) (es : List (Ohlcv × Option Rat)) (i : Nat)
      (hb : (b :: es)[i]? = some e) (he' : es[i]? = some e') (hr : (prev :: loop multiplier prev b.1 es)[i]? = some r) :
      (loop multiplier prev b.1 es)[i]? = some (turn multiplier r e.1 e'.1 e'.2) := by
    induction es generalizing prev b i with
    | nil => cases he'
    | cons c es ih =>
      rw [loop]
      cases i with
      | zero =>
        rw [← Option.some.inj hb, ← Option.some.inj he', ← Option.some.inj hr]
        rfl
      | succ i =>
        rw [loop] at hr
        exact ih _ c i hb he' hr
  cases es with
  | nil => cases he
  | cons b es => exact hloop _ b es i he he' hr

theorem getElem?_rows_zero {es : List (Ohlcv × Option Rat)} {e : Ohlcv × Option Rat} (he : es[0]? = some e) :
    (rows multiplier es)[0]? = some ⟨upper multiplier e.1 e.2, lower multiplier e.1 e.2, .up⟩ := by
  cases es with
  | nil => cases he
  | cons b es =>
    rw [← Option.some.inj he]
    rfl

/-- Where every close is between the bands of its own bar, every break turns the trend. -/
theorem turns_of_near (multiplier : Rat) (es : List (Ohlcv × Option Rat)) (h : ∀ e ∈ es, Near multiplier e.1 e.2) :
    Turns (es.map Prod.fst) (rows multiplier es) := by
  have hholds (i : Nat) (e : Ohlcv × Option Rat) (he : es[i]? = some e) :
      ∃ r, (rows multiplier es)[i]? = some r ∧ r.Holds e.1 := by
    induction i generalizing e with
    | zero =>
      have hnear := h e (List.mem_of_getElem? he)
      exact ⟨_, getElem?_rows_zero he, hnear.bands.1, hnear.bands.2, by cases e.2 <;> rfl⟩
    | succ i ih =>
      have hi : i < es.length := Nat.lt_of_succ_lt (List.getElem?_eq_some_iff.mp he).1
      obtain ⟨r, hr, -⟩ := ih es[i] (List.getElem?_eq_getElem hi)
      exact ⟨_, getElem?_rows (List.getElem?_eq_getElem hi) he hr, holds_turn (h e (List.mem_of_getElem? he)) _ _⟩
  intro i bar prev row hbar hprev hrow
  rw [List.getElem?_map] at hbar
  obtain ⟨e', he', rfl⟩ := Option.map_eq_some_iff.mp hbar
  have hi : i < es.length := Nat.lt_of_succ_lt (List.getElem?_eq_some_iff.mp he').1
  have he := List.getElem?_eq_getElem hi
  obtain ⟨r, hr, hr'⟩ := hholds i es[i] he
  rw [hr] at hprev
  rw [getElem?_rows he he' hr] at hrow
  rw [← Option.some.inj hprev, ← Option.some.inj hrow]
  exact turn_of_holds hr' e'.1 e'.2

end Turns

section Factor
variable {period : Nat} {multiplier : Rat} {df : List Ohlcv}

theorem rangeOf_ge (e : Step) : e.2.high - e.2.low ≤ rangeOf e := by
  rw [rangeOf]
  cases e.1 with
  | none => exact le_rfl
  | some b => exact (le_max_left _ _).trans (le_max_left _ _)

theorem snd_steps (df : List Ohlcv) (i : Nat) : ((steps df)[i]?).map Prod.snd = df[i]? := by
  have h (p : Option Ohlcv) (df : List Ohlcv) : (mapPrev Prod.mk p df).map Prod.snd = df := by
    induction df generalizing p with
    | nil => rfl
    | cons bar df ih => rw [mapPrev, List.map_cons, ih]
  rw [← List.getElem?_map, steps, h]

theorem getElem?_atr (hp : 0 < period) (df : List Ohlcv) {i : Nat} (hi : i < df.length) :
    (atr period df)[i]? = some (if i + 1 < period then none else some (smoothed period df rangeOf i)) := by
  rw [atr, trueRange_eq, ewmMean_steps hp, getElem?_series hi]

/-- An average range has its share of the range of its bar. -/
theorem range_le_smoothed (hp : 0 < period) (h : ∀ bar ∈ df, Closed bar) {i : Nat} {bar : Ohlcv}
    (hbar : df[i]? = some bar) : (bar.high - bar.low) / period ≤ smoothed period df rangeOf i := by
  have hstep := snd_steps df i
  rw [hbar] at hstep
  obtain ⟨e, he, rfl⟩ := Option.map_eq_some_iff.mp hstep
  have hclosed (e : Step) (he : e ∈ steps df) : 0 ≤ rangeOf e := by
    obtain ⟨hlow, hhigh⟩ := h e.2 (mem_mapPrev he).1
    linarith [rangeOf_ge e]
  have hsplit : ((steps df).map rangeOf).take (i + 1) = ((steps df).map rangeOf).take i ++ [rangeOf e] := by
    rw [List.take_add_one, List.getElem?_map, he]
    rfl
  have hshare := share_le_weightedMean (factor_nonneg hp) (((steps df).map rangeOf).take i) (fun x hx => ?_)
    (hclosed e (List.mem_of_getElem? he))
  · rw [← hsplit, ← smoothed] at hshare
    refine le_trans (le_of_eq_of_le ?_ (mul_le_mul_of_nonneg_left (rangeOf_ge e) ?_)) hshare
    · ring
    · simp
  · obtain ⟨e', he', rfl⟩ := List.mem_map.mp (List.mem_of_mem_take hx)
    exact hclosed e' he'

/-- With bands that are half a period of average ranges wide, every close is between the bands of its bar. -/
theorem near_of_le (hp : 0 < period) (hm : (period : Rat) ≤ 2 * multiplier) (h : ∀ bar ∈ df, Closed bar) {i : Nat}
    {bar : Ohlcv} {a : Option Rat} (hbar : df[i]? = some bar) (ha : (atr period df)[i]? = some a) :
    Near multiplier bar a := by
  rintro x rfl
  have hi := (List.getElem?_eq_some_iff.mp hbar).1
  rw [getElem?_atr hp df hi] at ha
  obtain ⟨hlow, hhigh⟩ := h bar (List.mem_of_getElem? hbar)
  have hpos : (0 : Rat) < period := by exact_mod_cast hp
  have hrange := range_le_smoothed hp h hbar
  split_ifs at ha
  · cases Option.some.inj ha
  have hx : smoothed period df rangeOf i = x := Option.some.inj (Option.some.inj ha)
  rw [hx, div_le_iff₀ hpos] at hrange
  have hx0 : 0 ≤ x := by
    by_contra hneg
    linarith [mul_neg_of_neg_of_pos (not_le.mp hneg) hpos]
  have hwide : x * period ≤ x * (2 * multiplier) := mul_le_mul_of_nonneg_left hm hx0
  rw [hl2, abs_le]
  constructor <;> linarith

end Factor

section Missed
variable {period : Nat} {multiplier : Rat} {n : Nat}

def flat : Ohlcv := ⟨100, 100, 100, 100, 0⟩

def spike : Ohlcv := ⟨100, 120, 100, 100, 0⟩

def crash : Ohlcv := ⟨90, 90, 90, 90, 0⟩

/-- A quiet market, a spike that closes where it started, and a crash. -/
def missed (n : Nat) : List Ohlcv := List.replicate n flat ++ [spike, crash]

theorem closed_missed (n : Nat) : ∀ bar ∈ missed n, Closed bar := by
  intro bar hbar
  rcases List.mem_append.mp hbar with hbar | hbar
  · rw [List.eq_of_mem_replicate hbar]
    exact ⟨le_rfl, le_rfl⟩
  · simp only [List.mem_cons, List.not_mem_nil, or_false] at hbar
    rcases hbar with rfl | rfl
    · exact ⟨le_rfl, by norm_num [spike]⟩
    · exact ⟨le_rfl, le_rfl⟩

theorem getElem?_missed {i : Nat} (hi : i < n) : (missed n)[i]? = some flat := by
  rw [missed, List.getElem?_append_left (by simpa using hi), List.getElem?_replicate, if_pos hi]

theorem trueRange_missed (n : Nat) : ∃ x, trueRange (missed (n + 1)) = List.replicate (n + 1) 0 ++ [20, x] := by
  have htail (k : Nat) : ∃ x, mapPrev (fun before bar => rangeOf (before, bar)) (some flat) (missed k) =
      List.replicate k 0 ++ [20, x] := by
    induction k with
    | zero => exact ⟨_, by norm_num [missed, mapPrev, rangeOf, flat, spike]; rfl⟩
    | succ k ih =>
      obtain ⟨x, hx⟩ := ih
      refine ⟨x, ?_⟩
      rw [missed, List.replicate_succ, List.cons_append, ← missed, mapPrev, hx, List.replicate_succ, List.cons_append]
      norm_num [rangeOf, flat]
  obtain ⟨x, hx⟩ := htail n
  refine ⟨x, ?_⟩
  rw [trueRange_eq, steps, ← mapPrev_eq_map (fun before bar => rangeOf (before, bar)), missed, List.replicate_succ,
    List.cons_append, ← missed, mapPrev, hx, List.replicate_succ, List.cons_append]
  norm_num [rangeOf, flat]

/-- The average range after the spike. -/
theorem atr_missed (hn : period ≤ n + 1) :
    (∀ i, i < n + 1 → (atr period (missed (n + 1)))[i]? = some (if i + 1 < max period 1 then none else some 0)) ∧
      (atr period (missed (n + 1)))[n + 1]? = some (some (20 / weight (1 - 1 / (period : Rat)) (n + 2))) := by
  obtain ⟨x, hx⟩ := trueRange_missed n
  rw [atr, hx]
  have hzero (k : Nat) : weighted (1 - 1 / (period : Rat)) (List.replicate k 0) = 0 := by
    simpa using weighted_map_mul (1 - 1 / (period : Rat)) 0 id (List.replicate k (0 : Rat))
  constructor
  · intro i hi
    have htake : (List.replicate (n + 1) (0 : Rat) ++ [20, x]).take (i + 1) = List.replicate (i + 1) 0 := by
      rw [List.take_append_of_le_length (by simp; omega), List.take_replicate, Nat.min_eq_left hi]
    rw [getElem?_ewmMean (by simp; omega), htake, weightedMean, hzero, zero_div]
  · have htake : (List.replicate (n + 1) (0 : Rat) ++ [20, x]).take (n + 1 + 1) = List.replicate (n + 1) 0 ++ [20] := by
      rw [List.take_append, List.take_of_length_le (by simp), List.length_replicate, Nat.add_sub_cancel_left]
      rfl
    rw [getElem?_ewmMean (by simp), htake, weightedMean, weighted_concat, hzero, if_neg (by omega)]
    simp

def flatRow (a : Option Rat) : Row := ⟨a.map fun _ => 100, a.map fun _ => 100, .up⟩

theorem turn_flat {a a' : Option Rat} (ha' : ∀ x, a' = some x → x = 0) :
    turn multiplier (flatRow a) flat flat a' = flatRow a' := by
  cases a' with
  | none => cases a <;> norm_num [turn, flatRow, flat, upper, lower]
  | some x =>
    obtain rfl := ha' x (Eq.refl _)
    cases a <;> norm_num [turn, flatRow, flat, upper, lower, hl2]

/-- A spike that is wider than the bands of its bar leaves the trend and draws the lower band over the price. -/
theorem turn_spike {s : Rat} (hs : multiplier * s < 10) : ∃ r l, turn multiplier (flatRow (some 0)) flat spike (some s) = r ∧
    r.finalLower = some l ∧ 100 < l ∧ r.trend = .up := by
  refine ⟨_, max (110 - multiplier * s) 100, Eq.refl _, ?_, lt_max_of_lt_left (by linarith), ?_⟩
  · norm_num [turn, flatRow, flat, spike, lower, hl2]
  · norm_num [turn, flatRow, flat, spike]

/-- The crash then breaks the lower band and is missed. -/
theorem turn_crash {r : Row} {l : Rat} (hl : r.finalLower = some l) (h100 : 100 < l) (htrend : r.trend = .up)
    (a : Option Rat) : (turn multiplier r spike crash a).trend = .up := by
  rw [turn.eq_def]
  split
  · next u l' hu hl' =>
    rw [hl] at hl'
    obtain rfl := Option.some.inj hl'
    have hdown : ¬ (l ≤ spike.close ∧ crash.close < l) := fun h => absurd h.1 (not_le.mpr h100)
    dsimp only
    rw [if_neg hdown, htrend, ite_self]
  · rfl

/-- A crash after a spike that is wider than its bands leaves the trend up. -/
theorem not_turns_missed (hp : 0 < period) (hn : period ≤ n + 1)
    (hs : multiplier * (20 / weight (1 - 1 / (period : Rat)) (n + 2)) < 10) :
    ¬ Turns (missed (n + 1)) (rows multiplier ((missed (n + 1)).zip (atr period (missed (n + 1))))) := by
  obtain ⟨hquiet, hspike⟩ := atr_missed hn
  have hlen : (missed (n + 1)).length = n + 3 := by simp [missed]
  have hlast := getElem?_atr hp (missed (n + 1)) (i := n + 2) (by omega)
  have hzip {i : Nat} {bar : Ohlcv} {a : Option Rat} (hbar : (missed (n + 1))[i]? = some bar)
      (ha : (atr period (missed (n + 1)))[i]? = some a) :
      ((missed (n + 1)).zip (atr period (missed (n + 1))))[i]? = some (bar, a) :=
    List.getElem?_zip_eq_some.mpr ⟨hbar, ha⟩
  have hbar : (missed (n + 1))[n + 1]? = some spike := by simp [missed]
  have hbar' : (missed (n + 1))[n + 2]? = some crash := by simp [missed]
  have hflat (i : Nat) (hi : i < n + 1) : (rows multiplier ((missed (n + 1)).zip (atr period (missed (n + 1)))))[i]? =
      some (flatRow (if i + 1 < max period 1 then none else some 0)) := by
    induction i with
    | zero =>
      rw [getElem?_rows_zero (hzip (getElem?_missed hi) (hquiet 0 hi))]
      split_ifs <;> norm_num [flatRow, upper, lower, flat, hl2]
    | succ i ih =>
      have hi' := Nat.lt_of_succ_lt hi
      rw [getElem?_rows (hzip (getElem?_missed hi') (hquiet i hi')) (hzip (getElem?_missed hi) (hquiet (i + 1) hi)) (ih hi')]
      refine congrArg some (turn_flat fun x hx => ?_)
      split_ifs at hx
      exact (Option.some.inj hx).symm
  have hready := hquiet n (Nat.lt_succ_self n)
  have hrow := hflat n (Nat.lt_succ_self n)
  rw [if_neg (by omega)] at hready hrow
  have hrow' := getElem?_rows (hzip (getElem?_missed (Nat.lt_succ_self n)) hready) (hzip hbar hspike) hrow
  obtain ⟨r, l, hr, hl, hover, htrend⟩ := turn_spike hs
  rw [hr] at hrow'
  intro hturns
  have hdown := (hturns (n + 1) crash r _ hbar' hrow' (getElem?_rows (hzip hbar hspike) (hzip hbar' hlast) hrow')).2 l hl
    (lt_trans (by norm_num [crash]) hover)
  rw [turn_crash hl hover htrend] at hdown
  cases hdown

/-- There are periods enough of quiet after which the last range weighs its long-run share. -/
theorem exists_weight_gt (hp : 0 < period) (hm : 2 * multiplier < period) :
    ∃ n, period ≤ n + 1 ∧ 2 * multiplier < weight (1 - 1 / (period : Rat)) (n + 2) := by
  have hq := factor_nonneg hp
  have hpos : (0 : Rat) < period := by exact_mod_cast hp
  obtain ⟨k, hk⟩ := exists_pow_lt_of_lt_one (show (0 : Rat) < 1 - 2 * multiplier / period by
    rw [sub_pos, div_lt_one hpos]; exact hm) (show 1 - 1 / (period : Rat) < 1 by linarith [one_div_pos.mpr hpos])
  refine ⟨k + period, by omega, ?_⟩
  have hpow := pow_le_pow_of_le_one hq (by linarith [one_div_pos.mpr hpos]) (show k ≤ k + period + 2 by omega)
  have hgeo := one_sub_mul_weight (1 - 1 / (period : Rat)) (k + period + 2)
  have hweight : weight (1 - 1 / (period : Rat)) (k + period + 2) = period * (1 - (1 - 1 / (period : Rat)) ^ (k + period + 2)) := by
    rw [← hgeo]
    field_simp
    ring
  have hshare : 2 * multiplier = period * (2 * multiplier / period) := by field_simp
  rw [hweight, hshare]
  exact mul_lt_mul_of_pos_left (by linarith) hpos

end Missed
end NTrade.Domain.SuperTrend
