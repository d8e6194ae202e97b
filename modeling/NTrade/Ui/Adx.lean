import NTrade.Lib.Causal
import NTrade.Lib.Directional
import NTrade.Ui.MergeLive
import Mathlib.Data.Rat.Floor

/-! The average directional index that the chart computes itself, in Wilder's own smoothing. -/
namespace NTrade.Ui.Adx
open NTrade.Lib NTrade.Lib.Directional NTrade.Ui.MergeLive

structure AdxPoint where
  time : Rat
  adx : Option Rat
  plus_di : Option Rat
  minus_di : Option Rat
  deriving DecidableEq, Repr

structure Moves where
  tr : Rat
  plusDm : Rat
  minusDm : Rat
  deriving DecidableEq, Repr

namespace Moves

def of (prev curr : Candle) : Moves where
  tr := max (max (curr.high - curr.low) |curr.high - prev.close|) |curr.low - prev.close|
  plusDm := gain (curr.high - prev.high) (prev.low - curr.low)
  minusDm := gain (prev.low - curr.low) (curr.high - prev.high)

def add (a b : Moves) : Moves := ⟨a.tr + b.tr, a.plusDm + b.plusDm, a.minusDm + b.minusDm⟩

def div (a : Moves) (period : Nat) : Moves := ⟨a.tr / period, a.plusDm / period, a.minusDm / period⟩

/-- `a * (1 - alpha) + b * alpha`, of each. -/
def mix (alpha : Rat) (a b : Moves) : Moves where
  tr := a.tr * (1 - alpha) + b.tr * alpha
  plusDm := a.plusDm * (1 - alpha) + b.plusDm * alpha
  minusDm := a.minusDm * (1 - alpha) + b.minusDm * alpha

def pDi (a : Moves) : Rat := 100 * a.plusDm / max a.tr (1 / 10 ^ 10)

def mDi (a : Moves) : Rat := 100 * a.minusDm / max a.tr (1 / 10 ^ 10)

def dx (a : Moves) : Rat := 100 * |a.pDi - a.mDi| / max (a.pDi + a.mDi) (1 / 10 ^ 10)

end Moves

/-- The smoothed moves of the bars from the `i`-th on: sums until the period is full, then their mean, then a share of
each new move. The first bar has no move. -/
def smoothLoop (period : Nat) : Nat → Moves → Moves → List (Option Moves) → List (Option Moves)
  | _, _, _, [] => []
  | i, sums, smooth, none :: ms => none :: smoothLoop period (i + 1) sums smooth ms
  | i, sums, smooth, some m :: ms =>
    if i < period then none :: smoothLoop period (i + 1) (sums.add m) smooth ms
    else if i = period then
      some ((sums.add m).div period) :: smoothLoop period (i + 1) (sums.add m) ((sums.add m).div period) ms
    else some (smooth.mix (1 / period) m) :: smoothLoop period (i + 1) sums (smooth.mix (1 / period) m) ms

/-- The index, from the values that there are: their sum until there are enough, then their mean, then a share of each. -/
def adxLoop (period : Nat) : Nat → Rat → Option Rat → List (Option Rat) → List (Option Rat)
  | _, _, _, [] => []
  | dxCount, sumDx, _, none :: dx => none :: adxLoop period dxCount sumDx none dx
  | dxCount, sumDx, prevAdx, some d :: dx =>
    if dxCount + 1 < period then none :: adxLoop period (dxCount + 1) (sumDx + d) none dx
    else if dxCount + 1 = period then
      some ((sumDx + d) / period) :: adxLoop period (dxCount + 1) (sumDx + d) (some ((sumDx + d) / period)) dx
    else
      let a := prevAdx.getD (sumDx / period) * (1 - 1 / period) + d * (1 / period)
      some a :: adxLoop period (dxCount + 1) sumDx (some a) dx

/-- `Math.round(x * 100) / 100`. -/
def shown (x : Rat) : Rat := ⌊x * 100 + 1 / 2⌋ / 100

def moves (candles : List Candle) : List (Option Moves) :=
  mapPrev (fun prev curr => prev.map fun prev => Moves.of prev curr) none candles

def smoothedMoves (period : Nat) (candles : List Candle) : List (Option Moves) :=
  smoothLoop period 0 ⟨0, 0, 0⟩ ⟨0, 0, 0⟩ (moves candles)

def indices (period : Nat) (candles : List Candle) : List (Option Rat) :=
  adxLoop period 0 0 none ((smoothedMoves period candles).map (Option.map Moves.dx))

def point (c : Candle) (v : Option Rat × Option Moves) : AdxPoint :=
  ⟨c.time, v.1.map shown, v.2.map fun s => shown s.pDi, v.2.map fun s => shown s.mDi⟩

def calculateAdx (candles : List Candle) (period : Nat) : List AdxPoint :=
  if candles.length < 2 then candles.map fun c => ⟨c.time, none, none, none⟩
  else
    List.zipWith point candles ((indices period candles).zip (smoothedMoves period candles))

section Bounds
variable {period : Nat}

structure Moves.Within (m : Moves) : Prop where
  plus : 0 ≤ m.plusDm
  minus : 0 ≤ m.minusDm
  sum : m.plusDm + m.minusDm ≤ m.tr

namespace Moves.Within
variable {a b : Moves}

theorem of {prev curr : Candle} (hl : prev.low ≤ prev.close) (hh : prev.close ≤ prev.high) (h : curr.low ≤ curr.high) :
    (Moves.of prev curr).Within :=
  ⟨gain_nonneg _ _, gain_nonneg _ _, gain_le_range h hl hh⟩

theorem zero : Moves.Within ⟨0, 0, 0⟩ := ⟨le_rfl, le_rfl, by norm_num⟩

theorem add (ha : a.Within) (hb : b.Within) : (a.add b).Within :=
  ⟨add_nonneg ha.plus hb.plus, add_nonneg ha.minus hb.minus, by
    have := ha.sum
    have := hb.sum
    simp only [Moves.add]
    linarith⟩

theorem div (ha : a.Within) (period : Nat) : (a.div period).Within := by
  have hp : (0 : Rat) ≤ period := Nat.cast_nonneg period
  refine ⟨div_nonneg ha.plus hp, div_nonneg ha.minus hp, ?_⟩
  simp only [Moves.div]
  rw [← add_div]
  exact div_le_div_of_nonneg_right ha.sum hp

theorem mix {alpha : Rat} (h0 : 0 ≤ alpha) (h1 : alpha ≤ 1) (ha : a.Within) (hb : b.Within) : (a.mix alpha b).Within := by
  have hrest : 0 ≤ 1 - alpha := by linarith
  refine ⟨add_nonneg (mul_nonneg ha.plus hrest) (mul_nonneg hb.plus h0),
    add_nonneg (mul_nonneg ha.minus hrest) (mul_nonneg hb.minus h0), ?_⟩
  have hsum := add_le_add (mul_le_mul_of_nonneg_right ha.sum hrest) (mul_le_mul_of_nonneg_right hb.sum h0)
  simp only [Moves.mix]
  linarith

theorem di (ha : a.Within) : 0 ≤ a.pDi ∧ 0 ≤ a.mDi ∧ a.pDi + a.mDi ≤ 100 :=
  share_bounds ha.plus ha.minus (lt_max_of_lt_right (by norm_num)) (ha.sum.trans (le_max_left _ _))

theorem dx (ha : a.Within) : 0 ≤ a.dx ∧ a.dx ≤ 100 :=
  contrast_bounds ha.di.1 ha.di.2.1 (lt_max_of_lt_right (by norm_num)) (le_max_left _ _)

end Moves.Within

/-- The share of a new value. -/
theorem share_unit (hp : 0 < period) : 0 ≤ 1 / (period : Rat) ∧ 1 / (period : Rat) ≤ 1 := by
  have h1 : (1 : Rat) ≤ period := by exact_mod_cast hp
  exact ⟨by positivity, (div_le_one (by linarith)).mpr h1⟩

/-- What the smoothing loop keeps of the movements. -/
theorem smoothLoop_within (hp : 0 < period) {ms : List (Option Moves)} (hms : ∀ m, some m ∈ ms → m.Within)
    {i : Nat} {sums smooth : Moves} (hsums : sums.Within) (hsmooth : smooth.Within) :
    ∀ m, some m ∈ smoothLoop period i sums smooth ms → m.Within := by
  obtain ⟨h0, h1⟩ := share_unit hp
  induction ms generalizing i sums smooth with
  | nil =>
    intro m hm
    cases hm
  | cons o ms ih =>
    have hrest : ∀ m, some m ∈ ms → m.Within := fun m hm => hms m (List.mem_cons_of_mem _ hm)
    intro m hm
    cases o with
    | none =>
      rw [smoothLoop] at hm
      exact ih hrest hsums hsmooth m (List.mem_of_ne_of_mem (by simp) hm)
    | some x =>
      have hx := hms x List.mem_cons_self
      rw [smoothLoop] at hm
      split_ifs at hm
      · exact ih hrest (hsums.add hx) hsmooth m (List.mem_of_ne_of_mem (by simp) hm)
      · rcases List.mem_cons.mp hm with hm | hm
        · exact Option.some.inj hm ▸ (hsums.add hx).div period
        · exact ih hrest (hsums.add hx) ((hsums.add hx).div period) m hm
      · rcases List.mem_cons.mp hm with hm | hm
        · exact Option.some.inj hm ▸ hsmooth.mix h0 h1 hx
        · exact ih hrest hsums (hsmooth.mix h0 h1 hx) m hm

/-- What the loop of the index keeps of its values. -/
theorem adxLoop_bounds (hp : 0 < period) {dx : List (Option Rat)} (hdx : ∀ d, some d ∈ dx → 0 ≤ d ∧ d ≤ 100)
    {count : Nat} {sumDx : Rat} {prevAdx : Option Rat} (hsum : 0 ≤ sumDx) (hle : sumDx ≤ 100 * count)
    (hfull : sumDx ≤ 100 * period) (hprev : ∀ a, prevAdx = some a → 0 ≤ a ∧ a ≤ 100) :
    ∀ a, some a ∈ adxLoop period count sumDx prevAdx dx → 0 ≤ a ∧ a ≤ 100 := by
  obtain ⟨h0, h1⟩ := share_unit hp
  have hpos : (0 : Rat) < period := by exact_mod_cast hp
  have hnone : ∀ a : Rat, (none : Option Rat) = some a → 0 ≤ a ∧ a ≤ 100 := fun a ha => by cases ha
  induction dx generalizing count sumDx prevAdx with
  | nil =>
    intro a ha
    cases ha
  | cons o dx ih =>
    have hrest : ∀ d, some d ∈ dx → 0 ≤ d ∧ d ≤ 100 := fun d hd => hdx d (List.mem_cons_of_mem _ hd)
    intro a ha
    cases o with
    | none =>
      rw [adxLoop] at ha
      exact ih hrest hsum hle hfull hnone a (List.mem_of_ne_of_mem (by simp) ha)
    | some d =>
      obtain ⟨hd0, hd1⟩ := hdx d List.mem_cons_self
      have hle' : sumDx + d ≤ 100 * ((count + 1 : Nat) : Rat) := by
        push_cast
        linarith
      rw [adxLoop] at ha
      split_ifs at ha with hlt heq
      · have hcount : ((count + 1 : Nat) : Rat) ≤ period := by exact_mod_cast hlt.le
        exact ih hrest (by linarith) hle' (by linarith) hnone a (List.mem_of_ne_of_mem (by simp) ha)
      · rw [heq] at hle'
        have hmean : 0 ≤ (sumDx + d) / period ∧ (sumDx + d) / period ≤ 100 :=
          ⟨by positivity, (div_le_iff₀ hpos).mpr hle'⟩
        rcases List.mem_cons.mp ha with ha | ha
        · exact Option.some.inj ha ▸ hmean
        · refine ih hrest (by linarith) (by rw [heq]; exact hle') hle' (fun b hb => ?_) a ha
          exact Option.some.inj hb ▸ hmean
      · have hlast : 0 ≤ prevAdx.getD (sumDx / period) ∧ prevAdx.getD (sumDx / period) ≤ 100 := by
          cases hprevAdx : prevAdx with
          | none => exact ⟨div_nonneg hsum hpos.le, (div_le_iff₀ hpos).mpr hfull⟩
          | some b => exact hprev b hprevAdx
        have hnext : 0 ≤ prevAdx.getD (sumDx / period) * (1 - 1 / period) + d * (1 / period) ∧
            prevAdx.getD (sumDx / period) * (1 - 1 / period) + d * (1 / period) ≤ 100 := by
          have hw : 0 ≤ 1 - 1 / (period : Rat) := by linarith
          have hup := add_le_add (mul_le_mul_of_nonneg_right hlast.2 hw) (mul_le_mul_of_nonneg_right hd1 h0)
          exact ⟨add_nonneg (mul_nonneg hlast.1 hw) (mul_nonneg hd0 h0), by linarith⟩
        rcases List.mem_cons.mp ha with ha | ha
        · exact Option.some.inj ha ▸ hnext
        · refine ih hrest hsum (by push_cast; linarith) hfull (fun b hb => ?_) a ha
          exact Option.some.inj hb ▸ hnext

end Bounds

section Places
variable {period : Nat}

@[simp] theorem length_moves (candles : List Candle) : (moves candles).length = candles.length := length_mapPrev _ _ _

/-- There is a smoothed move from the bar on that fills the period. -/
theorem isSome_smoothLoop (period i : Nat) (sums smooth : Moves) (ms : List Moves) (k : Nat) (hk : k < ms.length) :
    ∃ o, (smoothLoop period i sums smooth (ms.map some))[k]? = some o ∧ (o.isSome ↔ period ≤ i + k) := by
  induction ms generalizing i sums smooth k with
  | nil => simp at hk
  | cons m ms ih =>
    rw [List.map_cons, smoothLoop]
    cases k with
    | zero =>
      split_ifs with hlt heq
      · exact ⟨none, Eq.refl _, by simpa using hlt⟩
      · exact ⟨_, Eq.refl _, by simp [heq]⟩
      · exact ⟨_, Eq.refl _, by simp; omega⟩
    | succ k =>
      have hk' : k < ms.length := by simpa using hk
      have hadd : i + 1 + k = i + (k + 1) := by omega
      split_ifs <;> (rw [List.getElem?_cons_succ, ← hadd]; exact ih _ _ _ _ hk')

/-- There is an index where there is a value, once there are enough of them. -/
theorem isSome_adxLoop (period count : Nat) (sumDx : Rat) (prevAdx : Option Rat) (dx : List (Option Rat)) (k : Nat)
    (hk : k < dx.length) : ∃ o, (adxLoop period count sumDx prevAdx dx)[k]? = some o ∧
      (o.isSome ↔ dx[k].isSome ∧ period ≤ count + (dx.take (k + 1)).countP Option.isSome) := by
  induction dx generalizing count sumDx prevAdx k with
  | nil => simp at hk
  | cons d dx ih =>
    cases d with
    | none =>
      rw [adxLoop]
      cases k with
      | zero => exact ⟨none, Eq.refl _, by simp⟩
      | succ k =>
        obtain ⟨o, ho, hiff⟩ := ih count sumDx none k (by simpa using hk)
        exact ⟨o, ho, by simpa using hiff⟩
    | some d =>
      rw [adxLoop]
      cases k with
      | zero =>
        split_ifs with hlt heq
        · exact ⟨none, Eq.refl _, by simp; omega⟩
        · exact ⟨_, Eq.refl _, by simp [heq]⟩
        · exact ⟨_, Eq.refl _, by simp; omega⟩
      | succ k =>
        have hstep (sum : Rat) (prev : Option Rat) : ∃ o, (adxLoop period (count + 1) sum prev dx)[k]? = some o ∧
            (o.isSome ↔ (some d :: dx)[k + 1].isSome ∧
              period ≤ count + ((some d :: dx).take (k + 1 + 1)).countP Option.isSome) := by
          obtain ⟨o, ho, hiff⟩ := ih (count + 1) sum prev k (by simpa using hk)
          refine ⟨o, ho, ?_⟩
          have hadd : count + 1 + (dx.take (k + 1)).countP Option.isSome =
              count + ((some d :: dx).take (k + 1 + 1)).countP Option.isSome := by
            rw [List.take_succ_cons, List.countP_cons_of_pos (by rfl)]
            omega
          rw [hiff, hadd, List.getElem_cons_succ]
        split_ifs <;> exact hstep _ _

/-- A list whose values start at a place has as many in its first part as that goes beyond the place. -/
theorem countP_take_of_start {α : Type*} {l : List (Option α)} {start : Nat}
    (h : ∀ k (hk : k < l.length), l[k].isSome ↔ start ≤ k) (n : Nat) (hn : n ≤ l.length) :
    (l.take n).countP Option.isSome = n - start := by
  induction n with
  | zero => simp
  | succ n ih =>
    have hlt : n < l.length := hn
    have hiff := h n hlt
    rw [List.take_succ_eq_append_getElem hlt, List.countP_append, ih hlt.le, List.countP_singleton]
    split_ifs with hs
    · have := hiff.mp hs
      omega
    · have := mt hiff.mpr hs
      omega

end Places
section Points
variable {period : Nat} {candles : List Candle}

theorem shown_nonneg {x : Rat} (h : 0 ≤ x) : 0 ≤ shown x := by
  have hfloor : (0 : Int) ≤ ⌊x * 100 + 1 / 2⌋ := Int.floor_nonneg.mpr (by linarith)
  exact div_nonneg (by exact_mod_cast hfloor) (by norm_num)

theorem shown_le {x : Rat} (h : x ≤ 100) : shown x ≤ 100 := by
  have hfloor : ⌊x * 100 + 1 / 2⌋ < 10001 := Int.floor_lt.mpr (by push_cast; linarith)
  have hle : (⌊x * 100 + 1 / 2⌋ : Rat) ≤ 10000 := by exact_mod_cast Int.lt_add_one_iff.mp hfloor
  rw [shown, div_le_iff₀ (by norm_num)]
  linarith

/-- Two percentages as they are shown may come to a hundredth more than one hundred. -/
theorem shown_add_le {x y : Rat} (h : x + y ≤ 100) : shown x + shown y ≤ 100 + 1 / 100 := by
  have hx := Int.floor_le (x * 100 + 1 / 2)
  have hy := Int.floor_le (y * 100 + 1 / 2)
  rw [shown, shown, ← add_div, div_le_iff₀ (by norm_num)]
  linarith

theorem moves_eq (c : Candle) (cs : List Candle) :
    ∃ ms : List Moves, moves (c :: cs) = none :: ms.map some ∧ ms.length = cs.length := by
  have htail (prev : Candle) (cs : List Candle) :
      ∃ ms : List Moves, mapPrev (fun prev curr => prev.map fun prev => Moves.of prev curr) (some prev) cs = ms.map some ∧
        ms.length = cs.length := by
    induction cs generalizing prev with
    | nil => exact ⟨[], Eq.refl _, Eq.refl _⟩
    | cons c cs ih =>
      obtain ⟨ms, hms, hlen⟩ := ih c
      exact ⟨Moves.of prev c :: ms, by rw [mapPrev, hms]; rfl, by simp [hlen]⟩
  obtain ⟨ms, hms, hlen⟩ := htail c cs
  exact ⟨ms, by rw [moves, mapPrev, hms]; rfl, hlen⟩

theorem isSome_smoothedMoves (hp : 0 < period) {k : Nat} (hk : k < candles.length) :
    ∃ o, (smoothedMoves period candles)[k]? = some o ∧ (o.isSome ↔ period ≤ k) := by
  cases candles with
  | nil => simp at hk
  | cons c cs =>
    obtain ⟨ms, hms, hlen⟩ := moves_eq c cs
    rw [smoothedMoves, hms, smoothLoop]
    cases k with
    | zero => exact ⟨none, Eq.refl _, by simpa using hp.ne'⟩
    | succ k =>
      obtain ⟨o, ho, hiff⟩ := isSome_smoothLoop period (0 + 1) ⟨0, 0, 0⟩ ⟨0, 0, 0⟩ ms k (by rw [hlen]; simpa using hk)
      exact ⟨o, ho, by rw [hiff]; omega⟩

theorem length_smoothedMoves (candles : List Candle) : (smoothedMoves period candles).length = candles.length := by
  have hloop (i : Nat) (sums smooth : Moves) (ms : List (Option Moves)) :
      (smoothLoop period i sums smooth ms).length = ms.length := by
    induction ms generalizing i sums smooth with
    | nil => rfl
    | cons o ms ih =>
      cases o with
      | none => rw [smoothLoop, List.length_cons, ih, List.length_cons]
      | some m =>
        rw [smoothLoop]
        split_ifs <;> rw [List.length_cons, ih, List.length_cons]
  rw [smoothedMoves, hloop, length_moves]

theorem isSome_indices (hp : 0 < period) {k : Nat} (hk : k < candles.length) :
    ∃ o, (indices period candles)[k]? = some o ∧ (o.isSome ↔ 2 * period ≤ k + 1) := by
  have hlen : (smoothedMoves period candles).length = candles.length := length_smoothedMoves candles
  have hdx (j : Nat) (hj : j < ((smoothedMoves period candles).map (Option.map Moves.dx)).length) :
      ((smoothedMoves period candles).map (Option.map Moves.dx))[j].isSome ↔ period ≤ j := by
    rw [List.length_map, hlen] at hj
    obtain ⟨o, ho, hiff⟩ := isSome_smoothedMoves hp hj
    rw [List.getElem_map, Option.isSome_map, ← hiff]
    rw [List.getElem?_eq_getElem (by rw [hlen]; exact hj)] at ho
    rw [Option.some.inj ho]
  have hk' : k < ((smoothedMoves period candles).map (Option.map Moves.dx)).length := by rwa [List.length_map, hlen]
  obtain ⟨o, ho, hiff⟩ := isSome_adxLoop period 0 0 none _ k hk'
  refine ⟨o, ho, ?_⟩
  rw [hiff, hdx k hk', countP_take_of_start hdx (k + 1) hk']
  omega

theorem smoothedMoves_within (hp : 0 < period) (h : ∀ c ∈ candles, c.low ≤ c.close ∧ c.close ≤ c.high) {m : Moves}
    (hm : some m ∈ smoothedMoves period candles) : m.Within := by
  refine smoothLoop_within hp (fun m' hm' => ?_) .zero .zero m hm
  rw [moves, mapPrev_eq_map] at hm'
  obtain ⟨e, he, hsome⟩ := List.mem_map.mp hm'
  obtain ⟨hmem, hprev⟩ := mem_mapPrev he
  rcases hprev with hnone | ⟨prev, hprev, he1⟩
  · rw [hnone] at hsome
    cases hsome
  · rw [he1] at hsome
    rw [← Option.some.inj hsome]
    exact .of (h prev hprev).1 (h prev hprev).2 ((h e.2 hmem).1.trans (h e.2 hmem).2)

theorem indices_bounds (hp : 0 < period) (h : ∀ c ∈ candles, c.low ≤ c.close ∧ c.close ≤ c.high) {a : Rat}
    (ha : some a ∈ indices period candles) : 0 ≤ a ∧ a ≤ 100 := by
  refine adxLoop_bounds hp (fun d hd => ?_) le_rfl (by simp) (by positivity) (fun b hb => by cases hb) a ha
  obtain ⟨o, ho, hod⟩ := List.mem_map.mp hd
  obtain ⟨m, rfl, rfl⟩ := Option.map_eq_some_iff.mp hod
  exact (smoothedMoves_within hp h ho).dx

/-- Every candle has its point, which has no values where there is one candle only. -/
theorem getElem?_calculateAdx (hp : 0 < period) {k : Nat} {c : Candle} (hc : candles[k]? = some c) :
    ∃ a s, (calculateAdx candles period)[k]? = some (point c (a, s)) ∧
      (a = none ∨ a ∈ indices period candles) ∧ (s = none ∨ s ∈ smoothedMoves period candles) ∧
      (a.isSome ↔ 2 * period ≤ k + 1) ∧ (s.isSome ↔ period ≤ k) := by
  have hk : k < candles.length := (List.getElem?_eq_some_iff.mp hc).1
  rw [calculateAdx]
  split_ifs with hlen
  · refine ⟨none, none, ?_, .inl (Eq.refl _), .inl (Eq.refl _), by simp; omega, by simp; omega⟩
    rw [List.getElem?_map, hc]
    rfl
  · obtain ⟨a, ha, ha'⟩ := isSome_indices hp hk
    obtain ⟨s, hs, hs'⟩ := isSome_smoothedMoves hp hk
    refine ⟨a, s, ?_, .inr (List.mem_of_getElem? ha), .inr (List.mem_of_getElem? hs), ha', hs'⟩
    rw [List.getElem?_zipWith, hc, List.zip, List.getElem?_zipWith, ha, hs]

theorem length_calculateAdx : (calculateAdx candles period).length = candles.length := by
  rw [calculateAdx]
  split_ifs
  · rw [List.length_map]
  · have hadx (count : Nat) (sum : Rat) (prev : Option Rat) (dx : List (Option Rat)) :
        (adxLoop period count sum prev dx).length = dx.length := by
      induction dx generalizing count sum prev with
      | nil => rfl
      | cons d dx ih =>
        cases d with
        | none => rw [adxLoop, List.length_cons, ih, List.length_cons]
        | some d =>
          rw [adxLoop]
          split_ifs <;> rw [List.length_cons, ih, List.length_cons]
    rw [List.length_zipWith, List.length_zip, indices, hadx, List.length_map, length_smoothedMoves, Nat.min_self,
      Nat.min_self]

/-- On candles that close in their range, the chart's indicators start one bar after the period and its index one bar
before twice the period is over; as they are shown the index is a percentage, and so are the indicators, which come to a
hundredth over one hundred at most. -/
theorem calculateAdx_bounds (hp : 0 < period) (h : ∀ c ∈ candles, c.low ≤ c.close ∧ c.close ≤ c.high) :
    (calculateAdx candles period).map AdxPoint.time = candles.map Candle.time ∧
      ∀ k pt, (calculateAdx candles period)[k]? = some pt →
        (pt.plus_di.isSome ↔ period ≤ k) ∧ (pt.minus_di.isSome ↔ period ≤ k) ∧ (pt.adx.isSome ↔ 2 * period ≤ k + 1) ∧
        (∀ p m, pt.plus_di = some p → pt.minus_di = some m → 0 ≤ p ∧ p ≤ 100 ∧ 0 ≤ m ∧ m ≤ 100 ∧ p + m ≤ 100 + 1 / 100) ∧
        ∀ a, pt.adx = some a → 0 ≤ a ∧ a ≤ 100 := by
  constructor
  · apply List.ext_getElem?
    intro k
    rw [List.getElem?_map, List.getElem?_map]
    cases hc : candles[k]? with
    | none => rw [List.getElem?_eq_none (by rw [length_calculateAdx]; exact List.getElem?_eq_none_iff.mp hc)]; rfl
    | some c =>
      obtain ⟨a, s, hpt, -⟩ := getElem?_calculateAdx hp hc
      rw [hpt]
      rfl
  · intro k pt hpt
    have hk : k < candles.length := length_calculateAdx  ▸ (List.getElem?_eq_some_iff.mp hpt).1
    obtain ⟨a, s, hpt', ha, hs, hadx, hdi⟩ := getElem?_calculateAdx hp (List.getElem?_eq_getElem hk)
    rw [hpt'] at hpt
    rw [← Option.some.inj hpt]
    refine ⟨by simpa [point] using hdi, by simpa [point] using hdi, by simpa [point] using hadx, fun p m hpe hme => ?_,
      fun b hb => ?_⟩
    · obtain ⟨v, hv, rfl⟩ := Option.map_eq_some_iff.mp hpe
      obtain ⟨v', hv', rfl⟩ := Option.map_eq_some_iff.mp hme
      dsimp only at hv hv'
      rw [hv] at hv'
      rw [← Option.some.inj hv']
      have hmem : some v ∈ smoothedMoves period candles := hs.elim (fun hnone => by rw [hv] at hnone; cases hnone) fun h => hv ▸ h
      obtain ⟨hplus, hminus, hsum⟩ := (smoothedMoves_within hp h hmem).di
      exact ⟨shown_nonneg hplus, shown_le (by linarith), shown_nonneg hminus, shown_le (by linarith), shown_add_le hsum⟩
    · obtain ⟨v, hv, rfl⟩ := Option.map_eq_some_iff.mp hb
      dsimp only at hv
      have hmem : some v ∈ indices period candles := ha.elim (fun hnone => by rw [hv] at hnone; cases hnone) fun h => hv ▸ h
      obtain ⟨h0, h1⟩ := indices_bounds hp h hmem
      exact ⟨shown_nonneg h0, shown_le h1⟩

theorem calculateAdx_bounds_rise :
    let candles : List Candle := [⟨0, 10, 12, 9, 11, 100⟩, ⟨60, 11, 15, 10, 14, 100⟩]
    (calculateAdx candles 1).map AdxPoint.time = candles.map Candle.time := by
  intro candles
  have hclosed : ∀ c ∈ candles, c.low ≤ c.close ∧ c.close ≤ c.high := by
    simp only [candles, List.mem_cons, List.not_mem_nil, or_false]
    rintro c (rfl | rfl) <;> norm_num
  exact (calculateAdx_bounds one_pos hclosed).1

end Points

section Prefixes
variable {period : Nat}

theorem causal_smoothLoop (period i : Nat) (sums smooth : Moves) : Causal (smoothLoop period i sums smooth) := by
  intro ms n
  induction ms generalizing i sums smooth n with
  | nil => simp [smoothLoop]
  | cons o ms ih =>
    cases n with
    | zero => rfl
    | succ n =>
      cases o with
      | none => rw [List.take_succ_cons, smoothLoop, ih, smoothLoop, List.take_succ_cons]
      | some m =>
        rw [List.take_succ_cons, smoothLoop, smoothLoop]
        split_ifs <;> rw [ih, List.take_succ_cons]

theorem causal_adxLoop (period count : Nat) (sumDx : Rat) (prevAdx : Option Rat) :
    Causal (adxLoop period count sumDx prevAdx) := by
  intro dx n
  induction dx generalizing count sumDx prevAdx n with
  | nil => simp [adxLoop]
  | cons d dx ih =>
    cases n with
    | zero => rfl
    | succ n =>
      cases d with
      | none => rw [List.take_succ_cons, adxLoop, ih, adxLoop, List.take_succ_cons]
      | some d =>
        rw [List.take_succ_cons, adxLoop, adxLoop]
        split_ifs
        · rw [ih, List.take_succ_cons]
        · rw [ih, List.take_succ_cons]
        · dsimp only
          rw [ih, List.take_succ_cons]

theorem causal_smoothedMoves (period : Nat) : Causal (smoothedMoves period) :=
  (Causal.mapPrev _ none).comp (causal_smoothLoop period 0 _ _)

theorem causal_indices (period : Nat) : Causal (indices period) :=
  ((causal_smoothedMoves period).comp (Causal.map _)).comp (causal_adxLoop period 0 0 none)

/-- Candles that come later change no point. -/
theorem calculateAdx_take (hp : 0 < period) (candles : List Candle) (n : Nat) :
    calculateAdx (candles.take n) period = (calculateAdx candles period).take n := by
  have hid : Causal fun cs : List Candle => cs := fun _ _ => Eq.refl _
  have hcausal := hid.zipWith ((causal_indices period).zipWith (causal_smoothedMoves period) Prod.mk) point
  have hzip := hcausal candles n
  dsimp only at hzip
  rcases Nat.lt_or_ge candles.length 2 with hlen | hlen
  · rw [calculateAdx, calculateAdx, if_pos (by rw [List.length_take]; omega), if_pos hlen, List.map_take]
  · rcases Nat.lt_or_ge n 2 with hn | hn
    · rw [calculateAdx, if_pos (by rw [List.length_take]; omega)]
      obtain rfl | rfl : n = 0 ∨ n = 1 := by omega
      · rfl
      · -- the first candle has no move, with or without others after it
        obtain ⟨c, cs, rfl⟩ := List.exists_cons_of_length_pos (show 0 < candles.length by omega)
        obtain ⟨a, s, hpt, -, -, ha, hs⟩ := getElem?_calculateAdx hp (show (c :: cs)[0]? = some c from rfl)
        have hnone : a = none ∧ s = none := by
          constructor
          · simpa [hp.ne'] using mt ha.mp (by omega)
          · simpa [hp.ne'] using mt hs.mp (by omega)
        have hright : (calculateAdx (c :: cs) period).take 1 = [point c (a, s)] := by
          rw [List.take_one, List.head?_eq_getElem?, hpt]
          rfl
        rw [hright, hnone.1, hnone.2]
        rfl
    · rw [calculateAdx, if_neg (by rw [List.length_take]; omega), calculateAdx, if_neg (Nat.not_lt.mpr hlen)]
      exact hzip

theorem calculateAdx_take_rise :
    let candles : List Candle := [⟨0, 10, 12, 9, 11, 100⟩, ⟨60, 11, 15, 10, 14, 100⟩]
    calculateAdx (candles.take 1) 14 = (calculateAdx candles 14).take 1 :=
  calculateAdx_take (by decide) _ 1

end Prefixes
end NTrade.Ui.Adx
