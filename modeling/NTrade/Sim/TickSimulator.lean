import NTrade.Engines.CandleEngine
import NTrade.Execution.Costs

/-! Synthetic ticks: a bar of one minute is drawn out into a tick a second. The path is random; where
it opens and closes, what it reaches and how much it trades is the bar's. -/
namespace NTrade.Sim
open NTrade.Domain NTrade.Engines NTrade.Execution

/-- `random.Random`, with the states it goes through. -/
structure Rng (σ : Type) where
  seeded : Int → σ
  randrange : σ → Nat → Nat → Nat × σ
  uniform : σ → Rat → Rat → Rat × σ
  randrange_mem : ∀ s {a b}, a < b → a ≤ (randrange s a b).1 ∧ (randrange s a b).1 < b
  /-- Every value of a range comes up sooner or later. -/
  randrange_hits : ∀ s {a b v}, a ≤ v → v < b → ∃ k, (randrange ((fun s => (randrange s a b).2)^[k] s) a b).1 = v

def MIN_ANCHOR_GAP : Nat := 5

structure SimTick where
  ts : Timestamp
  price : Rat
  quantity : Int
  deriving DecidableEq, Repr

def interp (anchors : List (Nat × Rat)) (n : Nat) : List Rat :=
  (anchors.zip anchors.tail).foldl (fun prices seg =>
      (List.range' seg.1.1 (seg.2.1 + 1 - seg.1.1)).foldl (fun (prices : List Rat) (i : Nat) =>
        let frac : Rat := if seg.2.1 ≠ seg.1.1 then ((i : Rat) - seg.1.1) / (seg.2.1 - seg.1.1) else 0
        prices.set i (seg.1.2 + (seg.2.2 - seg.1.2) * frac)) prices)
    (List.replicate n 0)

def addLast (d : Int) : List Int → List Int
  | [] => []
  | [q] => [q + d]
  | q :: q' :: qty => q :: addLast d (q' :: qty)

def distributeVolume (volume : Int) (prices : List Rat) : List Int :=
  if volume ≤ 0 then List.replicate prices.length 0
  else
    let moves := List.zipWith (fun p q => |q - p|) prices prices.tail
    let total := if moves.sum = 0 then 1 else moves.sum
    let qty := 0 :: moves.map fun m => (volume * m / total).num.tdiv (volume * m / total).den
    addLast (volume - qty.sum) qty

/-- The prices of a bar, with its anchors pinned again. -/
def pin (bar : Ohlcv) (hi lo n : Nat) (prices : List Rat) : List Rat :=
  (((prices.set 0 bar.open_).set hi bar.high).set lo bar.low).set (n - 1) bar.close

section Random
variable {σ : Type} (rng : Rng σ)

/-- Draw the second anchor again until it is far enough from the first. -/
def redraw (minGap n hi : Nat) : Nat → Nat × σ → Option (Nat × σ)
  | 0, _ => none
  | fuel + 1, (lo, s) =>
    if ((hi : Int) - lo).natAbs < minGap then redraw minGap n hi fuel (rng.randrange s 1 (n - 1)) else some (lo, s)

/-- Noise for the prices that are not anchors, kept within the bar. -/
def jitter (low high noise : Rat) (pinned : List Nat) : Nat → List Rat → σ → List Rat
  | _, [], _ => []
  | i, p :: prices, s =>
    if i ∈ pinned then p :: jitter low high noise pinned (i + 1) prices s
    else
      let u := rng.uniform s (-noise) noise
      min high (max low (p + u.1)) :: jitter low high noise pinned (i + 1) prices u.2

inductive SynthError where
  /-- "high ... < low ..." -/
  | highBelowLow (high low : Rat)
  /-- "seconds must be >= 4" -/
  | fewSeconds
  deriving DecidableEq, Repr

/-- `synthesize_1m_ticks`, with fuel for the draws of the second anchor. -/
def synthesize1mTicks (fuel : Nat) (barTs : Timestamp) (bar : Ohlcv) (seed : Int) (seconds : Nat) :
    Option (Except SynthError (List SimTick)) :=
  if bar.high < bar.low then some (.error (.highBelowLow bar.high bar.low))
  else if seconds < 4 then some (.error .fewSeconds)
  else
    let n := seconds
    let minGap := max 1 (min MIN_ANCHOR_GAP ((n - 3) / 2))
    let (hi, s) := rng.randrange (rng.seeded seed) 1 (n - 1)
    (redraw rng minGap n hi fuel (rng.randrange s 1 (n - 1))).map fun (lo, s) =>
      let anchors := [(0, bar.open_), (hi, bar.high), (lo, bar.low), (n - 1, bar.close)].insertionSort fun a b => a.1 ≤ b.1
      let noise := (bar.high - bar.low) * (2 / 100)
      let prices := jitter rng bar.low bar.high noise [0, hi, lo, n - 1] 0 (interp anchors n) s
      let qty := distributeVolume bar.volume prices
      let prices := pin bar hi lo n (prices.map fun p => round p 2)
      .ok ((List.range n).map fun (i : Nat) => ⟨barTs.shift i, prices.getD i 0, qty.getD i 0⟩)

/-- The second anchor is found, and it keeps its distance. -/
theorem redraw_finds {n hi minGap v : Nat} (hv1 : 1 ≤ v) (hvn : v < n - 1)
    (hfar : ¬((hi : Int) - v).natAbs < minGap) (s : σ) :
    ∃ N, ∀ fuel ≥ N, ∃ lo s', redraw rng minGap n hi fuel (rng.randrange s 1 (n - 1)) = some (lo, s') ∧
      1 ≤ lo ∧ lo < n - 1 ∧ ¬((hi : Int) - lo).natAbs < minGap := by
  obtain ⟨k, hk⟩ := rng.randrange_hits s hv1 hvn
  induction k generalizing s with
  | zero =>
    refine ⟨1, fun fuel hf => ?_⟩
    obtain ⟨fuel, rfl⟩ := Nat.exists_eq_add_of_le' hf
    rw [Function.iterate_zero_apply] at hk
    refine ⟨v, (rng.randrange s 1 (n - 1)).2, ?_, hv1, hvn, hfar⟩
    rw [redraw, hk, if_neg hfar]
  | succ k ih =>
    obtain ⟨N, hN⟩ := ih (rng.randrange s 1 (n - 1)).2 (by rw [← Function.iterate_succ_apply]; exact hk)
    refine ⟨N + 1, fun fuel hf => ?_⟩
    obtain ⟨fuel, rfl⟩ := Nat.exists_eq_add_of_le' (Nat.le_of_add_left_le hf)
    rw [redraw]
    by_cases hnear : ((hi : Int) - (rng.randrange s 1 (n - 1)).1).natAbs < minGap
    · rw [if_pos hnear]
      exact hN fuel (by omega)
    · rw [if_neg hnear]
      obtain ⟨h1, h2⟩ := rng.randrange_mem s (show 1 < n - 1 by omega)
      exact ⟨_, _, rfl, h1, h2, hnear⟩

theorem length_jitter (low high noise : Rat) (pinned : List Nat) (i : Nat) (prices : List Rat) (s : σ) :
    (jitter rng low high noise pinned i prices s).length = prices.length := by
  induction prices generalizing i s with
  | nil => rfl
  | cons p prices ih =>
    rw [jitter]
    split
    · rw [List.length_cons, ih, List.length_cons]
    · rw [List.length_cons, ih, List.length_cons]

/-- What is not pinned is kept within the bar. -/
theorem jitter_mem {low high : Rat} (h : low ≤ high) (noise : Rat) (pinned : List Nat) (i : Nat) (prices : List Rat)
    (s : σ) {j : Nat} {p : Rat} (hj : i + j ∉ pinned) (hp : (jitter rng low high noise pinned i prices s)[j]? = some p) :
    low ≤ p ∧ p ≤ high := by
  induction prices generalizing i s j with
  | nil => simp [jitter] at hp
  | cons q prices ih =>
    rw [jitter] at hp
    cases j with
    | zero =>
      rw [if_neg (show i ∉ pinned from hj)] at hp
      rw [List.getElem?_cons_zero, Option.some.injEq] at hp
      rw [← hp]
      exact ⟨le_min h (le_max_left _ _), min_le_left _ _⟩
    | succ j =>
      have hj' : i + 1 + j ∉ pinned := by rwa [Nat.add_right_comm]
      split at hp
      · rw [List.getElem?_cons_succ] at hp
        exact ih (i + 1) s hj' hp
      · rw [List.getElem?_cons_succ] at hp
        exact ih (i + 1) _ hj' hp

end Random

theorem length_interp (anchors : List (Nat × Rat)) (n : Nat) : (interp anchors n).length = n := by
  have hseg (f : Nat → Rat) (is : List Nat) (prices : List Rat) :
      (is.foldl (fun (prices : List Rat) (i : Nat) => prices.set i (f i)) prices).length = prices.length := by
    induction is generalizing prices with
    | nil => rfl
    | cons i is ih => rw [List.foldl_cons, ih, List.length_set]
  have hall (segs : List ((Nat × Rat) × Nat × Rat)) (prices : List Rat) : ∀ f : (Nat × Rat) × Nat × Rat → Nat → Rat,
      (segs.foldl (fun prices seg => (List.range' seg.1.1 (seg.2.1 + 1 - seg.1.1)).foldl
        (fun (prices : List Rat) (i : Nat) => prices.set i (f seg i)) prices) prices).length = prices.length := by
    intro f
    induction segs generalizing prices with
    | nil => rfl
    | cons seg segs ih => rw [List.foldl_cons, ih, hseg]
  rw [interp]
  exact (hall _ _ _).trans List.length_replicate

private theorem length_addLast (d : Int) (qty : List Int) : (addLast d qty).length = qty.length := by
  induction qty with
  | nil => rfl
  | cons q qty ih =>
    cases qty with
    | nil => rfl
    | cons q' qty => rw [addLast, List.length_cons, ih, ← List.length_cons]

private theorem sum_addLast (d : Int) {qty : List Int} (h : qty ≠ []) : (addLast d qty).sum = qty.sum + d := by
  induction qty with
  | nil => exact absurd rfl h
  | cons q qty ih =>
    cases qty with
    | nil => simp [addLast]
    | cons q' qty =>
      rw [addLast, List.sum_cons, ih (List.cons_ne_nil _ _), ← add_assoc, ← List.sum_cons]

/-- All volume is traded, one quantity for each price. -/
theorem distributeVolume_spec {volume : Int} (hv : 0 ≤ volume) {prices : List Rat} (h : prices ≠ []) :
    (distributeVolume volume prices).length = prices.length ∧ (distributeVolume volume prices).sum = volume := by
  have hlen : prices.tail.length + 1 = prices.length := by
    rw [List.length_tail]
    exact Nat.sub_add_cancel (List.length_pos_iff.mpr h)
  rw [distributeVolume]
  split
  · next hz =>
    rw [List.length_replicate, List.sum_replicate, nsmul_zero]
    exact ⟨rfl, le_antisymm hv hz⟩
  · constructor
    · rw [length_addLast, List.length_cons, List.length_map, List.length_zipWith, min_eq_right (by omega), hlen]
    · rw [sum_addLast _ (List.cons_ne_nil _ _)]
      exact add_sub_cancel _ _

section Synthesize

def SimTick.event (symbol exchange : String) (t : SimTick) : TickEvent where
  symbol := symbol
  exchange := exchange
  price := t.price
  quantity := t.quantity
  ts := t.ts

structure ValidBar (bar : Ohlcv) : Prop where
  low_le_open : bar.low ≤ bar.open_
  open_le_high : bar.open_ ≤ bar.high
  low_le_close : bar.low ≤ bar.close
  close_le_high : bar.close ≤ bar.high
  low_mem : bar.low ∈ grid 2
  high_mem : bar.high ∈ grid 2
  volume : 0 ≤ bar.volume

theorem getD_set {prices : List Rat} {i : Nat} (hi : i < prices.length) (p : Rat) (j : Nat) :
    (prices.set i p).getD j 0 = if j = i then p else prices.getD j 0 := by
  rw [List.getD_eq_getElem?_getD, List.getElem?_set, List.getD_eq_getElem?_getD]
  by_cases h : j = i
  · rw [if_pos h.symm, if_pos h, if_pos hi]
    rfl
  · rw [if_neg (Ne.symm h), if_neg h]

theorem getD_pin {bar : Ohlcv} {hi lo n : Nat} {prices : List Rat} (hn : prices.length = n)
    (hhi : hi < n - 1) (hlo : lo < n - 1) (i : Nat) :
    (pin bar hi lo n prices).getD i 0 =
      if i = n - 1 then bar.close else if i = lo then bar.low else if i = hi then bar.high
      else if i = 0 then bar.open_ else prices.getD i 0 := by
  rw [pin, getD_set (by simp; omega), getD_set (by simp; omega), getD_set (by simp; omega), getD_set (by omega)]

/-- Ticks whose prices are pinned have the candle of the bar. -/
private theorem pinned_of {bar : Ohlcv} (hb : ValidBar bar) {n hi lo : Nat} (hhi : 1 ≤ hi ∧ hi < n - 1)
    (hlo : 1 ≤ lo ∧ lo < n - 1) (hne : hi ≠ lo) {prices : List Rat} (hlen : prices.length = n)
    (hin : ∀ i < n, i ∉ [0, hi, lo, n - 1] → bar.low ≤ prices.getD i 0 ∧ prices.getD i 0 ≤ bar.high) {qty : List Int}
    (hq : qty.length = n) (hsum : qty.sum = bar.volume) {ticks : List TickEvent} (t : Nat → TickEvent)
    (ht : ticks = (List.range n).map t)
    (hprice : ∀ i, (t i).price = (pin bar hi lo n prices).getD i 0) (hquantity : ∀ i, (t i).quantity = qty.getD i 0) :
    bar.Of ticks := by
  have hp (i : Nat) := (hprice i).trans (getD_pin hlen hhi.2 hlo.2 i)
  have hlh : bar.low ≤ bar.high := hb.low_le_open.trans hb.open_le_high
  have hbound (i : Nat) (hi' : i < n) : bar.low ≤ (t i).price ∧ (t i).price ≤ bar.high := by
    rw [hp]
    split_ifs with h1 h2 h3 h4
    · exact ⟨hb.low_le_close, hb.close_le_high⟩
    · exact ⟨le_rfl, hlh⟩
    · exact ⟨hlh, le_rfl⟩
    · exact ⟨hb.low_le_open, hb.open_le_high⟩
    · exact hin i hi' (by simp [h1, h2, h3, h4])
  have hmem (i : Nat) (hi' : i < n) : t i ∈ ticks := by
    rw [ht]
    exact List.mem_map_of_mem (List.mem_range.mpr hi')
  constructor
  · rw [ht, List.head?_map, List.head?_range, if_neg (by omega)]
    simp only [Option.map_some, hp]
    rw [if_neg (by omega), if_neg (by omega), if_neg (by omega), if_pos trivial]
  · refine ⟨⟨t hi, hmem hi (by omega), ?_⟩, ?_⟩
    · rw [hp, if_neg (by omega), if_neg hne, if_pos rfl]
    · rintro p ⟨u, hu, rfl⟩
      rw [ht] at hu
      obtain ⟨i, hi', rfl⟩ := List.mem_map.mp hu
      exact (hbound i (List.mem_range.mp hi')).2
  · refine ⟨⟨t lo, hmem lo (by omega), ?_⟩, ?_⟩
    · rw [hp, if_neg (by omega), if_pos rfl]
    · rintro p ⟨u, hu, rfl⟩
      rw [ht] at hu
      obtain ⟨i, hi', rfl⟩ := List.mem_map.mp hu
      exact (hbound i (List.mem_range.mp hi')).1
  · rw [ht, List.getLast?_map, List.getLast?_range, if_neg (by omega)]
    simp only [Option.map_some, hp]
    rw [if_pos trivial]
  · have hqty : (List.range n).map (fun i => (t i).quantity) = qty := by
      apply List.ext_getElem (by simp [hq])
      intro i h1 h2
      simp [hquantity, h2]
    rw [ht, List.map_map, ← hsum]
    exact congrArg List.sum hqty.symm

variable {σ : Type} (rng : Rng σ)

/-- The ticks of a bar are drawn in the end, whatever the draws are; their candle is the bar. -/
theorem synthesize1mTicks_spec {seconds : Nat} (h4 : 4 ≤ seconds) (seed : Int) :
    ∃ N, ∀ fuel ≥ N, ∀ (barTs : Timestamp) (bar : Ohlcv), ValidBar bar → ∀ symbol exchange,
      ∃ ticks, synthesize1mTicks rng fuel barTs bar seed seconds = some (.ok ticks) ∧
        bar.Of (ticks.map (SimTick.event symbol exchange)) ∧
        ∀ t ∈ ticks, ∃ i : Nat, i < seconds ∧ t.ts = barTs.shift i := by
  obtain ⟨hi, s, hdraw⟩ : ∃ hi s, rng.randrange (rng.seeded seed) 1 (seconds - 1) = (hi, s) := ⟨_, _, rfl⟩
  have hhi : 1 ≤ hi ∧ hi < seconds - 1 := by
    have h := rng.randrange_mem (rng.seeded seed) (show 1 < seconds - 1 by omega)
    rwa [hdraw] at h
  obtain ⟨v, hv1, hvn, hfar⟩ : ∃ v, 1 ≤ v ∧ v < seconds - 1 ∧
      ¬((hi : Int) - v).natAbs < max 1 (min MIN_ANCHOR_GAP ((seconds - 3) / 2)) := by
    -- one of the two ends is far enough
    rcases Nat.lt_or_ge (hi - 1) (max 1 (min MIN_ANCHOR_GAP ((seconds - 3) / 2))) with h | h
    · refine ⟨seconds - 2, by omega, by omega, ?_⟩
      rw [MIN_ANCHOR_GAP] at h ⊢
      omega
    · exact ⟨1, le_rfl, by omega, by omega⟩
  obtain ⟨N, hN⟩ := redraw_finds rng hv1 hvn hfar s
  refine ⟨N, fun fuel hf barTs bar hb symbol exchange => ?_⟩
  obtain ⟨lo, s', hre, hlo1, hlon, hgap⟩ := hN fuel hf
  have hne : hi ≠ lo := by
    rintro rfl
    apply hgap
    simp
  have hlh : bar.low ≤ bar.high := hb.low_le_open.trans hb.open_le_high
  rw [synthesize1mTicks, if_neg (not_lt.mpr hlh), if_neg (by omega)]
  simp only [hdraw, hre, Option.map_some]
  refine ⟨_, rfl, ?_, ?_⟩
  · generalize hprices : jitter rng bar.low bar.high ((bar.high - bar.low) * (2 / 100)) [0, hi, lo, seconds - 1] 0
      (interp _ seconds) s' = prices
    have hlen : prices.length = seconds := by rw [← hprices, length_jitter, length_interp]
    obtain ⟨hq, hsum⟩ := distributeVolume_spec hb.volume (List.ne_nil_of_length_pos (by rw [hlen]; omega) : prices ≠ [])
    have hlen' : (prices.map fun p => round p 2).length = seconds := by rw [List.length_map, hlen]
    refine pinned_of hb hhi ⟨hlo1, hlon⟩ hne hlen' ?_ (hq.trans hlen) hsum _ List.map_map (fun i => rfl) (fun i => rfl)
    intro i hi' hpin
    obtain ⟨p, hget⟩ : ∃ p, prices[i]? = some p := ⟨_, List.getElem?_eq_getElem (hlen ▸ hi')⟩
    obtain ⟨hl, hh⟩ := jitter_mem rng hlh _ _ 0 _ s' (by rwa [Nat.zero_add]) (by rw [hprices]; exact hget)
    rw [List.getD_eq_getElem?_getD, List.getElem?_map, hget]
    constructor
    · rw [← round_of_mem hb.low_mem]
      exact round_mono hl 2
    · rw [← round_of_mem hb.high_mem]
      exact round_mono hh 2
  · intro t ht
    obtain ⟨i, hi', rfl⟩ := List.mem_map.mp ht
    exact ⟨i, List.mem_range.mp hi', rfl⟩

end Synthesize
end NTrade.Sim
