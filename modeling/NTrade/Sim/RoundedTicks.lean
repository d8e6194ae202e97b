import NTrade.Sim.Anchors

/-! Synthetic ticks of bars whose prices have any number of decimals. The prices between the anchors are kept within
the bar and then rounded to two decimals, which may take them out of it. -/
namespace NTrade.Sim
open NTrade.Domain NTrade.Engines NTrade.Execution

structure BarShape (bar : Ohlcv) : Prop where
  low_le_open : bar.low ≤ bar.open_
  open_le_high : bar.open_ ≤ bar.high
  low_le_close : bar.low ≤ bar.close
  close_le_high : bar.close ≤ bar.high
  volume : 0 ≤ bar.volume

theorem BarShape.low_le_high {bar : Ohlcv} (h : BarShape bar) : bar.low ≤ bar.high := h.low_le_open.trans h.open_le_high

structure Respects (bar : Ohlcv) (seconds : Nat) (ticks : List SimTick) : Prop where
  length : ticks.length = seconds
  first : ticks.head?.map SimTick.price = some bar.open_
  last : ticks.getLast?.map SimTick.price = some bar.close
  within : ∀ t ∈ ticks, bar.low ≤ t.price ∧ t.price ≤ bar.high
  high : ∃ t ∈ ticks, t.price = bar.high
  low : ∃ t ∈ ticks, t.price = bar.low
  quantities : ∀ t ∈ ticks, 0 ≤ t.quantity
  volume : (ticks.map SimTick.quantity).sum = bar.volume

section Quantities

private theorem mem_addLast {d q : Int} (hd : 0 ≤ d) {qty : List Int} (h : ∀ q ∈ qty, 0 ≤ q) (hq : q ∈ addLast d qty) :
    0 ≤ q := by
  induction qty with
  | nil => cases hq
  | cons a qty ih =>
    cases qty with
    | nil =>
      rw [List.mem_singleton.mp hq]
      exact add_nonneg (h a (by simp)) hd
    | cons b qty =>
      rcases List.mem_cons.mp hq with rfl | hq
      · exact h q (by simp)
      · exact ih (fun q hq => h q (List.mem_cons_of_mem a hq)) hq

/-- Quantities that are cut to whole numbers are no negative numbers, and no more than what is shared out. -/
private theorem cut_shares {volume : Int} (hv : 0 ≤ volume) {total : Rat} (ht : 0 < total) {moves : List Rat}
    (hm : ∀ m ∈ moves, 0 ≤ m) :
    (∀ q ∈ moves.map fun m => (volume * m / total).num.tdiv (volume * m / total).den, 0 ≤ q) ∧
      (((moves.map fun m => (volume * m / total).num.tdiv (volume * m / total).den).sum : Int) : Rat) ≤
        volume * moves.sum / total := by
  induction moves with
  | nil => simp
  | cons m moves ih =>
    obtain ⟨hnonneg, hsum⟩ := ih fun m' hm' => hm m' (List.mem_cons_of_mem m hm')
    have hshare : 0 ≤ volume * m / total :=
      div_nonneg (mul_nonneg (Int.cast_nonneg hv) (hm m (by simp))) ht.le
    have hfloor : (volume * m / total).num.tdiv (volume * m / total).den = ⌊volume * m / total⌋ := by
      rw [Int.tdiv_eq_ediv_of_nonneg (Rat.num_nonneg.mpr hshare)]
      exact Rat.floor_def'.symm
    constructor
    · intro q hq
      rcases List.mem_cons.mp hq with hq | hq
      · rw [show q = ⌊volume * m / total⌋ from hq.trans hfloor]
        exact Int.floor_nonneg.mpr hshare
      · exact hnonneg q hq
    · rw [List.map_cons, List.sum_cons, List.sum_cons, Int.cast_add, hfloor, mul_add, add_div]
      exact add_le_add (Int.floor_le _) hsum

theorem distributeVolume_nonneg {volume : Int} (hv : 0 ≤ volume) (prices : List Rat) :
    ∀ q ∈ distributeVolume volume prices, 0 ≤ q := by
  intro q hq
  rw [distributeVolume] at hq
  split_ifs at hq with hz
  · rw [List.eq_of_mem_replicate hq]
  · have hm : ∀ m ∈ List.zipWith (fun p q => |q - p|) prices prices.tail, 0 ≤ m := by
      intro m hm
      obtain ⟨i, hi, rfl⟩ := List.mem_iff_getElem.mp hm
      rw [List.getElem_zipWith]
      exact abs_nonneg _
    generalize List.zipWith (fun p q => |q - p|) prices prices.tail = moves at hm hq
    have hsum0 : 0 ≤ moves.sum := List.sum_nonneg hm
    have ht : 0 < if moves.sum = 0 then 1 else moves.sum := by
      split_ifs with h
      · exact zero_lt_one
      · exact lt_of_le_of_ne hsum0 (Ne.symm h)
    obtain ⟨hnonneg, hsum⟩ := cut_shares hv ht hm
    have hall : (volume : Rat) * moves.sum / (if moves.sum = 0 then 1 else moves.sum) ≤ volume := by
      split_ifs with h
      · rw [h, mul_zero, zero_div]
        exact Int.cast_nonneg hv
      · rw [mul_div_cancel_right₀ _ h]
    have hle := Int.cast_le.mp (hsum.trans hall)
    refine mem_addLast ?_ ?_ hq
    · rw [List.sum_cons, zero_add]
      exact sub_nonneg.mpr hle
    · intro q hq
      rcases List.mem_cons.mp hq with rfl | hq
      · exact le_refl _
      · exact hnonneg q hq

end Quantities

section Runs
variable {σ : Type} (rng : Rng σ)

def noiseOf (bar : Ohlcv) : Rat := (bar.high - bar.low) * (2 / 100)

/-- Kept within the bar. -/
def clampTo (bar : Ohlcv) (price : Rat) : Rat := min bar.high (max bar.low price)

def pathAt (bar : Ohlcv) (n hi lo i : Nat) : Rat := (interp (anchorsOf bar hi lo n) n).getD i 0

def drawnPrices (bar : Ohlcv) (n hi lo : Nat) (s : σ) : List Rat :=
  jitter rng bar.low bar.high (noiseOf bar) [0, hi, lo, n - 1] 0 (interp (anchorsOf bar hi lo n) n) s

def ticksOf (barTs : Timestamp) (bar : Ohlcv) (n hi lo : Nat) (s : σ) : List SimTick :=
  (List.range n).map fun (i : Nat) =>
    ⟨barTs.shift i, (pin bar hi lo n ((drawnPrices rng bar n hi lo s).map fun p => round p 2)).getD i 0,
      (distributeVolume bar.volume (drawnPrices rng bar n hi lo s)).getD i 0⟩

variable {rng} {bar : Ohlcv} {n hi lo : Nat} {s s' : σ}

theorem Admissible.places (h : Admissible n hi lo) : (1 ≤ hi ∧ hi < n - 1) ∧ 1 ≤ lo ∧ lo < n - 1 := by
  obtain ⟨hhi, hlo, -⟩ := h
  omega

theorem Admissible.ne (h : Admissible n hi lo) : hi ≠ lo := by
  have hpos : 1 ≤ ((hi : Int) - lo).natAbs := (le_max_left _ _).trans h.far
  omega

theorem synthesize_eq (hlh : bar.low ≤ bar.high) (h4 : 4 ≤ n) {seed : Int} {fuel : Nat} (barTs : Timestamp)
    (hhi : rng.randrange (rng.seeded seed) 1 (n - 1) = (hi, s))
    (hlo : redraw rng (minGap n) n hi fuel (rng.randrange s 1 (n - 1)) = some (lo, s')) :
    synthesize1mTicks rng fuel barTs bar seed n = some (.ok (ticksOf rng barTs bar n hi lo s')) := by
  rw [minGap] at hlo
  rw [synthesize1mTicks, if_neg (not_lt.mpr hlh), if_neg (by omega)]
  simp only [hhi, hlo, Option.map_some]
  rfl

theorem length_drawnPrices : (drawnPrices rng bar n hi lo s).length = n := by
  rw [drawnPrices, length_jitter, length_interp]

/-- A price that is not pinned is the path with a draw of the noise, kept within the bar. -/
theorem jitter_eq (low high noise : Rat) (pinned : List Nat) (i : Nat) (prices : List Rat) (s : σ) {j : Nat}
    (hj : i + j ∉ pinned) (hlt : j < prices.length) :
    ∃ s', (jitter rng low high noise pinned i prices s).getD j 0 =
      min high (max low (prices.getD j 0 + (rng.uniform s' (-noise) noise).1)) := by
  induction prices generalizing i s j with
  | nil => simp at hlt
  | cons q prices ih =>
    rw [jitter]
    cases j with
    | zero =>
      rw [if_neg (show i ∉ pinned from hj)]
      exact ⟨s, rfl⟩
    | succ j =>
      have hj' : i + 1 + j ∉ pinned := by rwa [Nat.add_right_comm]
      have hlt' : j < prices.length := Nat.lt_of_succ_lt_succ hlt
      split
      · exact ih (i + 1) s hj' hlt'
      · exact ih (i + 1) _ hj' hlt'

variable (rng bar s) in
theorem drawnPrices_eq {i : Nat} (hi' : i < n) (hfree : i ∉ [0, hi, lo, n - 1]) :
    ∃ s', (drawnPrices rng bar n hi lo s).getD i 0 =
      clampTo bar (pathAt bar n hi lo i + (rng.uniform s' (-noiseOf bar) (noiseOf bar)).1) := by
  apply jitter_eq
  · rwa [Nat.zero_add]
  · rwa [length_interp]

variable (rng bar s) in
/-- The price of each tick: the bar's at the anchors, a rounded one elsewhere. -/
theorem price_ticksOf (h : Admissible n hi lo) (barTs : Timestamp) {i : Nat} (hi' : i < n) :
    ((ticksOf rng barTs bar n hi lo s).map SimTick.price)[i]? =
      some (if i = n - 1 then bar.close else if i = lo then bar.low else if i = hi then bar.high
        else if i = 0 then bar.open_ else round ((drawnPrices rng bar n hi lo s).getD i 0) 2) := by
  have hlen : ((drawnPrices rng bar n hi lo s).map fun p => round p 2).length = n := by
    rw [List.length_map, length_drawnPrices]
  have hround : ((drawnPrices rng bar n hi lo s).map fun p => round p 2).getD i 0 =
      round ((drawnPrices rng bar n hi lo s).getD i 0) 2 := by
    have hlt : i < (drawnPrices rng bar n hi lo s).length := by rwa [length_drawnPrices]
    simp [List.getD_eq_getElem?_getD, List.getElem?_eq_getElem hlt]
  obtain ⟨hhi, hlo⟩ := h.places
  rw [ticksOf, List.map_map, List.getElem?_map, List.getElem?_range hi', Option.map_some, Function.comp_apply, ← hround,
    ← getD_pin hlen hhi.2 hlo.2]

private theorem mem_prices {ticks : List SimTick} {i : Nat} {p : Rat}
    (h : (ticks.map SimTick.price)[i]? = some p) : ∃ t ∈ ticks, t.price = p :=
  List.mem_map.mp (List.mem_of_getElem? h)

/-- Ticks keep of their bar all but the range, and the range as well if no rounded price leaves it. -/
theorem respects_ticksOf_iff (hb : BarShape bar) (h : Admissible n hi lo) (barTs : Timestamp) :
    Respects bar n (ticksOf rng barTs bar n hi lo s) ↔ ∀ i < n, i ∉ [0, hi, lo, n - 1] →
      bar.low ≤ round ((drawnPrices rng bar n hi lo s).getD i 0) 2 ∧
        round ((drawnPrices rng bar n hi lo s).getD i 0) 2 ≤ bar.high := by
  obtain ⟨hhi, hlo⟩ := h.places
  have hprice {i : Nat} (hi' : i < n) := price_ticksOf rng bar s h barTs hi'
  have hlen : (ticksOf rng barTs bar n hi lo s).length = n := by rw [ticksOf, List.length_map, List.length_range]
  constructor
  · intro hr i hi' hfree
    simp only [List.mem_cons, List.not_mem_nil, or_false, not_or] at hfree
    have hp := hprice hi'
    rw [if_neg hfree.2.2.2, if_neg hfree.2.2.1, if_neg hfree.2.1, if_neg hfree.1] at hp
    obtain ⟨t, ht, hpt⟩ := mem_prices hp
    rw [← hpt]
    exact hr.within t ht
  · intro hin
    have hlh := hb.low_le_high
    have hne : drawnPrices rng bar n hi lo s ≠ [] := by
      apply List.ne_nil_of_length_pos
      rw [length_drawnPrices]
      omega
    obtain ⟨hq, hsum⟩ := distributeVolume_spec hb.volume hne
    rw [length_drawnPrices] at hq
    have hquantities : (ticksOf rng barTs bar n hi lo s).map SimTick.quantity =
        distributeVolume bar.volume (drawnPrices rng bar n hi lo s) := by
      apply List.ext_getElem (by rw [List.length_map, hlen, hq])
      intro i h1 h2
      simp [ticksOf, h2]
    refine ⟨hlen, ?_, ?_, ?_, ?_, ?_, ?_, ?_⟩
    · have hp := hprice (show 0 < n by omega)
      rw [if_neg (by omega), if_neg (by omega), if_neg (by omega), if_pos rfl] at hp
      rw [← List.head?_map, List.head?_eq_getElem?, hp]
    · have hp := hprice (show n - 1 < n by omega)
      rw [if_pos rfl] at hp
      rw [← List.getLast?_map, List.getLast?_eq_getElem?, List.length_map, hlen, hp]
    · intro t ht
      obtain ⟨i, hlt, ht'⟩ := List.mem_iff_getElem.mp ht
      have hi' : i < n := hlt.trans_eq hlen
      have hp := hprice hi'
      rw [List.getElem?_map, List.getElem?_eq_getElem hlt, ht', Option.map_some, Option.some.injEq] at hp
      rw [hp]
      split_ifs with h1 h2 h3 h4
      · exact ⟨hb.low_le_close, hb.close_le_high⟩
      · exact ⟨le_refl _, hlh⟩
      · exact ⟨hlh, le_refl _⟩
      · exact ⟨hb.low_le_open, hb.open_le_high⟩
      · exact hin i hi' (by simp [h1, h2, h3, h4])
    · have hp := hprice (show hi < n by omega)
      rw [if_neg (by omega), if_neg h.ne, if_pos rfl] at hp
      exact mem_prices hp
    · have hp := hprice (show lo < n by omega)
      rw [if_neg (by omega), if_pos rfl] at hp
      exact mem_prices hp
    · intro t ht
      have hmem : t.quantity ∈ distributeVolume bar.volume (drawnPrices rng bar n hi lo s) := by
        rw [← hquantities]
        exact List.mem_map_of_mem ht
      exact distributeVolume_nonneg hb.volume _ _ hmem
    · rw [hquantities, hsum]

end Runs

section Draws

/-- What `random.uniform` promises. -/
def UniformWithin {σ : Type} (rng : Rng σ) : Prop :=
  ∀ s {a b : Rat}, a ≤ b → a ≤ (rng.uniform s a b).1 ∧ (rng.uniform s a b).1 ≤ b

def scriptedPlace (hi lo k : Nat) : Nat := if k = 0 then hi - 1 else if k = 1 then lo - 1 else k

/-- After the first two draws every value of a range comes up. -/
private theorem scripted_hits (hi lo k : Nat) {a b v : Nat} (hav : a ≤ v) (hvb : v < b) :
    ∃ j, a + scriptedPlace hi lo ((fun k => k + 1)^[j] k) % (b - a) = v := by
  have hwide : k + 2 ≤ (b - a) * (k + 2) := Nat.le_mul_of_pos_left _ (by omega)
  have hsum : k + (v - a + (b - a) * (k + 2) - k) = v - a + (b - a) * (k + 2) := by omega
  have hiter (j : Nat) : (fun k => k + 1)^[j] k = k + j := by
    induction j with
    | zero => rfl
    | succ j ih => rw [Function.iterate_succ_apply', ih, Nat.add_assoc]
  refine ⟨v - a + (b - a) * (k + 2) - k, ?_⟩
  rw [hiter, hsum, scriptedPlace, if_neg (by omega), if_neg (by omega), Nat.add_mul_mod_self_left,
    Nat.mod_eq_of_lt (by omega)]
  omega

def scripted (hi lo : Nat) (top : Bool) : Rng Nat where
  seeded _ := 0
  randrange k a b := (a + scriptedPlace hi lo k % (b - a), k + 1)
  uniform k a b := (if top then b else a, k)
  randrange_mem k a b h := by
    have := Nat.mod_lt (scriptedPlace hi lo k) (Nat.sub_pos_of_lt h)
    exact ⟨Nat.le_add_right _ _, by omega⟩
  randrange_hits k _ _ _ hav hvb := scripted_hits hi lo k hav hvb

theorem uniformWithin_scripted (hi lo : Nat) (top : Bool) : UniformWithin (scripted hi lo top) := by
  intro k a b h
  cases top with
  | true => exact ⟨h, le_refl b⟩
  | false => exact ⟨le_refl a, h⟩

/-- A script draws its two places as the anchors. -/
theorem synthesize_scripted {bar : Ohlcv} {n hi lo : Nat} (hlh : bar.low ≤ bar.high) (h4 : 4 ≤ n)
    (h : Admissible n hi lo) (top : Bool) (fuel : Nat) (barTs : Timestamp) (seed : Int) :
    synthesize1mTicks (scripted hi lo top) (fuel + 1) barTs bar seed n =
      some (.ok (ticksOf (scripted hi lo top) barTs bar n hi lo 2)) := by
  obtain ⟨hhi, hlo⟩ := h.places
  have hfirst : (scripted hi lo top).randrange ((scripted hi lo top).seeded seed) 1 (n - 1) = (hi, 1) := by
    apply Prod.ext
    · have hmod : (hi - 1) % (n - 1 - 1) = hi - 1 := Nat.mod_eq_of_lt (by omega)
      have hplace : 1 + (hi - 1) % (n - 1 - 1) = hi := by omega
      exact hplace
    · rfl
  have hsecond : (scripted hi lo top).randrange 1 1 (n - 1) = (lo, 2) := by
    apply Prod.ext
    · have hmod : (lo - 1) % (n - 1 - 1) = lo - 1 := Nat.mod_eq_of_lt (by omega)
      have hplace : 1 + (lo - 1) % (n - 1 - 1) = lo := by omega
      exact hplace
    · rfl
  apply synthesize_eq hlh h4 barTs hfirst
  rw [hsecond, redraw, if_neg (not_lt.mpr h.far)]

/-- A script has the noise at its end at every price that is not pinned. -/
theorem drawnPrices_scripted (bar : Ohlcv) {n hi lo i : Nat} (top : Bool) (s : Nat) (hi' : i < n)
    (hfree : i ∉ [0, hi, lo, n - 1]) : (drawnPrices (scripted hi lo top) bar n hi lo s).getD i 0 =
      clampTo bar (pathAt bar n hi lo i + if top then noiseOf bar else -noiseOf bar) := by
  obtain ⟨s', h⟩ := drawnPrices_eq (scripted hi lo top) bar s hi' hfree
  exact h

end Draws

/-- Wherever the anchors are placed, no price between them is rounded out of the bar, with the noise at either end. -/
def RoundsInside (bar : Ohlcv) (n : Nat) : Prop :=
  ∀ hi lo, Admissible n hi lo → ∀ i < n, i ∉ [0, hi, lo, n - 1] →
    bar.low ≤ round (clampTo bar (pathAt bar n hi lo i - noiseOf bar)) 2 ∧
      round (clampTo bar (pathAt bar n hi lo i + noiseOf bar)) 2 ≤ bar.high

/-- Whatever the seed and the draws are, the ticks come in the end and respect the bar. -/
def AlwaysRespects (bar : Ohlcv) (n : Nat) : Prop :=
  ∀ (σ : Type) (rng : Rng σ), UniformWithin rng → ∀ (seed : Int) (barTs : Timestamp), ∃ N, ∀ fuel ≥ N, ∃ ticks,
    synthesize1mTicks rng fuel barTs bar seed n = some (.ok ticks) ∧ Respects bar n ticks

theorem clampTo_mono (bar : Ohlcv) {p q : Rat} (h : p ≤ q) : clampTo bar p ≤ clampTo bar q :=
  min_le_min_left _ (max_le_max_left _ h)

theorem noiseOf_nonneg {bar : Ohlcv} (h : bar.low ≤ bar.high) : 0 ≤ noiseOf bar :=
  mul_nonneg (sub_nonneg.mpr h) (by decide +kernel)

/-- The scripts reach the ends of what the prices can be. -/
private theorem roundsInside_of_respects {bar : Ohlcv} (hb : BarShape bar) {seconds : Nat} (h4 : 4 ≤ seconds)
    (hall : AlwaysRespects bar seconds) : RoundsInside bar seconds := by
  intro hi lo h i hi' hfree
  have hrun (top : Bool) : bar.low ≤ round ((drawnPrices (scripted hi lo top) bar seconds hi lo 2).getD i 0) 2 ∧
      round ((drawnPrices (scripted hi lo top) bar seconds hi lo 2).getD i 0) 2 ≤ bar.high := by
    obtain ⟨N, hN⟩ := hall Nat (scripted hi lo top) (uniformWithin_scripted hi lo top) 0 (Timestamp.aware 0)
    obtain ⟨ticks, hticks, hr⟩ := hN (N + 1) (Nat.le_succ N)
    rw [synthesize_scripted hb.low_le_high h4 h] at hticks
    rw [← Except.ok.inj (Option.some.inj hticks)] at hr
    exact (respects_ticksOf_iff hb h _).mp hr i hi' hfree
  have hbottom := (hrun false).1
  have htop := (hrun true).2
  rw [drawnPrices_scripted bar _ _ hi' hfree] at hbottom htop
  rw [sub_eq_add_neg]
  exact ⟨hbottom, htop⟩

/-- What the prices can be lies between its ends. -/
private theorem respects_of_roundsInside {bar : Ohlcv} (hb : BarShape bar) {seconds : Nat} (h4 : 4 ≤ seconds)
    (hround : RoundsInside bar seconds) : AlwaysRespects bar seconds := by
  intro σ rng hu seed barTs
  have hnoise : -noiseOf bar ≤ noiseOf bar := neg_le_self (noiseOf_nonneg hb.low_le_high)
  obtain ⟨hi, s, hhi⟩ : ∃ hi s, rng.randrange (rng.seeded seed) 1 (seconds - 1) = (hi, s) := ⟨_, _, rfl⟩
  have hmem : 1 ≤ hi ∧ hi < seconds - 1 := by
    have h := rng.randrange_mem (rng.seeded seed) (show 1 < seconds - 1 by omega)
    rwa [hhi] at h
  obtain ⟨v, hv⟩ := exists_admissible h4 (show 1 ≤ hi ∧ hi ≤ seconds - 2 by omega)
  obtain ⟨N, hN⟩ := redraw_finds rng hv.places.2.1 hv.places.2.2 (not_lt.mpr hv.far) s
  refine ⟨N, fun fuel hf => ?_⟩
  obtain ⟨lo, s', hre, hlo1, hlon, hgap⟩ := hN fuel hf
  have h : Admissible seconds hi lo := ⟨by omega, by omega, not_lt.mp hgap⟩
  refine ⟨_, synthesize_eq hb.low_le_high h4 barTs hhi hre, (respects_ticksOf_iff hb h barTs).mpr ?_⟩
  intro i hi' hfree
  obtain ⟨s'', heq⟩ := drawnPrices_eq rng bar s' hi' hfree
  obtain ⟨hlow, hhigh⟩ := hround hi lo h i hi' hfree
  obtain ⟨hu1, hu2⟩ := hu s'' hnoise
  have hbottom := clampTo_mono bar (add_le_add (le_refl (pathAt bar seconds hi lo i)) hu1)
  have htop := clampTo_mono bar (add_le_add (le_refl (pathAt bar seconds hi lo i)) hu2)
  rw [sub_eq_add_neg] at hlow
  rw [heq]
  exact ⟨hlow.trans (round_mono hbottom 2), (round_mono htop 2).trans hhigh⟩

/-- The ticks of a valid bar respect it for every seed and all draws exactly if no price is rounded out of the bar. -/
theorem synthesize_respects_iff {bar : Ohlcv} (hb : BarShape bar) {seconds : Nat} (h4 : 4 ≤ seconds) :
    AlwaysRespects bar seconds ↔ RoundsInside bar seconds :=
  ⟨roundsInside_of_respects hb h4, respects_of_roundsInside hb h4⟩

/-- Bars whose low and high have two decimals always do. -/
theorem roundsInside_of_grid {bar : Ohlcv} (hlh : bar.low ≤ bar.high) (hl : bar.low ∈ grid 2) (hh : bar.high ∈ grid 2)
    (n : Nat) : RoundsInside bar n := by
  intro hi lo _ i _ _
  constructor
  · calc
      bar.low = round bar.low 2 := (round_of_mem hl).symm
      _ ≤ _ := round_mono (le_min hlh (le_max_left _ _)) 2
  · calc
      _ ≤ round bar.high 2 := round_mono (min_le_left _ _) 2
      _ = bar.high := round_of_mem hh

def narrowBar : Ohlcv := ⟨100005 / 1000, 100006 / 1000, 100004 / 1000, 100005 / 1000, 10⟩

theorem narrowBar_shape : BarShape narrowBar := by
  constructor <;> decide +kernel

theorem narrowBar_iff : AlwaysRespects narrowBar 5 ↔ RoundsInside narrowBar 5 :=
  synthesize_respects_iff narrowBar_shape (by decide)

/-- Its fourth price is rounded to 100.00, below its low of 100.004. -/
theorem rounded_out : ¬ ∀ (bar : Ohlcv) (seconds : Nat), BarShape bar → 4 ≤ seconds → AlwaysRespects bar seconds := by
  intro hall
  have h : Admissible 5 1 2 := ⟨by decide, by decide, by decide⟩
  obtain ⟨N, hN⟩ := hall narrowBar 5 narrowBar_shape (by decide) Nat (scripted 1 2 false)
    (uniformWithin_scripted 1 2 false) 0 (Timestamp.aware 0)
  obtain ⟨ticks, hticks, hr⟩ := hN (N + 1) (Nat.le_succ N)
  rw [synthesize_scripted narrowBar_shape.low_le_high (by decide) h] at hticks
  rw [← Except.ok.inj (Option.some.inj hticks)] at hr
  have hin := (respects_ticksOf_iff narrowBar_shape h _).mp hr 3 (by decide) (by decide)
  revert hin
  decide +kernel

end NTrade.Sim
