import NTrade.Ui.MergeLive
import Mathlib.Algebra.Order.BigOperators.Group.List
import Mathlib.Algebra.Order.Field.Basic

/-! The bars that a replay shows at a tick cursor. The last one is built from the ticks revealed so far, where there
are ticks for it, and is the real bar once it is revealed in full. -/
namespace NTrade.Ui.ReplayVisible
open NTrade.Lib NTrade.Ui.MergeLive

structure TickBar where
  time : Rat
  prices : List Rat
  quantities : List Nat
  sameLength : quantities.length = prices.length

abbrev TickBarMap := Dict Rat TickBar

/-- `Math.max(1, stepsPerBar)`. -/
def stepsOf (stepsPerBar : Int) : Int := max 1 stepsPerBar

/-- The bar in progress, `Math.min(Math.floor((cursor - 1) / steps), candles.length - 1)`. -/
def barIndexOf (candles : List Candle) (cursor stepsPerBar : Int) : Int :=
  min ((cursor - 1) / stepsOf stepsPerBar) (candles.length - 1)

/-- The ticks revealed in it, `cursor - barIndex * steps`. -/
def revealedOf (candles : List Candle) (cursor stepsPerBar : Int) : Int :=
  cursor - barIndexOf candles cursor stepsPerBar * stepsOf stepsPerBar

structure InProgressBar where
  bar : Candle
  tickPrice : Option Rat
  revealed : Int
  steps : Int
  deriving DecidableEq, Repr

def inProgressBar (candles : List Candle) (cursor stepsPerBar : Int) (ticksByBar : TickBarMap) : Option InProgressBar :=
  if cursor ≤ 0 ∨ candles = [] then none
  else
    let revealed := revealedOf candles cursor stepsPerBar
    candles[(barIndexOf candles cursor stepsPerBar).toNat]?.map fun bar =>
      { bar := bar
        tickPrice := (ticksByBar.get bar.time).bind fun barTicks =>
          if 0 < barTicks.prices.length then
            barTicks.prices[(min (revealed - 1) (barTicks.prices.length - 1)).toNat]?
          else none
        revealed := revealed
        steps := stepsOf stepsPerBar }

def touch (acc : Candle) (tick : Rat × Nat) : Candle :=
  { acc with
    high := if acc.high < tick.1 then tick.1 else acc.high
    low := if tick.1 < acc.low then tick.1 else acc.low
    volume := acc.volume + tick.2 }

def touched (bar : Candle) (ticks : List (Rat × Nat)) : Candle :=
  ticks.foldl touch { bar with high := bar.open_, low := bar.open_, volume := 0 }

def visibleBars (candles : List Candle) (cursor stepsPerBar : Int) (ticksByBar : TickBarMap) : List Candle :=
  if cursor ≤ 0 ∨ candles = [] then []
  else
    let barIndex := barIndexOf candles cursor stepsPerBar
    let revealed := revealedOf candles cursor stepsPerBar
    let base := candles.take (barIndex + 1).toNat
    if stepsOf stepsPerBar ≤ revealed then base
    else
      match candles[barIndex.toNat]? with
      | none => base
      | some bar =>
        match ticksByBar.get bar.time with
        | none => base
        | some barTicks =>
          match barTicks.prices[(revealed - 1).toNat]? with
          | none => base
          | some price =>
            base.set (base.length - 1)
              { touched bar ((barTicks.prices.zip barTicks.quantities).take revealed.toNat) with close := price }

/-- A candle has its range and its volume within those of another. -/
def Inside (a b : Candle) : Prop := b.low ≤ a.low ∧ a.high ≤ b.high ∧ a.volume ≤ b.volume

theorem Inside.refl (a : Candle) : Inside a a := ⟨le_refl _, le_refl _, le_refl _⟩

theorem Inside.trans {a b c : Candle} (h : Inside a b) (h' : Inside b c) : Inside a c :=
  ⟨h'.1.trans h.1, h.2.1.trans h'.2.1, h.2.2.trans h'.2.2⟩

section Ticks
variable {bar acc : Candle} {ticks : List (Rat × Nat)}

theorem inside_touch (acc : Candle) (tick : Rat × Nat) : Inside acc (touch acc tick) := by
  simp only [Inside, touch]
  refine ⟨?_, ?_, le_add_of_nonneg_right (Nat.cast_nonneg _)⟩
  · split_ifs with h
    · exact h.le
    · exact le_refl _
  · split_ifs with h
    · exact h.le
    · exact le_refl _

/-- More ticks only widen the range and add to the volume. -/
theorem inside_foldl_touch (acc : Candle) (ticks : List (Rat × Nat)) : Inside acc (ticks.foldl touch acc) := by
  induction ticks generalizing acc with
  | nil => exact Inside.refl acc
  | cons tick ticks ih => exact (inside_touch acc tick).trans (ih _)

theorem inside_touched_take (bar : Candle) (ticks : List (Rat × Nat)) {k k' : Nat} (h : k ≤ k') :
    Inside (touched bar (ticks.take k)) (touched bar (ticks.take k')) := by
  obtain ⟨rest, hrest⟩ := List.take_prefix_take_left h
  rw [← hrest, touched, touched, List.foldl_append]
  exact inside_foldl_touch _ rest

/-- Ticks within the range of a bar leave it. -/
theorem range_foldl_touch {low high : Rat} (ha : low ≤ acc.low ∧ acc.high ≤ high)
    (ht : ∀ tick ∈ ticks, low ≤ tick.1 ∧ tick.1 ≤ high) :
    low ≤ (ticks.foldl touch acc).low ∧ (ticks.foldl touch acc).high ≤ high := by
  induction ticks generalizing acc with
  | nil => exact ha
  | cons tick ticks ih =>
    have htick := ht tick List.mem_cons_self
    apply ih _ fun t hm => ht t (List.mem_cons_of_mem _ hm)
    simp only [touch]
    constructor
    · split_ifs
      · exact htick.1
      · exact ha.1
    · split_ifs
      · exact htick.2
      · exact ha.2

theorem volume_foldl_touch (acc : Candle) (ticks : List (Rat × Nat)) :
    (ticks.foldl touch acc).volume = acc.volume + ((ticks.map Prod.snd).sum : Nat) := by
  induction ticks generalizing acc with
  | nil => simp
  | cons tick ticks ih =>
    rw [List.foldl_cons, ih, List.map_cons, List.sum_cons, Nat.cast_add, ← add_assoc]
    rfl

end Ticks

/-- The ticks of a bar, if it has any, go from its open to its close within its range, and trade no more than its
volume. -/
structure Faithful (bar : Candle) (barTicks : TickBar) : Prop where
  first : ∀ p ∈ barTicks.prices.head?, p = bar.open_
  last : ∀ p ∈ barTicks.prices.getLast?, p = bar.close
  within : ∀ p ∈ barTicks.prices, bar.low ≤ p ∧ p ≤ bar.high
  volume : (barTicks.quantities.sum : Nat) ≤ bar.volume

/-- The first ticks of a bar stay within it. -/
theorem Faithful.inside {bar : Candle} {barTicks : TickBar} (h : Faithful bar barTicks) (hne : barTicks.prices ≠ [])
    (k : Nat) : Inside (touched bar ((barTicks.prices.zip barTicks.quantities).take k)) bar := by
  have hopen : bar.low ≤ bar.open_ ∧ bar.open_ ≤ bar.high := by
    rw [← h.first (barTicks.prices.head hne) (List.head?_eq_some_head hne)]
    exact h.within _ (List.head_mem hne)
  have hrange : bar.low ≤ (touched bar ((barTicks.prices.zip barTicks.quantities).take k)).low ∧
      (touched bar ((barTicks.prices.zip barTicks.quantities).take k)).high ≤ bar.high :=
    range_foldl_touch hopen fun tick ht => h.within _ (List.of_mem_zip (List.mem_of_mem_take ht)).1
  refine ⟨hrange.1, hrange.2, ?_⟩
  rw [touched, volume_foldl_touch, zero_add, List.map_take, List.map_snd_zip barTicks.sameLength.le]
  refine le_trans (Nat.cast_le.mpr ?_) h.volume
  exact (List.take_sublist k _).sum_le_sum fun _ _ => Nat.zero_le _

section Shown

def shownBar (bar : Candle) (revealed steps : Int) (barTicks : Option TickBar) : Candle :=
  if steps ≤ revealed then bar
  else
    match barTicks with
    | none => bar
    | some barTicks =>
      match barTicks.prices[(revealed - 1).toNat]? with
      | none => bar
      | some price => { touched bar ((barTicks.prices.zip barTicks.quantities).take revealed.toNat) with close := price }

variable {bar : Candle} {revealed revealed' steps : Int} {barTicks : Option TickBar} {t : TickBar}

theorem shownBar_full (hs : steps ≤ revealed) : shownBar bar revealed steps barTicks = bar := if_pos hs

/-- Without a tick at the cursor there is the real bar. -/
theorem shownBar_real (hp : t.prices[(revealed - 1).toNat]? = none) : shownBar bar revealed steps (some t) = bar := by
  simp only [shownBar, hp, ite_self]

theorem shownBar_told {price : Rat} (hs : ¬ steps ≤ revealed) (hp : t.prices[(revealed - 1).toNat]? = some price) :
    shownBar bar revealed steps (some t) =
      { touched bar ((t.prices.zip t.quantities).take revealed.toNat) with close := price } := by
  simp only [shownBar, if_neg hs, hp]

theorem inside_shownBar (h : ∀ t ∈ barTicks, Faithful bar t) : Inside (shownBar bar revealed steps barTicks) bar := by
  by_cases hs : steps ≤ revealed
  · rw [shownBar_full hs]
    exact Inside.refl bar
  · cases barTicks with
    | none =>
      rw [shownBar, if_neg hs]
      exact Inside.refl bar
    | some t =>
      cases hp : t.prices[(revealed - 1).toNat]? with
      | none =>
        rw [shownBar_real hp]
        exact Inside.refl bar
      | some price =>
        have hne : t.prices ≠ [] := List.ne_nil_of_mem (List.mem_of_getElem? hp)
        rw [shownBar_told hs hp]
        exact (h t rfl).inside hne _

/-- The bar that is shown grows with the ticks that are revealed. -/
theorem shownBar_grows (h : ∀ t ∈ barTicks, Faithful bar t) (hle : revealed ≤ revealed') :
    Inside (shownBar bar revealed steps barTicks) (shownBar bar revealed' steps barTicks) := by
  by_cases hs' : steps ≤ revealed'
  · rw [shownBar_full hs']
    exact inside_shownBar h
  · have hs : ¬ steps ≤ revealed := fun hs => hs' (hs.trans hle)
    cases barTicks with
    | none =>
      rw [shownBar, shownBar, if_neg hs, if_neg hs']
      exact Inside.refl bar
    | some t =>
      cases hp' : t.prices[(revealed' - 1).toNat]? with
      | none =>
        rw [shownBar_real hp']
        exact inside_shownBar h
      | some price' =>
        have hlt := (List.getElem?_eq_some_iff.mp hp').1
        have hk : (revealed - 1).toNat < t.prices.length := by omega
        rw [shownBar_told hs (List.getElem?_eq_getElem hk), shownBar_told hs' hp']
        exact inside_touched_take bar _ (Int.toNat_le_toNat hle)

theorem time_foldl_touch (acc : Candle) (ticks : List (Rat × Nat)) : (ticks.foldl touch acc).time = acc.time := by
  induction ticks generalizing acc with
  | nil => rfl
  | cons tick ticks ih => exact ih _

theorem time_shownBar (bar : Candle) (revealed steps : Int) (barTicks : Option TickBar) :
    (shownBar bar revealed steps barTicks).time = bar.time := by
  by_cases hs : steps ≤ revealed
  · rw [shownBar_full hs]
  · cases barTicks with
    | none => rw [shownBar, if_neg hs]
    | some t =>
      cases hp : t.prices[(revealed - 1).toNat]? with
      | none => rw [shownBar_real hp]
      | some price =>
        rw [shownBar_told hs hp]
        exact time_foldl_touch _ _

/-- The last tick price that a bar is told with is the close of the bar that is shown, unless the bar is revealed in
full and goes on with ticks of other prices. -/
theorem tickPrice_shownBar_iff (h : Faithful bar t) (h1 : 1 ≤ revealed) :
    (∀ price ∈ t.prices[(min (revealed - 1) (t.prices.length - 1)).toNat]?,
        price = (shownBar bar revealed steps (some t)).close) ↔
      (steps ≤ revealed → ∀ price ∈ t.prices[(revealed - 1).toNat]?, price = bar.close) := by
  rcases lt_or_ge (revealed - 1).toNat t.prices.length with hk | hk
  · have hmin : min (revealed - 1) (t.prices.length - 1 : Int) = revealed - 1 := by omega
    rw [hmin]
    by_cases hs : steps ≤ revealed
    · simp only [shownBar_full hs, hs, true_imp_iff]
    · have hp := List.getElem?_eq_getElem hk
      rw [shownBar_told hs hp, hp]
      simp [hs]
  · have hlast : t.prices[(min (revealed - 1) (t.prices.length - 1 : Int)).toNat]? = t.prices.getLast? := by
      rw [List.getLast?_eq_getElem?]
      congr 1
      omega
    have hp := List.getElem?_eq_none hk
    rw [hlast, shownBar_real hp, hp]
    simpa using h.last

end Shown

section Cursor
variable {candles : List Candle} {cursor stepsPerBar : Int}

theorem barIndexOf_mem (stepsPerBar : Int) (h : 0 < cursor) (hne : candles ≠ []) :
    0 ≤ barIndexOf candles cursor stepsPerBar ∧ (barIndexOf candles cursor stepsPerBar).toNat < candles.length := by
  have hlen : 0 < candles.length := List.length_pos_iff.mpr hne
  have hdiv : 0 ≤ (cursor - 1) / stepsOf stepsPerBar := by
    apply Int.ediv_nonneg (by omega)
    exact zero_le_one.trans (le_max_left _ _)
  rw [barIndexOf]
  omega

theorem one_le_revealedOf : 1 ≤ revealedOf candles cursor stepsPerBar := by
  have hpos : 0 < stepsOf stepsPerBar := zero_lt_one.trans_le (le_max_left _ _)
  have hmul := Int.ediv_mul_le (cursor - 1) hpos.ne'
  have hle : barIndexOf candles cursor stepsPerBar * stepsOf stepsPerBar ≤
      (cursor - 1) / stepsOf stepsPerBar * stepsOf stepsPerBar :=
    mul_le_mul_of_nonneg_right (min_le_left _ _) hpos.le
  rw [revealedOf]
  omega

/-- The bars shown are the first ones, and the last of them as far as it is revealed. -/
theorem visibleBars_eq (h : 0 < cursor) (ticksByBar : TickBarMap) {bar : Candle}
    (hb : candles[(barIndexOf candles cursor stepsPerBar).toNat]? = some bar) :
    visibleBars candles cursor stepsPerBar ticksByBar =
      candles.take (barIndexOf candles cursor stepsPerBar).toNat ++
        [shownBar bar (revealedOf candles cursor stepsPerBar) (stepsOf stepsPerBar) (ticksByBar.get bar.time)] := by
  have hne : candles ≠ [] := List.ne_nil_of_mem (List.mem_of_getElem? hb)
  obtain ⟨h0, hlt⟩ := barIndexOf_mem stepsPerBar h hne
  have hbase : candles.take (barIndexOf candles cursor stepsPerBar + 1).toNat =
      candles.take (barIndexOf candles cursor stepsPerBar).toNat ++ [bar] := by
    rw [Int.toNat_add h0 zero_le_one, Int.toNat_one, List.take_add_one, hb]
    rfl
  have hset (c : Candle) : (candles.take (barIndexOf candles cursor stepsPerBar).toNat ++ [bar]).set
      ((candles.take (barIndexOf candles cursor stepsPerBar).toNat ++ [bar]).length - 1) c =
      candles.take (barIndexOf candles cursor stepsPerBar).toNat ++ [c] := by
    simp
  rw [visibleBars, if_neg (by simp [h, hne])]
  simp only [hbase, hb, hset, shownBar]
  split_ifs
  · rfl
  · cases ticksByBar.get bar.time with
    | none => rfl
    | some t =>
      simp only
      cases t.prices[(revealedOf candles cursor stepsPerBar - 1).toNat]? <;> rfl

/-- The bar at the cursor, if there is one. -/
theorem exists_bar (stepsPerBar : Int) (h : 0 < cursor) (hne : candles ≠ []) :
    ∃ bar ∈ candles, candles[(barIndexOf candles cursor stepsPerBar).toNat]? = some bar := by
  have hlt := (barIndexOf_mem stepsPerBar h hne).2
  exact ⟨_, List.getElem_mem hlt, List.getElem?_eq_getElem hlt⟩

end Cursor

/-- What a replay at a cursor shows of the real bars. -/
structure Converges (candles : List Candle) (cursor stepsPerBar : Int) (ticksByBar : TickBarMap) : Prop where
  unchanged : (visibleBars candles cursor stepsPerBar ticksByBar).length ≤ candles.length ∧
    (visibleBars candles cursor stepsPerBar ticksByBar).dropLast =
      candles.take ((visibleBars candles cursor stepsPerBar ticksByBar).length - 1)
  inside : ∀ last ∈ (visibleBars candles cursor stepsPerBar ticksByBar).getLast?,
    ∀ bar ∈ candles[(visibleBars candles cursor stepsPerBar ticksByBar).length - 1]?,
      last.time = bar.time ∧ Inside last bar
  grows : ∀ later, cursor ≤ later →
    (visibleBars candles later stepsPerBar ticksByBar).length =
      (visibleBars candles cursor stepsPerBar ticksByBar).length →
    ∀ last ∈ (visibleBars candles cursor stepsPerBar ticksByBar).getLast?,
      ∀ last' ∈ (visibleBars candles later stepsPerBar ticksByBar).getLast?, Inside last last'
  tick : ∀ p ∈ inProgressBar candles cursor stepsPerBar ticksByBar, ∀ price ∈ p.tickPrice,
    ∃ last ∈ (visibleBars candles cursor stepsPerBar ticksByBar).getLast?, price = last.close

/-- A bar that is revealed in full has its close at the tick of the cursor, or no tick there. -/
def ClosesAtCursor (candles : List Candle) (cursor stepsPerBar : Int) (ticksByBar : TickBarMap) : Prop :=
  0 < cursor → ∀ bar ∈ candles[(barIndexOf candles cursor stepsPerBar).toNat]?,
    ∀ barTicks ∈ ticksByBar.get bar.time, stepsOf stepsPerBar ≤ revealedOf candles cursor stepsPerBar →
      ∀ price ∈ barTicks.prices[(revealedOf candles cursor stepsPerBar - 1).toNat]?, price = bar.close

section Main
variable {candles : List Candle} {cursor stepsPerBar : Int} {ticksByBar : TickBarMap}

private theorem inProgressBar_eq (ticksByBar : TickBarMap) (h : 0 < cursor) {bar : Candle}
    (hb : candles[(barIndexOf candles cursor stepsPerBar).toNat]? = some bar) :
    ∃ p, inProgressBar candles cursor stepsPerBar ticksByBar = some p ∧
      p.tickPrice = (ticksByBar.get bar.time).bind fun barTicks =>
        barTicks.prices[(min (revealedOf candles cursor stepsPerBar - 1) (barTicks.prices.length - 1)).toNat]? := by
  have hne : candles ≠ [] := List.ne_nil_of_mem (List.mem_of_getElem? hb)
  rw [inProgressBar, if_neg (by simp [h, hne])]
  refine ⟨_, by rw [hb]; rfl, ?_⟩
  simp only
  cases ticksByBar.get bar.time with
  | none => rfl
  | some t =>
    simp only [Option.bind_some]
    split_ifs with hlen
    · rfl
    · rw [List.getElem?_eq_none (by omega)]

/-- Without a cursor or bars nothing is shown. -/
private theorem converges_of_nothing (hc : cursor ≤ 0 ∨ candles = []) :
    Converges candles cursor stepsPerBar ticksByBar := by
  have hv : visibleBars candles cursor stepsPerBar ticksByBar = [] := if_pos hc
  have hp : inProgressBar candles cursor stepsPerBar ticksByBar = none := if_pos hc
  constructor
  · simp [hv]
  · simp [hv]
  · simp [hv]
  · simp [hp]

/-- Later in the same bar the same bar is shown, with more of it revealed. -/
private theorem same_bar {later : Int} (h : 0 < cursor) (hl : cursor ≤ later) (hne : candles ≠ [])
    (hlen : (visibleBars candles later stepsPerBar ticksByBar).length =
      (visibleBars candles cursor stepsPerBar ticksByBar).length) :
    barIndexOf candles later stepsPerBar = barIndexOf candles cursor stepsPerBar ∧
      revealedOf candles cursor stepsPerBar ≤ revealedOf candles later stepsPerBar := by
  obtain ⟨bar, -, hb⟩ := exists_bar stepsPerBar h hne
  obtain ⟨bar', -, hb'⟩ := exists_bar stepsPerBar (h.trans_le hl) hne
  have hmem := barIndexOf_mem stepsPerBar h hne
  have hmem' := barIndexOf_mem stepsPerBar (h.trans_le hl) hne
  rw [visibleBars_eq h ticksByBar hb, visibleBars_eq (h.trans_le hl) ticksByBar hb', List.length_append,
    List.length_append, List.length_take_of_le hmem.2.le, List.length_take_of_le hmem'.2.le] at hlen
  have hidx : barIndexOf candles later stepsPerBar = barIndexOf candles cursor stepsPerBar := by
    simp only [List.length_singleton] at hlen
    omega
  rw [revealedOf, revealedOf, hidx]
  exact ⟨rfl, by omega⟩

/-- With bars told by their ticks, a replay shows bars that converge to the real ones and ends each on the price of
the tick at the cursor, exactly if no bar that is revealed in full has a tick of another price there. -/
theorem visibleBars_converges_iff
    (hticks : ∀ bar ∈ candles, ∀ barTicks ∈ ticksByBar.get bar.time, Faithful bar barTicks) :
    Converges candles cursor stepsPerBar ticksByBar ↔ ClosesAtCursor candles cursor stepsPerBar ticksByBar := by
  by_cases hc : cursor ≤ 0 ∨ candles = []
  · refine iff_of_true (converges_of_nothing hc) fun h bar hb => ?_
    rcases hc with hc | rfl
    · exact absurd h hc.not_gt
    · cases hb
  · obtain ⟨h, hne⟩ := not_or.mp hc
    replace h := not_le.mp h
    obtain ⟨bar, hmem, hb⟩ := exists_bar stepsPerBar h hne
    obtain ⟨p, hp, hprice⟩ := inProgressBar_eq ticksByBar h hb
    have hlt := (barIndexOf_mem stepsPerBar h hne).2
    have hv := visibleBars_eq h ticksByBar hb
    have htick : (∀ p ∈ inProgressBar candles cursor stepsPerBar ticksByBar, ∀ price ∈ p.tickPrice,
        ∃ last ∈ (visibleBars candles cursor stepsPerBar ticksByBar).getLast?, price = last.close) ↔
        ClosesAtCursor candles cursor stepsPerBar ticksByBar := by
      simp only [ClosesAtCursor, h, true_imp_iff, hb, hp, hv, List.getLast?_concat, Option.mem_some_iff,
        exists_eq_left', forall_eq', hprice]
      cases hg : ticksByBar.get bar.time with
      | none => simp
      | some t => simpa using tickPrice_shownBar_iff (hticks bar hmem t hg) one_le_revealedOf
    refine ⟨fun hconv => htick.mp hconv.tick, fun hcond => ⟨?_, ?_, ?_, htick.mpr hcond⟩⟩
    · rw [hv]
      simp [List.length_take_of_le hlt.le, Nat.succ_le_of_lt hlt]
    · rw [hv]
      simp only [List.getLast?_concat, Option.mem_some_iff, List.length_append, List.length_singleton,
        List.length_take_of_le hlt.le, Nat.add_sub_cancel, hb, forall_eq']
      exact ⟨time_shownBar _ _ _ _, inside_shownBar (hticks bar hmem)⟩
    · intro later hl hlen
      obtain ⟨hidx, hrev⟩ := same_bar h hl hne hlen
      have hv' := visibleBars_eq (h.trans_le hl) ticksByBar (hidx ▸ hb)
      rw [hv, hv']
      simp only [List.getLast?_concat, Option.mem_some_iff, forall_eq']
      exact shownBar_grows (hticks bar hmem) hrev

/-- The bars of a replay in the middle of a bar. -/
theorem mid_bar_converges :
    Converges [⟨100, 10, 12, 9, 11, 100⟩] 3 4 (Dict.empty.set 100 ⟨100, [10, 12, 9, 11], [25, 25, 25, 25], rfl⟩) := by
  apply (visibleBars_converges_iff _).mpr
  · intro _ bar _ barTicks _ hs
    exact absurd hs (by decide)
  · intro bar hb barTicks ht
    rw [List.mem_singleton.mp hb] at ht ⊢
    obtain rfl := Option.mem_some_iff.mp ht
    constructor <;> decide +kernel

/-- A plain bar replay of a bar with three ticks is at its close of 11 with a tick price of 10. -/
theorem stale_tick_price : ¬ ∀ (candles : List Candle) (cursor stepsPerBar : Int) (ticksByBar : TickBarMap),
    (∀ bar ∈ candles, ∀ barTicks ∈ ticksByBar.get bar.time, Faithful bar barTicks) →
      Converges candles cursor stepsPerBar ticksByBar := by
  intro hall
  have hconv := hall [⟨100, 10, 12, 9, 11, 100⟩] 1 1
    (Dict.empty.set 100 ⟨100, [10, 12, 11], [25, 25, 25], rfl⟩) (by
      intro bar hb barTicks ht
      rw [List.mem_singleton.mp hb] at ht ⊢
      obtain rfl := Option.mem_some_iff.mp ht
      constructor <;> decide +kernel)
  obtain ⟨last, hl, hclose⟩ := hconv.tick _ rfl 10 rfl
  obtain rfl := Option.mem_some_iff.mp hl
  revert hclose
  decide +kernel

end Main

end NTrade.Ui.ReplayVisible
