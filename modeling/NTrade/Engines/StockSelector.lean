import NTrade.Domain.Indicators
import NTrade.Lib.Dict
import Mathlib.Data.List.Sort
import Mathlib.Algebra.Order.Field.Rat
import Mathlib.Algebra.Order.Group.Abs

/-! The stock selector, which scores every symbol of a lake for a date and picks the best, and what later rows of the
lake change about its result. -/
namespace NTrade.Engines
open NTrade.Lib NTrade.Domain

structure LakeRow extends FrameBar where
  timestamp : Int
  open_ : Rat
  deriving DecidableEq, Repr

def LakeRow.date (row : LakeRow) : Int := row.timestamp / 86400000

/-- The frames under the data directory, in the order in which it lists them. A symbol without a file that can be read
has no rows. -/
abbrev Lake := Dict String (List LakeRow)

structure StockScore where
  symbol : String
  gapPct : Rat
  volumeRatio : Rat
  price : Rat
  prevClose : Rat
  openPrice : Rat
  turnover : Rat
  emaAligned : Bool
  vwapBias : Rat
  score : Rat
  deriving DecidableEq, Repr

structure SelectionResult where
  date : Int
  topPicks : List StockScore
  allScored : List StockScore
  deriving DecidableEq, Repr

def SelectionResult.symbols (result : SelectionResult) : List String := result.topPicks.map StockScore.symbol

def tail {α : Type} (n : Nat) (df : List α) : List α := df.drop (df.length - n)

def onDate (date : Int) (df : List LakeRow) : List LakeRow := df.filter fun row => row.date = date

def todayVol (today : List LakeRow) : Rat := ((today.take 30).map fun row => row.volume).sum

def gapPct (openPrice prevClose : Rat) : Rat := (openPrice - prevClose) / prevClose

/-- The volume of the day over the mean of the window; the mean of no rows is not above 0. -/
def volumeRatio (todayVol : Rat) (window : List LakeRow) : Rat :=
  let avgVol := (window.map fun row => row.volume).sum / window.length
  if window ≠ [] ∧ 0 < avgVol then todayVol / avgVol else 0

/-- No value that is not a number is above another. -/
def emaAligned (recent : List FrameBar) : Bool :=
  if 21 ≤ recent.length then
    match (ema 9 recent).getLast?.join, (ema 21 recent).getLast?.join with
    | some ema9, some ema21 => ema21 < ema9
    | _, _ => false
  else false

def vwapBias (price : Rat) (today : List FrameBar) : Except String Rat :=
  if 5 ≤ today.length then
    match (vwap today).getLast?.join with
    | none => .error "float() argument must be a string or a real number, not 'NAType'"
    | some vwapVal => .ok (if 0 < vwapVal then (price - vwapVal) / vwapVal else 0)
  else .ok 0

/-- The score of a symbol, from the first and the last row of the day, the last row of the day before, the volume of the
day and its ratio, the alignment of the averages and the bias. -/
def composeScore (symbol : String) (first last prev : LakeRow) (volume ratio : Rat) (aligned : Bool) (bias : Rat) :
    StockScore where
  symbol := symbol
  gapPct := gapPct first.open_ prev.close
  volumeRatio := ratio
  price := last.close
  prevClose := prev.close
  openPrice := first.open_
  turnover := last.close * volume
  emaAligned := aligned
  vwapBias := bias
  score := |gapPct first.open_ prev.close| * 100 + min ratio 5 + (if aligned then 1 else 0) + max 0 (bias * 10)

structure StockSelector where
  topN : Nat := 9
  minTurnover : Rat := 50000000
  maxGapPct : Rat := 5 / 100
  minVolumeRatio : Rat := 12 / 10
  lookbackDays : Nat := 20

namespace StockSelector
variable (sel : StockSelector)

/-- What `_score_symbol` makes of the frame that it has loaded. -/
def scoreFrame (symbol : String) (date : Int) (df : List LakeRow) : Except String (Option StockScore) :=
  let today := onDate date df
  let yesterday := onDate (date - 1) df
  if df.length < 30 then .ok none
  else match today.head?, today.getLast?, yesterday.getLast? with
  | some first, some last, some prev =>
    let ratio := volumeRatio (todayVol today) (tail (sel.lookbackDays * 30) df)
    if prev.close ≤ 0 then .ok none
    else if sel.maxGapPct < |gapPct first.open_ prev.close| then .ok none
    else if ratio < sel.minVolumeRatio then .ok none
    else if last.close * todayVol today < sel.minTurnover then .ok none
    else
      let aligned := emaAligned ((tail 50 df).map LakeRow.toFrameBar)
      match vwapBias last.close (today.map LakeRow.toFrameBar) with
      | .error e => .error e
      | .ok bias => .ok (some (composeScore symbol first last prev (todayVol today) ratio aligned bias))
  | _, _, _ => .ok none

/-- `_load_data`: the frame, and the cache with it. -/
def loadData (lake : Lake) (symbol : String) (cache : Lake) : Option (List LakeRow) × Lake :=
  match cache.get symbol with
  | some df => (some df, cache)
  | none =>
    match lake.get symbol with
    | none => (none, cache)
    | some df => (some df, cache.set symbol df)

def scoreSymbol (lake : Lake) (date : Int) (symbol : String) (cache : Lake) : Except String (Option StockScore) × Lake :=
  match loadData lake symbol cache with
  | (none, cache) => (.ok none, cache)
  | (some df, cache) => (sel.scoreFrame symbol date df, cache)

/-- The loop over the symbols: one that has no score, or whose score fails, is skipped. -/
def scoreAll (lake : Lake) (date : Int) : List String → Lake → List StockScore × Lake
  | [], cache => ([], cache)
  | symbol :: symbols, cache =>
    match sel.scoreSymbol lake date symbol cache with
    | (.ok (some score), cache) =>
      let (scored, cache) := scoreAll lake date symbols cache
      (score :: scored, cache)
    | (_, cache) => scoreAll lake date symbols cache

/-- Best score first, equal scores in the order they came. -/
def rank (scored : List StockScore) : List StockScore := scored.insertionSort fun a b => b.score ≤ a.score

def runForDate (lake : Lake) (date : Int) (cache : Lake) : SelectionResult × Lake :=
  let (scored, cache) := sel.scoreAll lake date lake.keys cache
  ({ date := date, topPicks := (rank scored).take sel.topN, allScored := rank scored }, cache)

def cacheAfter (lake : Lake) (dates : List Int) : Lake :=
  dates.foldl (fun cache date => (sel.runForDate lake date cache).2) Dict.empty

section Cache
variable {lake cache : Lake} {date : Int}

/-- Every frame in the cache is the one of the lake. -/
def Coherent (lake cache : Lake) : Prop := ∀ symbol df, cache.get symbol = some df → lake.get symbol = some df

theorem coherent_empty (lake : Lake) : Coherent lake Dict.empty := by
  intro symbol df h
  cases h

theorem loadData_spec (h : Coherent lake cache) (symbol : String) :
    (loadData lake symbol cache).1 = lake.get symbol ∧ Coherent lake (loadData lake symbol cache).2 := by
  cases hc : cache.get symbol with
  | some df =>
    simp only [loadData, hc]
    exact ⟨(h symbol df hc).symm, h⟩
  | none =>
    cases hl : lake.get symbol with
    | none =>
      simp only [loadData, hc, hl]
      exact ⟨trivial, h⟩
    | some df =>
      simp only [loadData, hc, hl]
      refine ⟨trivial, ?_⟩
      intro symbol' df' h'
      rw [Dict.get_set] at h'
      split at h'
      · next he =>
        rw [he, hl]
        exact h'
      · exact h symbol' df' h'

def scoreOf (lake : Lake) (date : Int) (symbol : String) : Option StockScore :=
  match (lake.get symbol).map (sel.scoreFrame symbol date) with
  | some (.ok score) => score
  | _ => none

theorem scoreOf_eq_some_iff {symbol : String} {score : StockScore} :
    sel.scoreOf lake date symbol = some score ↔
      ∃ df, lake.get symbol = some df ∧ sel.scoreFrame symbol date df = .ok (some score) := by
  rw [scoreOf]
  cases hl : lake.get symbol with
  | none => simp
  | some df => cases hs : sel.scoreFrame symbol date df <;> simp [hs]

/-- The loop scores the symbols on the frames of the lake, whatever has been loaded before. -/
theorem scoreAll_spec (symbols : List String) (h : Coherent lake cache) :
    (sel.scoreAll lake date symbols cache).1 = symbols.filterMap (sel.scoreOf lake date) ∧
      Coherent lake (sel.scoreAll lake date symbols cache).2 := by
  induction symbols generalizing cache with
  | nil => exact ⟨rfl, h⟩
  | cons symbol symbols ih =>
    obtain ⟨hdf, hco⟩ := loadData_spec h symbol
    cases hd : loadData lake symbol cache with
    | mk df cache' =>
      rw [hd] at hdf hco
      cases df with
      | none =>
        have hs : sel.scoreOf lake date symbol = none := by rw [scoreOf, ← hdf]; rfl
        rw [List.filterMap_cons_none hs]
        simp only [scoreAll, scoreSymbol, hd]
        exact ih hco
      | some df =>
        cases hs : sel.scoreFrame symbol date df with
        | error e =>
          have hn : sel.scoreOf lake date symbol = none := by rw [scoreOf, ← hdf, Option.map_some, hs]
          rw [List.filterMap_cons_none hn]
          simp only [scoreAll, scoreSymbol, hd, hs]
          exact ih hco
        | ok score =>
          have hn : sel.scoreOf lake date symbol = score := by rw [scoreOf, ← hdf, Option.map_some, hs]
          cases score with
          | none =>
            rw [List.filterMap_cons_none hn]
            simp only [scoreAll, scoreSymbol, hd, hs]
            exact ih hco
          | some score =>
            rw [List.filterMap_cons_some hn]
            simp only [scoreAll, scoreSymbol, hd, hs]
            exact ⟨congrArg (score :: ·) (ih hco).1, (ih hco).2⟩

theorem coherent_cacheAfter (lake : Lake) (dates : List Int) : Coherent lake (sel.cacheAfter lake dates) := by
  induction dates using List.reverseRecOn with
  | nil => exact coherent_empty lake
  | append_singleton dates date ih =>
    rw [cacheAfter, List.foldl_concat]
    exact (sel.scoreAll_spec lake.keys ih).2

/-- What a run lists is what the symbols of the lake score. -/
theorem mem_allScored_iff (h : Coherent lake cache) {score : StockScore} :
    score ∈ (sel.runForDate lake date cache).1.allScored ↔
      ∃ symbol df, lake.get symbol = some df ∧ sel.scoreFrame symbol date df = .ok (some score) := by
  have hm : score ∈ (sel.runForDate lake date cache).1.allScored ↔
      score ∈ (sel.scoreAll lake date lake.keys cache).1 := List.mem_insertionSort _
  rw [hm, (sel.scoreAll_spec lake.keys h).1, List.mem_filterMap]
  simp only [scoreOf_eq_some_iff]
  constructor
  · rintro ⟨symbol, -, h⟩
    exact ⟨symbol, h⟩
  · rintro ⟨symbol, df, hdf, hs⟩
    exact ⟨symbol, (lake.mem_keys_iff symbol).mpr ⟨df, hdf⟩, df, hdf, hs⟩

end Cache

section Known
variable {symbol : String} {date : Int} {df : List LakeRow} {score : StockScore} {first last prev : LakeRow} {bias : Rat}

structure Passes (date : Int) (df : List LakeRow) (first last prev : LakeRow) (bias : Rat) : Prop where
  opening : (onDate date df).head? = some first
  closing : (onDate date df).getLast? = some last
  previous : (onDate (date - 1) df).getLast? = some prev
  prevClose : 0 < prev.close
  gap : |gapPct first.open_ prev.close| ≤ sel.maxGapPct
  turnover : sel.minTurnover ≤ last.close * todayVol (onDate date df)
  bias : vwapBias last.close ((onDate date df).map LakeRow.toFrameBar) = .ok bias

/-- A symbol scores exactly if it passes the checks of its day, its frame has 30 rows, and the volume of the day is high
enough over that of the window. -/
theorem scoreFrame_eq_some_iff :
    sel.scoreFrame symbol date df = .ok (some score) ↔
      30 ≤ df.length ∧ ∃ first last prev bias, sel.Passes date df first last prev bias ∧
        sel.minVolumeRatio ≤ volumeRatio (todayVol (onDate date df)) (tail (sel.lookbackDays * 30) df) ∧
        score = composeScore symbol first last prev (todayVol (onDate date df))
          (volumeRatio (todayVol (onDate date df)) (tail (sel.lookbackDays * 30) df))
          (emaAligned ((tail 50 df).map LakeRow.toFrameBar)) bias := by
  rw [scoreFrame]
  constructor
  · intro h
    dsimp only at h
    by_cases hlen : df.length < 30
    · rw [if_pos hlen] at h
      cases h
    rw [if_neg hlen] at h
    split at h
    · next first last prev hf hl hp =>
      split_ifs at h with hc hg hr ht
      · cases h
      · cases h
      · cases h
      · cases h
      cases hb : vwapBias last.close ((onDate date df).map LakeRow.toFrameBar) with
      | error e => simp [hb] at h
      | ok bias =>
        rw [hb] at h
        refine ⟨not_lt.mp hlen, first, last, prev, bias, ?_, not_lt.mp hr, ?_⟩
        · exact ⟨hf, hl, hp, not_le.mp hc, not_lt.mp hg, not_lt.mp ht, hb⟩
        · exact (Option.some.inj (Except.ok.inj h)).symm
    · cases h
  · rintro ⟨hlen, first, last, prev, bias, h, hr, rfl⟩
    dsimp only
    rw [if_neg (not_lt.mpr hlen), h.opening, h.closing, h.previous]
    dsimp only
    rw [if_neg (not_le.mpr h.prevClose), if_neg (not_lt.mpr h.gap), if_neg (not_lt.mpr hr), if_neg (not_lt.mpr h.turnover),
      h.bias]

def known (date : Int) (df : List LakeRow) : List LakeRow := df.filter fun row => row.date ≤ date

theorem onDate_known {day : Int} (h : day ≤ date) (df : List LakeRow) : onDate day (known date df) = onDate day df := by
  rw [onDate, known, List.filter_filter, onDate]
  apply List.filter_congr
  intro row _
  rw [Bool.eq_iff_iff]
  simp only [Bool.and_eq_true, decide_eq_true_eq]
  omega

/-- The checks of the day do not see what comes later. -/
theorem passes_congr {df' : List LakeRow} (h : known date df = known date df') :
    sel.Passes date df first last prev bias ↔ sel.Passes date df' first last prev bias := by
  have hdays {day : Int} (hd : day ≤ date) : onDate day df = onDate day df' := by
    rw [← onDate_known hd df, h, onDate_known hd]
  have htoday := hdays (le_refl date)
  have hyesterday := hdays (Int.sub_le_self date (by decide : (0 : Int) ≤ 1))
  constructor
  · rintro ⟨hf, hl, hp, hc, hg, ht, hb⟩
    rw [htoday] at hf hl ht hb
    rw [hyesterday] at hp
    exact ⟨hf, hl, hp, hc, hg, ht, hb⟩
  · rintro ⟨hf, hl, hp, hc, hg, ht, hb⟩
    rw [← htoday] at hf hl ht hb
    rw [← hyesterday] at hp
    exact ⟨hf, hl, hp, hc, hg, ht, hb⟩

/-- The symbol passes the checks of the day, and there is a window over which its volume would be high enough. -/
def Eligible (date : Int) (df : List LakeRow) : Prop :=
  (∃ first last prev bias, sel.Passes date df first last prev bias) ∧
    (sel.minVolumeRatio ≤ 0 ∨ 0 < todayVol (onDate date df) ∧ 0 < sel.lookbackDays)

theorem eligible_known : sel.Eligible date (known date df) ↔ sel.Eligible date df := by
  have h : known date (known date df) = known date df := by simp [known]
  rw [Eligible, Eligible, onDate_known (le_refl date)]
  simp only [sel.passes_congr h]

theorem tail_zero {α : Type} (df : List α) : tail 0 df = [] := by simp [tail]

theorem pos_of_volumeRatio_pos {volume : Rat} {window : List LakeRow} (h : 0 < volumeRatio volume window) :
    0 < volume ∧ window ≠ [] := by
  rw [volumeRatio] at h
  split_ifs at h with hw
  · exact ⟨(div_pos_iff_of_pos_right hw.2).mp h, hw.1⟩
  · exact absurd h (lt_irrefl 0)

/-- Only a symbol that is eligible scores. -/
theorem eligible_of_scoreFrame (h : sel.scoreFrame symbol date df = .ok (some score)) : sel.Eligible date df := by
  obtain ⟨-, first, last, prev, bias, hp, hr, -⟩ := sel.scoreFrame_eq_some_iff.mp h
  refine ⟨⟨first, last, prev, bias, hp⟩, ?_⟩
  rcases le_or_gt sel.minVolumeRatio 0 with hm | hm
  · exact .inl hm
  · right
    obtain ⟨hv, hw⟩ := pos_of_volumeRatio_pos (hm.trans_le hr)
    refine ⟨hv, Nat.pos_of_ne_zero ?_⟩
    intro h0
    rw [h0, Nat.zero_mul, tail_zero] at hw
    exact hw rfl

end Known

section Later
variable {date : Int} {df : List LakeRow}

def later (date : Int) (volume : Rat) (closes : List Rat) : List LakeRow :=
  closes.mapIdx fun i close =>
    { timestamp := (date + 1) * 86400000 + 60000 * i, open_ := close, high := close, low := close, close := close,
      volume := volume }

theorem length_later (date : Int) (volume : Rat) (closes : List Rat) : (later date volume closes).length = closes.length :=
  List.length_mapIdx

theorem closes_later (date : Int) (volume : Rat) (closes : List Rat) :
    (later date volume closes).map (fun row => row.close) = closes := by
  apply List.ext_getElem
  · rw [List.length_map, length_later]
  · intro i hi hi'
    simp [later]

theorem volume_of_mem_later {volume : Rat} {closes : List Rat} {row : LakeRow} (h : row ∈ later date volume closes) :
    row.volume = volume ∧ date < row.date := by
  obtain ⟨i, hi, rfl⟩ := List.mem_mapIdx.mp h
  refine ⟨rfl, ?_⟩
  show date < ((date + 1) * 86400000 + 60000 * (i : Int)) / 86400000
  omega

theorem known_append_later (volume : Rat) (closes : List Rat) :
    known date (known date df ++ later date volume closes) = known date df := by
  have h : known date (later date volume closes) = [] := by
    rw [known, List.filter_eq_nil_iff]
    intro row hrow
    have := (volume_of_mem_later hrow).2
    simp only [decide_eq_true_eq]
    omega
  rw [known, List.filter_append, ← known, ← known, h, List.append_nil]
  simp [known]

theorem tail_append {α : Type} {n : Nat} {xs ys : List α} (h : n ≤ ys.length) : tail n (xs ++ ys) = tail n ys := by
  have he : (xs ++ ys).length - n = xs.length + (ys.length - n) := by
    rw [List.length_append]
    omega
  rw [tail, he, List.drop_append, List.drop_of_length_le (Nat.le_add_right _ _), Nat.add_sub_cancel_left, List.nil_append, tail]

theorem emaAligned_congr {recent recent' : List FrameBar} (h : recent.map FrameBar.close = recent'.map FrameBar.close) :
    emaAligned recent = emaAligned recent' := by
  have hl : recent.length = recent'.length := by simpa using congrArg List.length h
  simp only [emaAligned, ema, h, hl]

def turn (up : Bool) : List Rat := List.replicate 49 1 ++ [if up then 2 else 1]

theorem emaAligned_turn (up : Bool) : emaAligned ((turn up).map fun close => ⟨close, close, close, 0⟩) = up := by
  cases up <;> decide +kernel

def turning (n : Nat) (up : Bool) : List Rat := List.replicate n 1 ++ turn up

private theorem sum_volumes {v : Rat} {window : List LakeRow} (h : ∀ row ∈ window, row.volume = v) :
    (window.map fun row => row.volume).sum = v * window.length := by
  rw [List.map_congr_left h, List.map_const', List.sum_replicate, nsmul_eq_mul, mul_comm]

theorem map_tail {α β : Type} (f : α → β) (n : Nat) (df : List α) : (tail n df).map f = tail n (df.map f) := by
  rw [tail, List.map_drop, tail, List.length_map]

theorem tail_turning (n : Nat) (up : Bool) : tail 50 (turning n up) = turn up := by
  rw [turning, tail_append (by simp [turn])]
  simp [tail, turn]

/-- Over a window of some one volume the ratio is high enough. -/
theorem exists_volume {volume minRatio : Rat} {n : Nat} (h : minRatio ≤ 0 ∨ 0 < volume ∧ 0 < n) :
    ∃ v, ∀ window : List LakeRow, window.length = n → (∀ row ∈ window, row.volume = v) →
      minRatio ≤ volumeRatio volume window := by
  rcases le_or_gt minRatio 0 with hm | hm
  · refine ⟨0, ?_⟩
    intro window _ hvol
    rw [volumeRatio, sum_volumes hvol]
    simpa using hm
  · obtain ⟨hv, hn⟩ := h.resolve_left (not_le.mpr hm)
    refine ⟨volume / minRatio, ?_⟩
    intro window hlen hvol
    have hpos : (0 : Rat) < window.length := by exact_mod_cast hlen ▸ hn
    have hne : window ≠ [] := List.ne_nil_of_length_pos (hlen ▸ hn)
    rw [volumeRatio, sum_volumes hvol, mul_div_cancel_right₀ _ hpos.ne']
    rw [if_pos ⟨hne, div_pos hv hm⟩, div_div_cancel₀ hv.ne']

theorem length_tail {α : Type} {n : Nat} {df : List α} (h : n ≤ df.length) : (tail n df).length = n := by
  rw [tail, List.length_drop]
  omega

theorem symbol_of_scoreFrame {symbol : String} {score : StockScore}
    (h : sel.scoreFrame symbol date df = .ok (some score)) : score.symbol = symbol := by
  obtain ⟨-, first, last, prev, bias, -, -, rfl⟩ := sel.scoreFrame_eq_some_iff.mp h
  rfl

/-- With enough rows to come, the score is read off the day and those rows. -/
theorem scoreFrame_append {first last prev : LakeRow} {bias : Rat} {rows : List LakeRow} (symbol : String)
    (h : sel.Passes date df first last prev bias) (hk : known date (known date df ++ rows) = known date df)
    (hlen : sel.lookbackDays * 30 + 50 ≤ rows.length)
    (hr : sel.minVolumeRatio ≤ volumeRatio (todayVol (onDate date df)) (tail (sel.lookbackDays * 30) rows)) :
    ∃ score, sel.scoreFrame symbol date (known date df ++ rows) = .ok (some score) ∧
      score.emaAligned = emaAligned ((tail 50 rows).map LakeRow.toFrameBar) := by
  have hday : onDate date (known date df ++ rows) = onDate date df := by
    rw [← onDate_known (le_refl date), hk, onDate_known (le_refl date)]
  have hpasses : sel.Passes date (known date df ++ rows) first last prev bias :=
    (sel.passes_congr hk).mpr h
  have hwindow : tail (sel.lookbackDays * 30) (known date df ++ rows) = tail (sel.lookbackDays * 30) rows :=
    tail_append (by omega)
  have hrecent : tail 50 (known date df ++ rows) = tail 50 rows := tail_append (by omega)
  refine ⟨_, sel.scoreFrame_eq_some_iff.mpr ⟨?_, first, last, prev, bias, hpasses, ?_, rfl⟩, ?_⟩
  · rw [List.length_append]
    omega
  · rw [hday, hwindow]
    exact hr
  · rw [← hrecent]
    rfl

/-- A symbol that is eligible scores on rows to come under which its averages end either way. -/
theorem exists_later (h : sel.Eligible date df) (symbol : String) (up : Bool) :
    ∃ rows score, known date (known date df ++ rows) = known date df ∧
      sel.scoreFrame symbol date (known date df ++ rows) = .ok (some score) ∧ score.emaAligned = up := by
  obtain ⟨⟨first, last, prev, bias, hp⟩, hr⟩ := h
  have hn : sel.minVolumeRatio ≤ 0 ∨ 0 < todayVol (onDate date df) ∧ 0 < sel.lookbackDays * 30 := by
    refine hr.imp_right fun h => ⟨h.1, ?_⟩
    omega
  obtain ⟨v, hv⟩ := exists_volume hn
  have hlen : (later date v (turning (sel.lookbackDays * 30) up)).length = sel.lookbackDays * 30 + 50 := by
    simp [length_later, turning, turn]
  have hvol : sel.minVolumeRatio ≤ volumeRatio (todayVol (onDate date df))
      (tail (sel.lookbackDays * 30) (later date v (turning (sel.lookbackDays * 30) up))) := by
    apply hv _ (length_tail (by omega))
    intro row hrow
    exact (volume_of_mem_later (List.mem_of_mem_drop hrow)).1
  obtain ⟨score, hs, ha⟩ := sel.scoreFrame_append symbol hp (known_append_later v _) hlen.ge hvol
  refine ⟨_, score, known_append_later v _, hs, ?_⟩
  have hcloses : ((tail 50 (later date v (turning (sel.lookbackDays * 30) up))).map LakeRow.toFrameBar).map
      FrameBar.close = turn up := by
    rw [List.map_map, map_tail]
    exact (congrArg (tail 50) (closes_later date v _)).trans (tail_turning _ up)
  have hframe : ((turn up).map fun close => (⟨close, close, close, 0⟩ : FrameBar)).map FrameBar.close = turn up := by
    simp [Function.comp_def]
  rw [ha, emaAligned_congr (hcloses.trans hframe.symm), emaAligned_turn]

end Later

section Lakes
variable {symbol : String} {date : Int} {lake : Lake} {rows : List LakeRow}

/-- The lake as it stands at the end of the date: the symbols that have rows by then, with those rows. -/
def upTo (date : Int) (lake : Lake) : List (String × List LakeRow) :=
  (lake.entries.map fun e => (e.1, known date e.2)).filter fun e => e.2 ≠ []

theorem mem_upTo_iff :
    (symbol, rows) ∈ upTo date lake ↔ rows ≠ [] ∧ ∃ df, lake.get symbol = some df ∧ known date df = rows := by
  rw [upTo, List.mem_filter, List.mem_map]
  simp only [decide_eq_true_eq, and_comm (b := rows ≠ [])]
  apply and_congr_right
  intro _
  constructor
  · rintro ⟨⟨_, df⟩, hmem, he⟩
    obtain ⟨rfl, rfl⟩ := Prod.mk.inj he
    exact ⟨df, (lake.mem_entries_iff _ _).mp hmem, rfl⟩
  · rintro ⟨df, hdf, rfl⟩
    exact ⟨(symbol, df), (lake.mem_entries_iff _ _).mpr hdf, rfl⟩

/-- Changing the later rows of a symbol leaves the lake up to the date alone. -/
theorem upTo_modify {df : List LakeRow} (hdf : lake.get symbol = some df) {f : List LakeRow → List LakeRow}
    (h : known date (f df) = known date df) : upTo date (lake.modify symbol f) = upTo date lake := by
  rw [upTo, upTo, Dict.modify]
  dsimp only
  rw [List.map_map]
  congr 1
  apply List.map_congr_left
  rintro ⟨symbol', df'⟩ hmem
  dsimp only [Function.comp]
  split
  · next he =>
    rw [lake.mem_entries_iff, he] at hmem
    obtain rfl := Option.some.inj (hdf.symm.trans hmem)
    rw [h]
  · rfl

theorem onDate_eq_nil (h : known date rows = []) : onDate date rows = [] := by
  rw [← onDate_known (le_refl date), h]
  rfl

/-- A run lists nothing if no symbol is eligible on what the lake says up to the date. -/
theorem allScored_eq_nil {cache : Lake} (hc : Coherent lake cache)
    (h : ∀ e ∈ upTo date lake, ¬ sel.Eligible date e.2) : (sel.runForDate lake date cache).1.allScored = [] := by
  rw [List.eq_nil_iff_forall_not_mem]
  intro score hs
  obtain ⟨symbol, df, hdf, hscore⟩ := (sel.mem_allScored_iff hc).mp hs
  have he := sel.eligible_of_scoreFrame hscore
  have hne : known date df ≠ [] := by
    intro hk
    obtain ⟨⟨first, _, _, _, hp⟩, _⟩ := he
    have hopen := hp.opening
    rw [onDate_eq_nil hk] at hopen
    cases hopen
  exact h (symbol, known date df) (mem_upTo_iff.mpr ⟨hne, df, hdf, rfl⟩) (sel.eligible_known.mpr he)

theorem runForDate_eq_of_allScored_nil {cache : Lake} (h : (sel.runForDate lake date cache).1.allScored = []) :
    (sel.runForDate lake date cache).1 = { date := date, topPicks := [], allScored := [] } := by
  have hpicks : (sel.runForDate lake date cache).1.topPicks =
      (sel.runForDate lake date cache).1.allScored.take sel.topN := rfl
  have hdate : (sel.runForDate lake date cache).1.date = date := rfl
  cases hr : (sel.runForDate lake date cache).1 with
  | mk d picks scored =>
    rw [hr] at h hpicks hdate
    dsimp only at h hpicks hdate
    rw [hpicks, h, hdate, List.take_nil]

/-- A run lists no symbol twice. -/
theorem eq_of_symbol_eq {cache : Lake} (hc : Coherent lake cache) {score score' : StockScore}
    (hs : score ∈ (sel.runForDate lake date cache).1.allScored)
    (hs' : score' ∈ (sel.runForDate lake date cache).1.allScored) (he : score.symbol = score'.symbol) : score = score' := by
  obtain ⟨symbol, df, hdf, hscore⟩ := (sel.mem_allScored_iff hc).mp hs
  obtain ⟨symbol', df', hdf', hscore'⟩ := (sel.mem_allScored_iff hc).mp hs'
  rw [sel.symbol_of_scoreFrame hscore, sel.symbol_of_scoreFrame hscore'] at he
  subst he
  obtain rfl := Option.some.inj (hdf.symm.trans hdf')
  exact Option.some.inj (Except.ok.inj (hscore.symm.trans hscore'))

/-- Later rows of a symbol that is eligible can be such that it is listed with its averages either way. -/
theorem exists_listed (hmem : (symbol, rows) ∈ upTo date lake) (he : sel.Eligible date rows) (up : Bool) :
    ∃ lake' score, upTo date lake' = upTo date lake ∧
      score ∈ (sel.runForDate lake' date (sel.cacheAfter lake' [])).1.allScored ∧ score.symbol = symbol ∧
        score.emaAligned = up := by
  obtain ⟨-, df, hdf, rfl⟩ := mem_upTo_iff.mp hmem
  obtain ⟨more, score, hk, hs, ha⟩ := sel.exists_later (sel.eligible_known.mp he) symbol up
  refine ⟨lake.modify symbol fun _ => known date df ++ more, score, upTo_modify hdf hk, ?_, sel.symbol_of_scoreFrame hs,
    ha⟩
  rw [sel.mem_allScored_iff (sel.coherent_cacheAfter _ [])]
  have hget := (lake.get_modify symbol symbol fun _ => known date df ++ more).trans (if_pos rfl)
  rw [hdf] at hget
  exact ⟨symbol, _, hget, hs⟩

/-- The result of a run depends on no later row exactly if no symbol is eligible on the rows up to the date. -/
theorem no_lookahead_iff (lake : Lake) (dates : List Int) (date : Int) :
    (∀ lake' dates', upTo date lake' = upTo date lake →
      (sel.runForDate lake' date (sel.cacheAfter lake' dates')).1 =
        (sel.runForDate lake date (sel.cacheAfter lake dates)).1) ↔
      ∀ e ∈ upTo date lake, ¬ sel.Eligible date e.2 := by
  constructor
  · rintro h ⟨symbol, rows⟩ hmem he
    obtain ⟨lakeUp, scoreUp, hlUp, hUp, hsUp, haUp⟩ := sel.exists_listed hmem he true
    obtain ⟨lakeDown, scoreDown, hlDown, hDown, hsDown, haDown⟩ := sel.exists_listed hmem he false
    rw [h lakeUp [] hlUp] at hUp
    rw [h lakeDown [] hlDown] at hDown
    have heq := sel.eq_of_symbol_eq (sel.coherent_cacheAfter lake dates) hUp hDown (hsUp.trans hsDown.symm)
    rw [heq, haDown] at haUp
    cases haUp
  · intro h lake' dates' hl
    have hnil := sel.allScored_eq_nil (sel.coherent_cacheAfter lake dates) h
    have hnil' := sel.allScored_eq_nil (sel.coherent_cacheAfter lake' dates') (hl ▸ h)
    rw [sel.runForDate_eq_of_allScored_nil hnil, sel.runForDate_eq_of_allScored_nil hnil']

def twoDays : List LakeRow :=
  (List.range 29).map (fun i : Nat =>
    { timestamp := 60000 * (i : Int), open_ := 100, high := 100, low := 100, close := 100, volume := 1000 }) ++
  [{ timestamp := 86400000, open_ := 101, high := 101, low := 101, close := 101, volume := 1000000 }]

def nextDay : LakeRow :=
  { timestamp := 2 * 86400000, open_ := 101, high := 101, low := 101, close := 101, volume := 1000000000 }

def lakeOf (df : List LakeRow) : Lake := Dict.empty.set "RELIANCE" df

/-- The volume of the next day takes a symbol off the list of the day before. -/
theorem next_day_unpicks :
    upTo 1 (lakeOf (twoDays ++ [nextDay])) = upTo 1 (lakeOf twoDays) ∧
      (({} : StockSelector).runForDate (lakeOf (twoDays ++ [nextDay])) 1 Dict.empty).1.symbols = [] ∧
      (({} : StockSelector).runForDate (lakeOf twoDays) 1 Dict.empty).1.symbols = ["RELIANCE"] := by
  refine ⟨?_, ?_, ?_⟩ <;> decide +kernel

end Lakes
end StockSelector
end NTrade.Engines
