import NTrade.Domain.Depth
import NTrade.Lib.TowardZero
import NTrade.Sim.RoundedTicks

/-! Synthetic depth: an order book of some levels is laid out around a price, and leans to one side as much as it is
told to. -/
namespace NTrade.Sim
open NTrade.Domain NTrade.Lib NTrade.Execution

def DEFAULT_SPREAD_TICKS : Int := 1
def DEFAULT_BASE_QTY : Int := 100
def DEFAULT_JITTER : Rat := 3 / 10

structure SimDepthLevel where
  price : Rat
  quantity : Int
  orders : Int
  deriving DecidableEq, Repr

inductive DepthError where
  /-- "tick_size must be > 0, got ..." -/
  | tickSize (tickSize : Rat)
  /-- "ltp must be > 0, got ..." -/
  | ltp (ltp : Rat)
  deriving DecidableEq, Repr

/-- The price of the `k`-th level of a side; `side` is -1 for the bids, and 1 for the asks. -/
def levelPrice (mid tickSize : Rat) (spreadTicks side : Int) (k : Nat) : Rat :=
  round (mid + side * ((spreadTicks + k + 1) * tickSize)) 4

section Random
variable {σ : Type} (rng : Rng σ)

def drawLevel (baseQty : Int) (jitter : Rat) (s : σ) : (Int × Int) × σ :=
  let j := rng.uniform s (-jitter) jitter
  let orders := rng.randrange j.2 1 6
  ((max 1 (TowardZero.trunc (baseQty * (1 + j.1))), max 1 (orders.1 : Int)), orders.2)

def bookLevels (mid tickSize imbalance : Rat) (spreadTicks baseQty : Int) (jitter : Rat) :
    Nat → Nat → σ → List SimDepthLevel × List SimDepthLevel
  | 0, _, _ => ([], [])
  | n + 1, k, s =>
    let drawn := drawLevel rng baseQty jitter s
    let base := drawn.1.1
    let delta := TowardZero.part imbalance base
    let rest := bookLevels mid tickSize imbalance spreadTicks baseQty jitter n (k + 1) drawn.2
    (⟨levelPrice mid tickSize spreadTicks (-1) k, max 1 (base + delta), drawn.1.2⟩ :: rest.1,
      ⟨levelPrice mid tickSize spreadTicks 1 k, max 1 (base - delta), drawn.1.2⟩ :: rest.2)

def clampLevels (levels : Int) : Int := max 1 (min 20 levels)

/-- The imbalance that is laid out for one that is asked for. -/
def clampImbalance (imbalance : Rat) : Rat := max (-9 / 10) (min (9 / 10) imbalance)

/-- `synthesize_depth`: the bids and the asks around a price. -/
def synthesizeDepth (ltp tickSize : Rat) (levels : Int) (imbalance : Rat) (seed spreadTicks baseQty : Int)
    (jitter : Rat) : Except DepthError (List SimDepthLevel × List SimDepthLevel) :=
  if tickSize ≤ 0 then .error (.tickSize tickSize)
  else if ltp ≤ 0 then .error (.ltp ltp)
  else
    let mid := roundHalfEven (ltp / tickSize) * tickSize
    .ok (bookLevels rng mid tickSize (clampImbalance imbalance) (max 0 spreadTicks) baseQty jitter
      (clampLevels levels).toNat 0 (rng.seeded seed))

end Random

def depthToWire (book : List SimDepthLevel × List SimDepthLevel) : List (Rat × Int × Int) × List (Rat × Int × Int) :=
  (book.1.map fun b => (b.price, b.quantity, b.orders), book.2.map fun a => (a.price, a.quantity, a.orders))

/-- The side that the bar's own move leans to. -/
def barImbalance (open_ close scale : Rat) : Rat :=
  if open_ < close then scale else if close < open_ then -scale else 0

def depthEvent (symbol exchange : String) (ts : Timestamp) (book : List SimDepthLevel × List SimDepthLevel) :
    DepthEvent where
  symbol := symbol
  exchange := exchange
  bids := (depthToWire book).1
  asks := (depthToWire book).2
  ts := ts

structure DepthSettings where
  depthLevels : Int := 0
  depthImbalance : Rat := 0
  depthImbalanceMode : String := "constant"
  depthSeed : Int := 0
  depthTickSize : Rat := 1 / 20

def DepthSettings.imbalance (settings : DepthSettings) (open_ close : Rat) : Rat :=
  if settings.depthImbalanceMode = "bar" then
    barImbalance open_ close (if settings.depthImbalance = 0 then 1 / 2 else |settings.depthImbalance|)
  else settings.depthImbalance

def DepthSettings.event {σ : Type} (rng : Rng σ) (settings : DepthSettings) (symbol exchange : String) (ts : Timestamp)
    (open_ close : Rat) : Except DepthError (Option DepthEvent) :=
  if 0 < max 0 settings.depthLevels then
    (synthesizeDepth rng close settings.depthTickSize (max 0 settings.depthLevels) (settings.imbalance open_ close)
      settings.depthSeed DEFAULT_SPREAD_TICKS DEFAULT_BASE_QTY DEFAULT_JITTER).map fun book =>
        some (depthEvent symbol exchange ts book)
  else .ok none

section Prices
variable {σ : Type} (rng : Rng σ) {tickSize : Rat} {m spreadTicks : Int}

/-- Where the levels of a side are laid out, in ticks from zero. -/
private theorem levelPrice_eq (side : Int) (k : Nat) : levelPrice (m * tickSize) tickSize spreadTicks side k =
    HalfEven.decimals (((m + side * (spreadTicks + k + 1) : Int) : Rat) * tickSize) 4 := by
  rw [levelPrice, round_eq]
  congr 1
  push_cast
  ring

theorem bookLevels_prices (mid tickSize imbalance : Rat) (spreadTicks baseQty : Int) (jitter : Rat) (n k : Nat) (s : σ) :
    let book := bookLevels rng mid tickSize imbalance spreadTicks baseQty jitter n k s
    book.1.map (·.price) = (List.range' k n).map (levelPrice mid tickSize spreadTicks (-1)) ∧
      book.2.map (·.price) = (List.range' k n).map (levelPrice mid tickSize spreadTicks 1) := by
  induction n generalizing k s with
  | zero => exact ⟨rfl, rfl⟩
  | succ n ih =>
    obtain ⟨hb, ha⟩ := ih (k + 1) (drawLevel rng baseQty jitter s).2
    exact ⟨congrArg _ hb, congrArg _ ha⟩

end Prices

section Quantities
variable {σ : Type} (rng : Rng σ) (baseQty : Int) (jitter : Rat)

def drawnBases : Nat → σ → List Int
  | 0, _ => []
  | n + 1, s =>
    let drawn := drawLevel rng baseQty jitter s
    drawn.1.1 :: drawnBases n drawn.2

theorem length_drawnBases (n : Nat) (s : σ) : (drawnBases rng baseQty jitter n s).length = n := by
  induction n generalizing s with
  | zero => rfl
  | succ n ih => exact congrArg (· + 1) (ih _)

theorem one_le_drawnBases (n : Nat) (s : σ) : ∀ b ∈ drawnBases rng baseQty jitter n s, 1 ≤ b := by
  induction n generalizing s with
  | zero => intro b hb; cases hb
  | succ n ih =>
    intro b hb
    rcases List.mem_cons.mp hb with rfl | hb
    · exact le_max_left _ _
    · exact ih _ b hb

/-- What one side of a level has more the other one has less, and none of them runs out. -/
theorem bookLevels_quantities (rng : Rng σ) (mid tickSize : Rat) {imbalance : Rat} (himb : |imbalance| < 1)
    (spreadTicks baseQty : Int) (jitter : Rat) (n k : Nat) (s : σ) :
    let book := bookLevels rng mid tickSize imbalance spreadTicks baseQty jitter n k s
    let bases := drawnBases rng baseQty jitter n s
    book.1.map (·.quantity) = bases.map (fun b => b + TowardZero.part imbalance b) ∧
      book.2.map (·.quantity) = bases.map (fun b => b - TowardZero.part imbalance b) := by
  induction n generalizing k s with
  | zero => exact ⟨rfl, rfl⟩
  | succ n ih =>
    obtain ⟨hb, ha⟩ := ih (k + 1) (drawLevel rng baseQty jitter s).2
    have hbase : 1 ≤ (drawLevel rng baseQty jitter s).1.1 := le_max_left _ _
    have hpart := abs_lt.mp (TowardZero.abs_part_lt himb hbase)
    simp only [bookLevels, drawnBases, List.map_cons, hb, ha]
    rw [max_eq_right (by omega), max_eq_right (by omega)]
    exact ⟨rfl, rfl⟩

end Quantities

section Books
variable {σ : Type} {rng : Rng σ} {ltp tickSize imbalance jitter : Rat} {levels seed spreadTicks baseQty : Int}
  {book : List SimDepthLevel × List SimDepthLevel}

private theorem synthesizeDepth_ok
    (h : synthesizeDepth rng ltp tickSize levels imbalance seed spreadTicks baseQty jitter = .ok book) :
    0 < tickSize ∧ 0 < ltp ∧ book = bookLevels rng (roundHalfEven (ltp / tickSize) * tickSize) tickSize
      (clampImbalance imbalance) (max 0 spreadTicks) baseQty jitter (clampLevels levels).toNat 0 (rng.seeded seed) := by
  rw [synthesizeDepth] at h
  split_ifs at h with ht hl
  exact ⟨not_le.mp ht, not_le.mp hl, (Except.ok.inj h).symm⟩

/-- There is a book around every price above zero. -/
theorem exists_book {σ : Type} (rng : Rng σ) {ltp tickSize : Rat} (ht : 0 < tickSize) (hl : 0 < ltp) (levels : Int)
    (imbalance : Rat) (seed spreadTicks baseQty : Int) (jitter : Rat) :
    ∃ book, synthesizeDepth rng ltp tickSize levels imbalance seed spreadTicks baseQty jitter = .ok book :=
  ⟨_, by rw [synthesizeDepth, if_neg ht.not_ge, if_neg hl.not_ge]⟩

theorem abs_clampImbalance_lt (imbalance : Rat) : |clampImbalance imbalance| < 1 := by
  rw [clampImbalance, abs_lt]
  constructor
  · exact lt_of_lt_of_le (by norm_num) (le_max_left _ _)
  · exact max_lt (by norm_num) ((min_le_left _ _).trans_lt (by norm_num))

theorem clampImbalance_neg (imbalance : Rat) : clampImbalance (-imbalance) = -clampImbalance imbalance := by
  rw [clampImbalance, clampImbalance, min_def, min_def, max_def, max_def]
  split_ifs <;> linarith

def basesOf (rng : Rng σ) (levels seed baseQty : Int) (jitter : Rat) : List Int :=
  drawnBases rng baseQty jitter (clampLevels levels).toNat (rng.seeded seed)

/-- What the sides of a published book weigh. -/
theorem quantity_depthEvent (symbol exchange : String) (ts : Timestamp)
    (h : synthesizeDepth rng ltp tickSize levels imbalance seed spreadTicks baseQty jitter = .ok book) :
    let depth := (depthEvent symbol exchange ts book).depth
    let bases := basesOf rng levels seed baseQty jitter
    depth.bidQuantity = bases.sum + (bases.map (TowardZero.part (clampImbalance imbalance))).sum ∧
      depth.askQuantity = bases.sum - (bases.map (TowardZero.part (clampImbalance imbalance))).sum := by
  obtain ⟨-, -, rfl⟩ := synthesizeDepth_ok h
  obtain ⟨hb, ha⟩ := bookLevels_quantities rng (roundHalfEven (ltp / tickSize) * tickSize) tickSize
    (abs_clampImbalance_lt imbalance) (max 0 spreadTicks) baseQty jitter (clampLevels levels).toNat 0 (rng.seeded seed)
  have hsub (bases : List Int) (f : Int → Int) : (bases.map fun b => b - f b).sum = bases.sum - (bases.map f).sum := by
    induction bases with
    | nil => rfl
    | cons b bases ih =>
      simp only [List.map_cons, List.sum_cons, ih]
      omega
  constructor
  · calc
      _ = ((bookLevels rng _ tickSize _ _ baseQty jitter _ 0 (rng.seeded seed)).1.map (·.quantity)).sum := by
        simp only [MarketDepth.bidQuantity, DepthEvent.depth, depthEvent, depthToWire, List.map_map]
        rfl
      _ = _ := by rw [hb, List.sum_map_add, List.map_id']; rfl
  · calc
      _ = ((bookLevels rng _ tickSize _ _ baseQty jitter _ 0 (rng.seeded seed)).2.map (·.quantity)).sum := by
        simp only [MarketDepth.askQuantity, DepthEvent.depth, depthEvent, depthToWire, List.map_map]
        rfl
      _ = _ := by rw [ha, hsub]; rfl

theorem length_basesOf (rng : Rng σ) (levels seed baseQty : Int) (jitter : Rat) :
    ((basesOf rng levels seed baseQty jitter).length : Int) = clampLevels levels := by
  rw [basesOf, length_drawnBases, Int.toNat_of_nonneg]
  exact le_trans (by decide) (le_max_left _ _)

theorem basesOf_ne_nil (rng : Rng σ) (levels seed baseQty : Int) (jitter : Rat) :
    basesOf rng levels seed baseQty jitter ≠ [] := by
  intro h
  have hlen := length_basesOf rng levels seed baseQty jitter
  have hmin : 1 ≤ clampLevels levels := le_max_left _ _
  rw [h, List.length_nil] at hlen
  omega

theorem sum_basesOf_pos : 0 < (basesOf rng levels seed baseQty jitter).sum := by
  have hone := one_le_drawnBases rng baseQty jitter (clampLevels levels).toNat (rng.seeded seed)
  rw [← basesOf] at hone
  refine List.sum_pos _ (fun b hb => ?_) (basesOf_ne_nil rng levels seed baseQty jitter)
  have := hone b hb
  omega

/-- A book leans as far as the parts of its quantities do. -/
theorem bidAskImbalance_depthEvent (symbol exchange : String) (ts : Timestamp)
    (h : synthesizeDepth rng ltp tickSize levels imbalance seed spreadTicks baseQty jitter = .ok book) :
    (depthEvent symbol exchange ts book).depth.bidAskImbalance =
      let bases := basesOf rng levels seed baseQty jitter
      round (((bases.map (TowardZero.part (clampImbalance imbalance))).sum : Int) / (bases.sum : Int)) 4 := by
  obtain ⟨hb, ha⟩ := quantity_depthEvent symbol exchange ts h
  have hpos : 0 < (basesOf rng levels seed baseQty jitter).sum := sum_basesOf_pos
  rw [MarketDepth.bidAskImbalance, hb, ha, if_neg (by omega), round_eq, ← Int.cast_sub, ← Int.cast_add,
    add_sub_sub_cancel, add_add_sub_cancel, ← two_mul, ← two_mul, Int.cast_mul, Int.cast_mul, mul_div_mul_left _ _ (by norm_num)]

/-- Whatever is drawn, a published book leans to the side it is told to and not past what it is told, but for the
rounding of its report, and what truncation loses is less than one for each level. -/
theorem synthesizeDepth_leans (symbol exchange : String) (ts : Timestamp)
    (h : synthesizeDepth rng ltp tickSize levels imbalance seed spreadTicks baseQty jitter = .ok book) :
    let depth := (depthEvent symbol exchange ts book).depth
    |depth.bidAskImbalance| ≤ round |clampImbalance imbalance| 4 ∧
      0 ≤ clampImbalance imbalance * depth.bidAskImbalance ∧
      |clampImbalance imbalance - depth.bidAskImbalance| <
        2 * clampLevels levels / (depth.bidQuantity + depth.askQuantity : Int) + 1 / 20000 := by
  obtain ⟨hb, ha⟩ := quantity_depthEvent symbol exchange ts h
  have hone : ∀ b ∈ basesOf rng levels seed baseQty jitter, 1 ≤ b := one_le_drawnBases _ _ _ _ _
  have hpos : (0 : Rat) < ((basesOf rng levels seed baseQty jitter).sum : Int) := by exact_mod_cast sum_basesOf_pos
  have hle := TowardZero.abs_sum_parts_le (clampImbalance imbalance) hone
  have hside := TowardZero.mul_sum_parts_nonneg (clampImbalance imbalance) hone
  have hlost := TowardZero.abs_sub_sum_parts_lt (clampImbalance imbalance)
    (basesOf_ne_nil rng levels seed baseQty jitter)
  have hlen := length_basesOf rng levels seed baseQty jitter
  have himb := bidAskImbalance_depthEvent symbol exchange ts h
  simp only at hb ha himb ⊢
  rw [hb, ha, himb, add_add_sub_cancel, ← two_mul]
  generalize hS : (basesOf rng levels seed baseQty jitter).sum = S at *
  generalize hD : ((basesOf rng levels seed baseQty jitter).map (TowardZero.part (clampImbalance imbalance))).sum = D at *
  refine ⟨?_, ?_, ?_⟩
  · rw [round_eq, HalfEven.abs_decimals, ← round_eq]
    refine round_mono ?_ 4
    rw [abs_div, abs_of_pos hpos, div_le_iff₀ hpos, mul_comm]
    exact hle
  · rw [round_eq]
    refine HalfEven.mul_decimals_nonneg ?_ 4
    rw [← mul_div_assoc]
    exact div_nonneg hside hpos.le
  · have hdist : |clampImbalance imbalance - (D : Rat) / S| < clampLevels levels / S := by
      rw [lt_div_iff₀ hpos, ← abs_of_pos hpos, ← abs_mul, abs_of_pos hpos, sub_mul, div_mul_cancel₀ _ hpos.ne', mul_comm,
        ← hlen]
      exact hlost
    have hround := abs_round_sub_le ((D : Rat) / S) 4
    have hhalf : 2 * (clampLevels levels : Rat) / (2 * S : Int) = clampLevels levels / S := by
      rw [Int.cast_mul]
      exact mul_div_mul_left _ _ (by norm_num)
    rw [hhalf]
    calc
      _ ≤ |clampImbalance imbalance - (D : Rat) / S| + |(D : Rat) / S - round (D / S) 4| := abs_sub_le _ _ _
      _ < clampLevels levels / S + 1 / 2 / 10 ^ 4 := add_lt_add_of_lt_of_le hdist (by rwa [abs_sub_comm])
      _ = _ := by norm_num

theorem synthesizeDepth_leans_half : ∃ book,
    synthesizeDepth (scripted 1 1 true) 100 (1 / 20) 5 (1 / 2) 0 1 100 (3 / 10) = .ok book ∧
      |(depthEvent "NIFTY" "NSE" (.aware 0) book).depth.bidAskImbalance| ≤ 1 / 2 := by
  obtain ⟨book, h⟩ := exists_book (scripted 1 1 true) (show 0 < 1 / 20 by norm_num) (show 0 < 100 by norm_num) 5 (1 / 2) 0 1 100
    (3 / 10)
  have hcap : round |clampImbalance (1 / 2)| 4 ≤ 1 / 2 := by decide +kernel
  exact ⟨book, h, (synthesizeDepth_leans "NIFTY" "NSE" (.aware 0) h).1.trans hcap⟩

/-- The levels of a published book, in ticks from zero. -/
private theorem prices_depthEvent (symbol exchange : String) (ts : Timestamp)
    (h : synthesizeDepth rng ltp tickSize levels imbalance seed spreadTicks baseQty jitter = .ok book) :
    let depth := (depthEvent symbol exchange ts book).depth
    let price (n : Int) := HalfEven.decimals (n * tickSize) 4
    let m := roundHalfEven (ltp / tickSize)
    depth.bids.map (·.price) = (List.range (clampLevels levels).toNat).map (fun k : Nat => price (m - (max 0 spreadTicks + k + 1))) ∧
      depth.asks.map (·.price) = (List.range (clampLevels levels).toNat).map (fun k : Nat => price (m + (max 0 spreadTicks + k + 1))) := by
  obtain ⟨-, -, rfl⟩ := synthesizeDepth_ok h
  obtain ⟨hb, ha⟩ := bookLevels_prices rng (roundHalfEven (ltp / tickSize) * tickSize) tickSize (clampImbalance imbalance)
    (max 0 spreadTicks) baseQty jitter (clampLevels levels).toNat 0 (rng.seeded seed)
  rw [← List.range_eq_range'] at hb ha
  constructor
  · simp only [DepthEvent.depth, depthEvent, depthToWire, List.map_map]
    refine hb.trans (List.map_congr_left fun k _ => ?_)
    rw [levelPrice_eq, neg_one_mul, ← sub_eq_add_neg]
  · simp only [DepthEvent.depth, depthEvent, depthToWire, List.map_map]
    refine ha.trans (List.map_congr_left fun k _ => ?_)
    rw [levelPrice_eq, one_mul]

/-- The tick nearest to a price is less than a tick away on either side, after rounding. -/
private theorem ladder_straddles (htick : 1 / 10000 ≤ tickSize) (ltp : Rat) {n : Int} (hn : 1 ≤ n) :
    let price (n : Int) := HalfEven.decimals (n * tickSize) 4
    price (roundHalfEven (ltp / tickSize) - n) < ltp ∧ ltp < price (roundHalfEven (ltp / tickSize) + n) := by
  have hpos : 0 < tickSize := lt_of_lt_of_le (by norm_num) htick
  have hstep : 1 ≤ tickSize * 10 ^ 4 := by linarith
  have hnear : |(roundHalfEven (ltp / tickSize) : Rat) * tickSize - ltp| ≤ tickSize / 2 := by
    have hmul : (roundHalfEven (ltp / tickSize) : Rat) * tickSize - ltp =
        (roundHalfEven (ltp / tickSize) - ltp / tickSize) * tickSize := by
      rw [sub_mul, div_mul_cancel₀ _ hpos.ne']
    have hhalf : |(roundHalfEven (ltp / tickSize) : Rat) - ltp / tickSize| ≤ 1 / 2 := HalfEven.abs_nearest_sub_le _
    rw [hmul, abs_mul, abs_of_pos hpos]
    linarith [mul_le_mul_of_nonneg_right hhalf hpos.le]
  have hn' : tickSize ≤ n * tickSize := le_mul_of_one_le_left hpos.le (by exact_mod_cast hn)
  have hbelow := abs_lt.mp (HalfEven.abs_decimals_mul_sub_lt hstep (roundHalfEven (ltp / tickSize) - n))
  have habove := abs_lt.mp (HalfEven.abs_decimals_mul_sub_lt hstep (roundHalfEven (ltp / tickSize) + n))
  rw [abs_le] at hnear
  push_cast [sub_mul, add_mul] at hbelow habove ⊢
  constructor <;> linarith

/-- With a tick that its prices can tell, a published book falls away from the price on both sides of it; its bids are
above zero as long as the price is more ticks high than the book is deep. -/
theorem synthesizeDepth_ladder (symbol exchange : String) (ts : Timestamp) (htick : 1 / 10000 ≤ tickSize)
    (h : synthesizeDepth rng ltp tickSize levels imbalance seed spreadTicks baseQty jitter = .ok book) :
    let depth := (depthEvent symbol exchange ts book).depth
    depth.bids.length = clampLevels levels ∧ depth.asks.length = clampLevels levels ∧
      depth.bids.Pairwise (fun a b => b.price < a.price) ∧ depth.asks.Pairwise (fun a b => a.price < b.price) ∧
      (∀ b ∈ depth.bids, b.price < ltp) ∧ (∀ a ∈ depth.asks, ltp < a.price) ∧
      ((∀ b ∈ depth.bids, 0 < b.price) ↔
        max 0 spreadTicks + clampLevels levels < roundHalfEven (ltp / tickSize)) := by
  intro depth
  obtain ⟨hb, ha⟩ := prices_depthEvent symbol exchange ts h
  have hmono : StrictMono fun n : Int => HalfEven.decimals (n * tickSize) 4 :=
    fun _ _ h => HalfEven.decimals_mul_lt (by linarith) h
  have hlevels : 1 ≤ clampLevels levels := le_max_left _ _
  have hspread : 0 ≤ max 0 spreadTicks := le_max_left _ _
  have hbids (p : Rat → Prop) : (∀ b ∈ depth.bids, p b.price) ↔ ∀ q ∈ depth.bids.map (·.price), p q := by
    rw [List.forall_mem_map]
  have hasks (p : Rat → Prop) : (∀ a ∈ depth.asks, p a.price) ↔ ∀ q ∈ depth.asks.map (·.price), p q := by
    rw [List.forall_mem_map]
  refine ⟨?_, ?_, ?_, ?_, ?_, ?_, ?_⟩
  · rw [← List.length_map, hb, List.length_map, List.length_range, Int.toNat_of_nonneg (by omega)]
  · rw [← List.length_map, ha, List.length_map, List.length_range, Int.toNat_of_nonneg (by omega)]
  · rw [← List.pairwise_map (R := fun a b => b < a), hb, List.pairwise_map]
    exact List.pairwise_lt_range.imp fun hlt => hmono (by omega)
  · rw [← List.pairwise_map (R := fun a b => a < b), ha, List.pairwise_map]
    exact List.pairwise_lt_range.imp fun hlt => hmono (by omega)
  · rw [hbids (· < ltp), hb, List.forall_mem_map]
    exact fun k _ => (ladder_straddles htick ltp (by omega)).1
  · rw [hasks (ltp < ·), ha, List.forall_mem_map]
    exact fun k _ => (ladder_straddles htick ltp (by omega)).2
  · have hzero : HalfEven.decimals (((0 : Int) : Rat) * tickSize) 4 = 0 := by
      rw [Int.cast_zero, zero_mul, HalfEven.decimals_zero]
    have hpos (n : Int) : 0 < HalfEven.decimals (n * tickSize) 4 ↔ 0 < n := by
      rw [← hzero]
      exact hmono.lt_iff_lt
    rw [hbids (0 < ·), hb, List.forall_mem_map]
    simp only [hpos, List.mem_range]
    constructor
    · intro hall
      have := hall ((clampLevels levels).toNat - 1) (by omega)
      omega
    · intro hdeep k hk
      omega

theorem synthesizeDepth_ladder_deep : ∃ book,
    synthesizeDepth (scripted 1 1 true) (1 / 5) (1 / 20) 5 0 0 1 100 (3 / 10) = .ok book ∧
      ¬ ∀ b ∈ (depthEvent "NIFTY" "NSE" (.aware 0) book).depth.bids, 0 < b.price := by
  obtain ⟨book, h⟩ := exists_book (scripted 1 1 true) (show 0 < 1 / 20 by norm_num) (show 0 < 1 / 5 by norm_num) 5 0 0 1 100
    (3 / 10)
  obtain ⟨-, -, -, -, -, -, hpos⟩ := synthesizeDepth_ladder "NIFTY" "NSE" (.aware 0) (by norm_num) h
  exact ⟨book, h, fun hall => absurd (hpos.mp hall) (by decide +kernel)⟩

end Books

section BarMode
variable {σ : Type} {rng : Rng σ} {settings : DepthSettings} {symbol exchange : String} {ts : Timestamp}
  {open_ close : Rat} {event : DepthEvent}

/-- The quantities that the sources draw a level around. -/
theorem drawnBases_mem (hu : UniformWithin rng) (n : Nat) (s : σ) :
    ∀ b ∈ drawnBases rng DEFAULT_BASE_QTY DEFAULT_JITTER n s, 70 ≤ b ∧ b ≤ 130 := by
  induction n generalizing s with
  | zero => intro b hb; cases hb
  | succ n ih =>
    intro b hb
    rcases List.mem_cons.mp hb with rfl | hb
    · obtain ⟨hlow, hhigh⟩ := hu s (show -DEFAULT_JITTER ≤ DEFAULT_JITTER by decide +kernel)
      have hbase : (drawLevel rng DEFAULT_BASE_QTY DEFAULT_JITTER s).1.1 =
          max 1 (TowardZero.trunc (100 * (1 + (rng.uniform s (-DEFAULT_JITTER) DEFAULT_JITTER).1))) := rfl
      generalize (rng.uniform s (-DEFAULT_JITTER) DEFAULT_JITTER).1 = u at hlow hhigh hbase
      rw [DEFAULT_JITTER] at hlow hhigh
      have hfloor : TowardZero.trunc (100 * (1 + u)) = ⌊100 * (1 + u)⌋ := if_pos (by linarith)
      have h70 : 70 ≤ ⌊100 * (1 + u)⌋ := Int.le_floor.mpr (by push_cast; linarith)
      have h130 : ⌊100 * (1 + u)⌋ < 131 := Int.floor_lt.mpr (by push_cast; linarith)
      rw [hbase, hfloor]
      omega
    · exact ih _ b hb

/-- A source with some levels has a book for every bar that closes above zero. -/
theorem exists_event {σ : Type} (rng : Rng σ) (settings : DepthSettings) (ht : 0 < settings.depthTickSize)
    (hn : 0 < settings.depthLevels) {close : Rat} (hl : 0 < close) (symbol exchange : String) (ts : Timestamp) (open_ : Rat) :
    ∃ event, settings.event rng symbol exchange ts open_ close = .ok (some event) := by
  obtain ⟨book, h⟩ := exists_book rng ht hl (max 0 settings.depthLevels) (settings.imbalance open_ close)
    settings.depthSeed DEFAULT_SPREAD_TICKS DEFAULT_BASE_QTY DEFAULT_JITTER
  exact ⟨_, by rw [DepthSettings.event, if_pos (lt_max_of_lt_right hn), h]; rfl⟩

private theorem event_ok (h : settings.event rng symbol exchange ts open_ close = .ok (some event)) :
    ∃ book, synthesizeDepth rng close settings.depthTickSize (max 0 settings.depthLevels) (settings.imbalance open_ close)
      settings.depthSeed DEFAULT_SPREAD_TICKS DEFAULT_BASE_QTY DEFAULT_JITTER = .ok book ∧
        event = depthEvent symbol exchange ts book := by
  rw [DepthSettings.event] at h
  split_ifs at h
  · generalize synthesizeDepth rng close settings.depthTickSize (max 0 settings.depthLevels)
      (settings.imbalance open_ close) settings.depthSeed DEFAULT_SPREAD_TICKS DEFAULT_BASE_QTY DEFAULT_JITTER = made at h
    cases made with
    | error e => cases h
    | ok book => exact ⟨book, rfl, (Option.some.inj (Except.ok.inj h)).symm⟩
  · cases h

theorem barImbalance_swap (open_ close scale : Rat) : barImbalance close open_ scale = -barImbalance open_ close scale := by
  rw [barImbalance, barImbalance]
  rcases lt_trichotomy open_ close with h | rfl | h
  · rw [if_neg h.not_gt, if_pos h, if_pos h]
  · simp
  · rw [if_pos h, if_neg h.not_gt, if_pos h, neg_neg]

theorem imbalance_swap (hmode : settings.depthImbalanceMode = "bar") (open_ close : Rat) :
    clampImbalance (settings.imbalance close open_) = -clampImbalance (settings.imbalance open_ close) := by
  rw [DepthSettings.imbalance, DepthSettings.imbalance, if_pos hmode, if_pos hmode, barImbalance_swap, clampImbalance_neg]

/-- A bar and the bar that moves back have books of the same quantities, on the other sides. -/
theorem barMode_mirror (hmode : settings.depthImbalanceMode = "bar") {symbol' exchange' : String} {ts' : Timestamp}
    {event' : DepthEvent} (h : settings.event rng symbol exchange ts open_ close = .ok (some event))
    (h' : settings.event rng symbol' exchange' ts' close open_ = .ok (some event')) :
    event'.depth.bidQuantity = event.depth.askQuantity ∧ event'.depth.askQuantity = event.depth.bidQuantity ∧
      event'.depth.bidAskImbalance = -event.depth.bidAskImbalance := by
  obtain ⟨book, hbook, rfl⟩ := event_ok h
  obtain ⟨book', hbook', rfl⟩ := event_ok h'
  obtain ⟨hb, ha⟩ := quantity_depthEvent symbol exchange ts hbook
  obtain ⟨hb', ha'⟩ := quantity_depthEvent symbol' exchange' ts' hbook'
  rw [imbalance_swap hmode, TowardZero.sum_parts_neg] at hb' ha'
  have hbids : (depthEvent symbol' exchange' ts' book').depth.bidQuantity =
      (depthEvent symbol exchange ts book).depth.askQuantity := by
    rw [hb', ha, sub_eq_add_neg]
  have hasks : (depthEvent symbol' exchange' ts' book').depth.askQuantity =
      (depthEvent symbol exchange ts book).depth.bidQuantity := by
    rw [ha', hb, sub_neg_eq_add]
  exact ⟨hbids, hasks, MarketDepth.bidAskImbalance_swap hbids hasks⟩

theorem barMode_mirror_back :
    let settings : DepthSettings := { depthLevels := 5, depthImbalanceMode := "bar" }
    ∃ event event', settings.event (scripted 1 1 true) "NIFTY" "NSE" (.aware 0) 99 101 = .ok (some event) ∧
      settings.event (scripted 1 1 true) "NIFTY" "NSE" (.aware 60000000) 101 99 = .ok (some event') ∧
        event'.depth.bidAskImbalance = -event.depth.bidAskImbalance := by
  intro settings
  obtain ⟨event, h⟩ := exists_event (scripted 1 1 true) settings (by norm_num [settings]) (by norm_num [settings])
    (show 0 < 101 by norm_num) "NIFTY" "NSE" (.aware 0) 99
  obtain ⟨event', h'⟩ := exists_event (scripted 1 1 true) settings (by norm_num [settings]) (by norm_num [settings])
    (show 0 < 99 by norm_num) "NIFTY" "NSE" (.aware 60000000) 101
  exact ⟨event, event', h, h', (barMode_mirror rfl h h').2.2⟩

/-- A share of a seventieth takes one of each quantity at least, which the report of the imbalance shows. -/
private theorem round_parts_pos {bases : List Int} (hne : bases ≠ []) (hmem : ∀ b ∈ bases, 70 ≤ b ∧ b ≤ 130)
    {share : Rat} (hshare : 1 / 70 ≤ share) :
    0 < round (((bases.map (TowardZero.part share)).sum : Int) / (bases.sum : Int)) 4 := by
  have hpart (b : Int) (hb : b ∈ bases) : 1 ≤ TowardZero.part share b := by
    have h70 : (70 : Rat) ≤ b := by exact_mod_cast (hmem b hb).1
    have hone : (1 : Rat) ≤ b * share := by
      calc
        (1 : Rat) = 70 * (1 / 70) := by norm_num
        _ ≤ b * share := mul_le_mul h70 hshare (by norm_num) (by linarith)
    rw [TowardZero.part, TowardZero.trunc, if_pos (by linarith)]
    exact Int.le_floor.mpr (by exact_mod_cast hone)
  have hparts := List.card_nsmul_le_sum (bases.map (TowardZero.part share)) 1 fun p hp => by
    obtain ⟨b, hb, rfl⟩ := List.mem_map.mp hp
    exact hpart b hb
  have hlow := List.card_nsmul_le_sum bases 70 fun b hb => (hmem b hb).1
  have hhigh := List.sum_le_card_nsmul bases 130 fun b hb => (hmem b hb).2
  have hlen := List.length_pos_iff.mpr hne
  rw [List.length_map] at hparts
  simp only [nsmul_eq_mul, mul_one] at hparts hlow hhigh
  have hpos : (0 : Rat) < (bases.sum : Int) := by exact_mod_cast (by omega : 0 < bases.sum)
  have hratio : (1 : Rat) / 10000 ≤ ((bases.map (TowardZero.part share)).sum : Int) / (bases.sum : Int) := by
    rw [le_div_iff₀ hpos, div_mul_eq_mul_div, one_mul, div_le_iff₀ (by norm_num)]
    exact_mod_cast (by omega : bases.sum ≤ (bases.map (TowardZero.part share)).sum * 10000)
  calc
    (0 : Rat) < round (1 / 10000) 4 := by decide +kernel
    _ ≤ _ := round_mono hratio 4

/-- Where the books follow the bars, a published book leans the way its bar has moved, as long as the imbalance that
is asked for is left out or takes one of each quantity. -/
theorem barMode_leans (hu : UniformWithin rng) (hmode : settings.depthImbalanceMode = "bar")
    (hscale : settings.depthImbalance = 0 ∨ 1 / 70 ≤ |settings.depthImbalance|)
    (h : settings.event rng symbol exchange ts open_ close = .ok (some event)) :
    (0 < event.depth.bidAskImbalance ↔ open_ < close) ∧ (event.depth.bidAskImbalance < 0 ↔ close < open_) := by
  obtain ⟨book, hbook, rfl⟩ := event_ok h
  have himb := bidAskImbalance_depthEvent symbol exchange ts hbook
  have hne := basesOf_ne_nil rng (max 0 settings.depthLevels) settings.depthSeed DEFAULT_BASE_QTY DEFAULT_JITTER
  have hmem : ∀ b ∈ basesOf rng (max 0 settings.depthLevels) settings.depthSeed DEFAULT_BASE_QTY DEFAULT_JITTER,
      70 ≤ b ∧ b ≤ 130 := drawnBases_mem hu _ _
  simp only [DepthSettings.imbalance, if_pos hmode] at himb
  have hshare : 1 / 70 ≤ clampImbalance (if settings.depthImbalance = 0 then 1 / 2 else |settings.depthImbalance|) := by
    refine le_max_of_le_right (le_min (by norm_num) ?_)
    split_ifs with hzero
    · norm_num
    · exact hscale.resolve_left hzero
  generalize (if settings.depthImbalance = 0 then 1 / 2 else |settings.depthImbalance|) = scale at himb hshare
  have hup := round_parts_pos hne hmem hshare
  rw [himb]
  rcases lt_trichotomy open_ close with hmove | rfl | hmove
  · rw [barImbalance, if_pos hmove]
    exact ⟨iff_of_true hup hmove, iff_of_false hup.not_gt hmove.not_gt⟩
  · have hflat : clampImbalance (barImbalance open_ open_ scale) = 0 := by
      rw [barImbalance, if_neg (lt_irrefl _), if_neg (lt_irrefl _)]
      decide +kernel
    rw [hflat, TowardZero.sum_parts_zero, Int.cast_zero, zero_div, round_eq, HalfEven.decimals_zero]
    exact ⟨iff_of_false (lt_irrefl _) (lt_irrefl _), iff_of_false (lt_irrefl _) (lt_irrefl _)⟩
  · rw [barImbalance, if_neg hmove.not_gt, if_pos hmove, clampImbalance_neg, TowardZero.sum_parts_neg, Int.cast_neg, neg_div, round_eq,
      HalfEven.decimals_neg, ← round_eq, neg_pos, neg_lt_zero]
    exact ⟨iff_of_false hup.not_gt hmove.not_gt, iff_of_true hup hmove⟩

theorem barMode_leans_up :
    let settings : DepthSettings := { depthLevels := 5, depthImbalanceMode := "bar" }
    ∃ event, settings.event (scripted 1 1 true) "NIFTY" "NSE" (.aware 0) 99 101 = .ok (some event) ∧
      0 < event.depth.bidAskImbalance := by
  intro settings
  obtain ⟨event, h⟩ := exists_event (scripted 1 1 true) settings (by norm_num [settings]) (by norm_num [settings])
    (show 0 < 101 by norm_num) "NIFTY" "NSE" (.aware 0) 99
  exact ⟨event, h, (barMode_leans (uniformWithin_scripted 1 1 true) rfl (.inl rfl) h).1.mpr (by norm_num)⟩

end BarMode

end NTrade.Sim
