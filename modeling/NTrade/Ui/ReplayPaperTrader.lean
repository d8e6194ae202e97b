import NTrade.Ui.MergeLive
import Mathlib.Data.Rat.Floor

/-! The paper account of a bar replay. Signals open positions at their price with a stop and a target, later bars close
them at these levels, and an opposite signal turns them around. -/
namespace NTrade.Ui.ReplayPaperTrader
open NTrade.Lib.Grouping NTrade.Ui.MergeLive

inductive Side where
  | buy | sell
  deriving DecidableEq, Repr

structure HalfTrendMarker where
  time : Rat
  side : Side
  price : Rat
  ht : Option Rat
  deriving DecidableEq, Repr

inductive ExitReason where
  | takeProfit | stopLoss | reversal | manualFlatten
  deriving DecidableEq, Repr

/-- A position; its id is the time and the side of its marker, which the source writes as text. -/
structure ActivePosition where
  id : Rat × Side
  side : Side
  qty : Int
  entryPrice : Rat
  entryTime : Rat
  sl : Option Rat
  tp : Option Rat
  deriving DecidableEq, Repr

structure ReplayPosition extends ActivePosition where
  symbol : String
  currentPrice : Rat
  unrealizedPnl : Rat
  returnPct : Rat
  deriving DecidableEq, Repr

structure ReplayTrade where
  id : Rat × Side
  symbol : String
  side : Side
  qty : Int
  entryPrice : Rat
  entryTime : Rat
  exitPrice : Rat
  exitTime : Rat
  pnl : Rat
  returnPct : Rat
  exitReason : ExitReason
  deriving DecidableEq, Repr

/-- The account; its return is `none` where the division by the capital is not a number. -/
structure ReplayPaperAccount where
  initialCapital : Rat
  balance : Rat
  equity : Rat
  realizedPnl : Rat
  unrealizedPnl : Rat
  totalPnl : Rat
  returnPct : Option Rat
  nTrades : Nat
  winTrades : Nat
  lossTrades : Nat
  winRate : Rat
  openPosition : Option ReplayPosition
  trades : List ReplayTrade
  deriving DecidableEq, Repr

/-- `x || y` of numbers. -/
def orNumber (x y : Rat) : Rat := if x = 0 then y else x

/-- `Math.max(1, Math.round(lotSize || 1))`. -/
def effectiveLotSize (lotSize : Rat) : Int := max 1 ⌊orNumber lotSize 1 + 1 / 2⌋

def pnlOf (side : Side) (entryPrice price : Rat) (qty : Int) : Rat :=
  match side with
  | Side.buy => (price - entryPrice) * qty
  | Side.sell => (entryPrice - price) * qty

def returnPctOf (side : Side) (entryPrice price : Rat) : Rat :=
  if 0 < entryPrice then (price - entryPrice) / entryPrice * 100 * (if side = Side.buy then 1 else -1) else 0

/-- The stop or the target that a bar hits, the stop first. -/
def exitOf (pos : ActivePosition) (c : Candle) : Option (Rat × ExitReason) :=
  match pos.side with
  | Side.buy =>
    ((pos.sl.filter fun sl => c.low ≤ sl).map fun sl => (sl, ExitReason.stopLoss)).or
      ((pos.tp.filter fun tp => tp ≤ c.high).map fun tp => (tp, ExitReason.takeProfit))
  | Side.sell =>
    ((pos.sl.filter fun sl => sl ≤ c.high).map fun sl => (sl, ExitReason.stopLoss)).or
      ((pos.tp.filter fun tp => c.low ≤ tp).map fun tp => (tp, ExitReason.takeProfit))

/-- The price of a signal, `marker.price || c.close`. -/
def signalPrice (marker : HalfTrendMarker) (c : Candle) : Rat := orNumber marker.price c.close

def levelsOf (marker : HalfTrendMarker) (entryPrice : Rat) : Rat × Rat :=
  match marker.side with
  | Side.buy =>
    let channel := marker.ht.filter fun ht => ht < entryPrice
    let risk := (channel.map fun ht => entryPrice - ht).getD (entryPrice * (15 / 1000))
    (channel.getD (entryPrice - risk), entryPrice + risk * 2)
  | Side.sell =>
    let channel := marker.ht.filter fun ht => entryPrice < ht
    let risk := (channel.map fun ht => ht - entryPrice).getD (entryPrice * (15 / 1000))
    (channel.getD (entryPrice + risk), entryPrice - risk * 2)

def openAt (lot : Int) (marker : HalfTrendMarker) (c : Candle) : ActivePosition :=
  let levels := levelsOf marker (signalPrice marker c)
  { id := (marker.time, marker.side), side := marker.side, qty := lot, entryPrice := signalPrice marker c
    entryTime := c.time, sl := some levels.1, tp := some levels.2 }

def closedTrade (symbol : String) (pos : ActivePosition) (exitPrice exitTime : Rat) (reason : ExitReason) : ReplayTrade :=
  { id := pos.id, symbol, side := pos.side, qty := pos.qty, entryPrice := pos.entryPrice, entryTime := pos.entryTime
    exitPrice, exitTime, pnl := pnlOf pos.side pos.entryPrice exitPrice pos.qty
    returnPct := returnPctOf pos.side pos.entryPrice exitPrice, exitReason := reason }

/-- What the loop over the bars keeps; the trades are in the order of their ends. -/
structure Book where
  balance : Rat
  closedTrades : List ReplayTrade
  activePos : Option ActivePosition

def Book.close (b : Book) (trade : ReplayTrade) : Book :=
  { balance := b.balance + trade.pnl, closedTrades := b.closedTrades ++ [trade], activePos := none }

def checkExit (symbol : String) (c : Candle) (b : Book) : Book :=
  match b.activePos with
  | none => b
  | some pos =>
    match exitOf pos c with
    | none => b
    | some (price, reason) => b.close (closedTrade symbol pos price c.time reason)

/-- An opposite signal closes the position. -/
def checkReversal (symbol : String) (c : Candle) (marker : HalfTrendMarker) (b : Book) : Book :=
  match b.activePos with
  | none => b
  | some pos =>
    if pos.side ≠ marker.side then
      b.close (closedTrade symbol pos (signalPrice marker c) c.time ExitReason.reversal)
    else b

def openIfFlat (lot : Int) (c : Candle) (marker : HalfTrendMarker) (b : Book) : Book :=
  match b.activePos with
  | none => { b with activePos := some (openAt lot marker c) }
  | some _ => b

def onSignal (symbol : String) (lot : Int) (c : Candle) (b : Book) (marker : HalfTrendMarker) : Book :=
  openIfFlat lot c marker (checkReversal symbol c marker b)

/-- The loop over the next markers: those up to the bar are taken, those of its time are signals. -/
def takeMarkers (symbol : String) (lot : Int) (c : Candle) : List HalfTrendMarker → Book → Book × List HalfTrendMarker
  | [], b => (b, [])
  | marker :: markers, b =>
    if marker.time ≤ c.time then
      takeMarkers symbol lot c markers (if marker.time = c.time then onSignal symbol lot c b marker else b)
    else (b, marker :: markers)

def onBar (symbol : String) (lot : Int) (s : Book × List HalfTrendMarker) (c : Candle) : Book × List HalfTrendMarker :=
  takeMarkers symbol lot c s.2 (checkExit symbol c s.1)

def activeMarkersOf (last : Candle) (markers : List HalfTrendMarker) : List HalfTrendMarker :=
  sortBy HalfTrendMarker.time (markers.filter fun m => m.time ≤ last.time)

def runBars (symbol : String) (lot : Int) (initialCapital : Rat) (activeMarkers : List HalfTrendMarker)
    (candles : List Candle) : Book × List HalfTrendMarker :=
  candles.foldl (onBar symbol lot) (⟨initialCapital, [], none⟩, activeMarkers)

def openPositionOf (symbol : String) (last : Candle) (pos : ActivePosition) : ReplayPosition :=
  { pos with
    symbol, currentPrice := last.close
    unrealizedPnl := pnlOf pos.side pos.entryPrice last.close pos.qty
    returnPct := returnPctOf pos.side pos.entryPrice last.close }

def summary (symbol : String) (initialCapital : Rat) (last : Candle) (b : Book) : ReplayPaperAccount :=
  let openPosition := b.activePos.map (openPositionOf symbol last)
  let unrealizedPnl := (openPosition.map ReplayPosition.unrealizedPnl).getD 0
  let realizedPnl := b.balance - initialCapital
  let totalPnl := realizedPnl + unrealizedPnl
  let winTrades := b.closedTrades.countP fun t => 0 < t.pnl
  { initialCapital, balance := b.balance, equity := b.balance + unrealizedPnl, realizedPnl, unrealizedPnl, totalPnl
    returnPct := if initialCapital = 0 then none else some (totalPnl / initialCapital * 100)
    nTrades := b.closedTrades.length, winTrades, lossTrades := b.closedTrades.countP fun t => t.pnl < 0
    winRate := if 0 < b.closedTrades.length then (winTrades : Rat) / b.closedTrades.length * 100 else 0
    openPosition, trades := b.closedTrades.reverse }

def simulateReplayPaperTrades (candles : List Candle) (markers : Option (List HalfTrendMarker)) (symbol : String)
    (lotSize initialCapital : Rat) : ReplayPaperAccount :=
  match candles.getLast?, markers with
  | some last, some (m :: ms) =>
    summary symbol initialCapital last
      (runBars symbol (effectiveLotSize lotSize) initialCapital (activeMarkersOf last (m :: ms)) candles).1
  | _, _ =>
    { initialCapital, balance := initialCapital, equity := initialCapital, realizedPnl := 0, unrealizedPnl := 0
      totalPnl := 0, returnPct := some 0, nTrades := 0, winTrades := 0, lossTrades := 0, winRate := 0
      openPosition := none, trades := [] }

section Runs
variable (symbol : String) (lot : Int) (initialCapital : Rat) (candles : List Candle) (markers : List HalfTrendMarker)

def Opened (pos : ActivePosition) : Prop :=
  ∃ m ∈ markers, ∃ c ∈ candles, m.time = c.time ∧ pos = openAt lot m c

/-- A trade closed a position at a bar, at a level that the bar hit or by a reversal. -/
def Closed (t : ReplayTrade) : Prop :=
  ∃ pos, Opened lot candles markers pos ∧ ∃ c ∈ candles, pos.entryTime ≤ c.time ∧
    ∃ price reason, t = closedTrade symbol pos price c.time reason ∧
      (exitOf pos c = some (price, reason) ∨ reason = ExitReason.reversal)

structure Kept (now : Rat) (b : Book) : Prop where
  balance : b.balance = initialCapital + (b.closedTrades.map ReplayTrade.pnl).sum
  apart : b.closedTrades.Pairwise fun t t' => t.exitTime ≤ t'.entryTime
  closed : ∀ t ∈ b.closedTrades, Closed symbol lot candles markers t ∧ t.exitTime ≤ now
  active : ∀ pos ∈ b.activePos, Opened lot candles markers pos ∧ pos.entryTime ≤ now ∧
    ∀ t ∈ b.closedTrades, t.exitTime ≤ pos.entryTime

variable {symbol lot initialCapital candles markers} {now : Rat} {b : Book} {c : Candle}

theorem kept_initial (now : Rat) :
    Kept symbol lot initialCapital candles markers now ⟨initialCapital, [], none⟩ := by
  constructor
  · exact (add_zero _).symm
  · exact List.Pairwise.nil
  · exact fun t ht => absurd ht List.not_mem_nil
  · exact fun pos hp => absurd hp (Option.not_mem_none pos)

theorem Kept.mono (h : Kept symbol lot initialCapital candles markers now b) {now' : Rat} (hn : now ≤ now') :
    Kept symbol lot initialCapital candles markers now' b where
  balance := h.balance
  apart := h.apart
  closed t ht := ⟨(h.closed t ht).1, (h.closed t ht).2.trans hn⟩
  active pos hp := ⟨(h.active pos hp).1, (h.active pos hp).2.1.trans hn, (h.active pos hp).2.2⟩

/-- A position is closed at a level that the bar hit, or by a reversal. -/
theorem Kept.close (h : Kept symbol lot initialCapital candles markers c.time b) (hc : c ∈ candles)
    {pos : ActivePosition} (hp : b.activePos = some pos) {price : Rat} {reason : ExitReason}
    (hr : exitOf pos c = some (price, reason) ∨ reason = ExitReason.reversal) :
    Kept symbol lot initialCapital candles markers c.time (b.close (closedTrade symbol pos price c.time reason)) := by
  obtain ⟨hopened, hentry, hafter⟩ := h.active pos hp
  constructor
  · simp only [Book.close, List.map_append, List.map_singleton, List.sum_append, List.sum_singleton]
    rw [h.balance, add_assoc]
  · apply List.pairwise_append.mpr
    refine ⟨h.apart, List.pairwise_singleton _ _, fun t ht t' ht' => ?_⟩
    rw [List.mem_singleton.mp ht']
    exact hafter t ht
  · intro t ht
    rcases List.mem_append.mp ht with ht | ht
    · exact h.closed t ht
    · rw [List.mem_singleton.mp ht]
      exact ⟨⟨pos, hopened, c, hc, hentry, price, reason, rfl, hr⟩, le_refl _⟩
  · exact fun pos hp => absurd hp (Option.not_mem_none pos)

theorem Kept.checkExit (h : Kept symbol lot initialCapital candles markers c.time b) (hc : c ∈ candles) :
    Kept symbol lot initialCapital candles markers c.time (checkExit symbol c b) := by
  unfold ReplayPaperTrader.checkExit
  cases hp : b.activePos with
  | none => exact h
  | some pos =>
    simp only
    cases he : exitOf pos c with
    | none => exact h
    | some exit => exact h.close hc hp (.inl he)

theorem Kept.onSignal (h : Kept symbol lot initialCapital candles markers c.time b) (hc : c ∈ candles)
    {marker : HalfTrendMarker} (hm : marker ∈ markers) (ht : marker.time = c.time) :
    Kept symbol lot initialCapital candles markers c.time (onSignal symbol lot c b marker) := by
  have hrev : Kept symbol lot initialCapital candles markers c.time (checkReversal symbol c marker b) := by
    unfold checkReversal
    cases hp : b.activePos with
    | none => exact h
    | some pos =>
      simp only
      split_ifs
      · exact h.close hc hp (.inr rfl)
      · exact h
  unfold ReplayPaperTrader.onSignal openIfFlat
  split
  · refine ⟨hrev.balance, hrev.apart, hrev.closed, ?_⟩
    intro pos hpos
    obtain rfl := Option.mem_some_iff.mp hpos
    exact ⟨⟨marker, hm, c, hc, ht, rfl⟩, le_refl _, fun t ht => (hrev.closed t ht).2⟩
  · exact hrev

theorem Kept.takeMarkers {left : List HalfTrendMarker} (hl : left ⊆ markers)
    (h : Kept symbol lot initialCapital candles markers c.time b) (hc : c ∈ candles) :
    Kept symbol lot initialCapital candles markers c.time (takeMarkers symbol lot c left b).1 ∧
      (takeMarkers symbol lot c left b).2 ⊆ markers := by
  induction left generalizing b with
  | nil => exact ⟨h, hl⟩
  | cons marker left ih =>
    obtain ⟨hm, hleft⟩ := List.cons_subset.mp hl
    rw [ReplayPaperTrader.takeMarkers]
    split_ifs with hle ht
    · exact ih hleft (h.onSignal hc hm ht)
    · exact ih hleft h
    · exact ⟨h, hl⟩

/-- One bar keeps the books. -/
theorem Kept.onBar {left : List HalfTrendMarker} (hl : left ⊆ markers)
    (h : Kept symbol lot initialCapital candles markers now b) (hn : now ≤ c.time) (hc : c ∈ candles) :
    Kept symbol lot initialCapital candles markers c.time (onBar symbol lot (b, left) c).1 ∧
      (onBar symbol lot (b, left) c).2 ⊆ markers :=
  ((h.mono hn).checkExit hc).takeMarkers hl hc

/-- The books are kept over a run of bars. -/
theorem kept_runBars {activeMarkers : List HalfTrendMarker} (ha : activeMarkers ⊆ markers) {seen : List Candle}
    (hseen : seen ⊆ candles) (hchr : Chronological seen) (hnow : ∀ c ∈ seen, c.time ≤ now) :
    Kept symbol lot initialCapital candles markers now (runBars symbol lot initialCapital activeMarkers seen).1 ∧
      (runBars symbol lot initialCapital activeMarkers seen).2 ⊆ markers := by
  induction seen using List.reverseRecOn generalizing now with
  | nil => exact ⟨kept_initial now, ha⟩
  | append_singleton seen c ih =>
    obtain ⟨hchr', -, hlast⟩ := List.pairwise_append.mp hchr
    obtain ⟨hsub, hc⟩ := List.append_subset.mp hseen
    have hbefore : ∀ c' ∈ seen, c'.time ≤ c.time := fun c' hc' => (hlast c' hc' c (by simp)).le
    obtain ⟨hkept, hleft⟩ := ih hsub hchr' hbefore
    rw [runBars, List.foldl_concat]
    obtain ⟨hkept', hleft'⟩ := hkept.onBar hleft (le_refl _) (hc (by simp))
    exact ⟨hkept'.mono (hnow c (by simp)), hleft'⟩

end Runs

/-- A level that a falling bar hits: the stop of a long position, or the target of a short one. -/
def hitFalling (side : Side) (reason : ExitReason) : Bool :=
  match side with
  | Side.buy => reason = ExitReason.stopLoss
  | Side.sell => reason = ExitReason.takeProfit

def Reached (c : Candle) (falling : Bool) (level : Rat) : Prop := if falling then c.low ≤ level else level ≤ c.high

def Beyond (c : Candle) (falling : Bool) (level : Rat) : Prop := if falling then c.high < level else level < c.low

theorem traded_iff {c : Candle} {falling : Bool} {level : Rat} (h : Reached c falling level) :
    (c.low ≤ level ∧ level ≤ c.high) ↔ ¬ Beyond c falling level := by
  cases falling with
  | true => exact ⟨fun ht => not_lt.mpr ht.2, fun hb => ⟨h, not_lt.mp hb⟩⟩
  | false => exact ⟨fun ht => not_lt.mpr ht.1, fun hb => ⟨not_lt.mp hb, h⟩⟩

/-- A position is closed at its stop or at its target, which the bar reached. -/
theorem exitOf_reached {pos : ActivePosition} {c : Candle} {price : Rat} {reason : ExitReason}
    (h : exitOf pos c = some (price, reason)) :
    (reason = ExitReason.stopLoss ∧ pos.sl = some price ∨ reason = ExitReason.takeProfit ∧ pos.tp = some price) ∧
      Reached c (hitFalling pos.side reason) price := by
  unfold exitOf at h
  cases hs : pos.side with
  | buy =>
    simp only [hs, Option.or_eq_some_iff, Option.map_eq_some_iff, Option.filter_eq_some_iff, Prod.mk.injEq,
      decide_eq_true_eq] at h
    rcases h with ⟨sl, ⟨hsl, hle⟩, rfl, rfl⟩ | ⟨-, tp, ⟨htp, hle⟩, rfl, rfl⟩
    · exact ⟨.inl ⟨rfl, hsl⟩, hle⟩
    · exact ⟨.inr ⟨rfl, htp⟩, hle⟩
  | sell =>
    simp only [hs, Option.or_eq_some_iff, Option.map_eq_some_iff, Option.filter_eq_some_iff, Prod.mk.injEq,
      decide_eq_true_eq] at h
    rcases h with ⟨sl, ⟨hsl, hle⟩, rfl, rfl⟩ | ⟨-, tp, ⟨htp, hle⟩, rfl, rfl⟩
    · exact ⟨.inl ⟨rfl, hsl⟩, hle⟩
    · exact ⟨.inr ⟨rfl, htp⟩, hle⟩

def levelOf (m : HalfTrendMarker) (entryPrice : Rat) (reason : ExitReason) : Rat :=
  if reason = ExitReason.stopLoss then (levelsOf m entryPrice).1 else (levelsOf m entryPrice).2

def AtLevel (candles : List Candle) (markers : List HalfTrendMarker) (t : ReplayTrade) : Prop :=
  (∃ m ∈ markers, m.time = t.entryTime ∧ m.side = t.side ∧ t.exitPrice = levelOf m t.entryPrice t.exitReason) ∧
  ∃ c ∈ candles, c.time = t.exitTime ∧ Reached c (hitFalling t.side t.exitReason) t.exitPrice ∧
    ((c.low ≤ t.exitPrice ∧ t.exitPrice ≤ c.high) ↔ ¬ Beyond c (hitFalling t.side t.exitReason) t.exitPrice)

theorem Closed.atLevel {symbol : String} {lot : Int} {candles : List Candle} {markers : List HalfTrendMarker}
    {t : ReplayTrade} (h : Closed symbol lot candles markers t) (hr : t.exitReason ≠ ExitReason.reversal) :
    AtLevel candles markers t := by
  obtain ⟨pos, ⟨m, hm, c0, -, ht, rfl⟩, c, hc, -, price, reason, rfl, he | rfl⟩ := h
  · obtain ⟨hlevel, hreached⟩ := exitOf_reached he
    refine ⟨⟨m, hm, ht, rfl, ?_⟩, c, hc, rfl, hreached, traded_iff hreached⟩
    rcases hlevel with ⟨rfl, hsl⟩ | ⟨rfl, htp⟩
    · exact (Option.some.inj hsl).symm
    · exact (Option.some.inj htp).symm
  · exact absurd rfl hr

structure Accounted (candles : List Candle) (markers : List HalfTrendMarker) (a : ReplayPaperAccount) : Prop where
  balance : a.balance = a.initialCapital + (a.trades.map ReplayTrade.pnl).sum
  equity : a.equity = a.balance + a.unrealizedPnl
  forward : ∀ t ∈ a.trades, t.entryTime ≤ t.exitTime
  apart : a.trades.Pairwise fun newer older => older.exitTime ≤ newer.entryTime
  levels : ∀ t ∈ a.trades, t.exitReason ≠ ExitReason.reversal → AtLevel candles markers t

theorem accounted_empty (candles : List Candle) (markers : List HalfTrendMarker) {a : ReplayPaperAccount}
    (hb : a.balance = a.initialCapital) (he : a.equity = a.balance + a.unrealizedPnl) (ht : a.trades = []) :
    Accounted candles markers a := by
  constructor
  · simp [ht, hb]
  · exact he
  · simp [ht]
  · simp [ht]
  · simp [ht]

/-- The paper account of a replay: its balance is the capital and the profits of its trades, its equity has what is
open on top, its trades come one after the other, and a stop or a target closes at the level that the entry fixed, on
a bar that reached it. The bar traded at that price unless it lies past it as a whole. -/
theorem simulateReplayPaperTrades_accounted (candles : List Candle) (hchr : Chronological candles)
    (markers : Option (List HalfTrendMarker)) (symbol : String) (lotSize initialCapital : Rat) :
    Accounted candles (markers.getD []) (simulateReplayPaperTrades candles markers symbol lotSize initialCapital) := by
  unfold simulateReplayPaperTrades
  split
  · rename_i last m ms hlast
    have hactive : activeMarkersOf last (m :: ms) ⊆ m :: ms := fun x hx =>
      List.mem_of_mem_filter ((perm_sortBy HalfTrendMarker.time _).mem_iff.mp hx)
    have hkept : Kept symbol (effectiveLotSize lotSize) initialCapital candles (m :: ms) last.time
        (runBars symbol (effectiveLotSize lotSize) initialCapital (activeMarkersOf last (m :: ms)) candles).1 :=
      (kept_runBars hactive (List.Subset.refl candles) hchr (hchr.time_le_last hlast)).1
    constructor
    · simp [summary, hkept.balance]
    · rfl
    · intro t ht
      obtain ⟨pos, -, c, -, hle, price, reason, rfl, -⟩ := (hkept.closed t (List.mem_reverse.mp ht)).1
      exact hle
    · exact List.pairwise_reverse.mpr hkept.apart
    · intro t ht hr
      exact (hkept.closed t (List.mem_reverse.mp ht)).1.atLevel hr
  · exact accounted_empty _ _ rfl (add_zero _).symm rfl

def gapMarkers : List HalfTrendMarker := [⟨1000, Side.buy, 100, some 95⟩]

def gapCandles : List Candle := [⟨1000, 100, 102, 98, 100, 100⟩, ⟨2000, 90, 92, 88, 91, 100⟩]

theorem gap_accounted :
    Accounted gapCandles gapMarkers (simulateReplayPaperTrades gapCandles (some gapMarkers) "NIFTY" 10 1000000) := by
  apply simulateReplayPaperTrades_accounted gapCandles _ (some gapMarkers)
  rw [Chronological, gapCandles, List.pairwise_pair]
  decide +kernel

/-- The stop closes at 95 on a bar that traded between 88 and 92. -/
theorem stop_beyond_bar : ¬ ∀ (candles : List Candle) (markers : Option (List HalfTrendMarker)) (symbol : String)
    (lotSize initialCapital : Rat), Chronological candles →
      ∀ t ∈ (simulateReplayPaperTrades candles markers symbol lotSize initialCapital).trades,
        t.exitReason ≠ ExitReason.reversal →
          ∃ c ∈ candles, c.time = t.exitTime ∧ c.low ≤ t.exitPrice ∧ t.exitPrice ≤ c.high := by
  intro hall
  have hchr : Chronological gapCandles := by
    rw [Chronological, gapCandles, List.pairwise_pair]
    decide +kernel
  have htrades := hall gapCandles (some gapMarkers) "NIFTY" 10 1000000 hchr
  revert htrades
  decide +kernel

end NTrade.Ui.ReplayPaperTrader
