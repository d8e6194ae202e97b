import NTrade.Engines.PortfolioEngine

/-! The backtest run: the fills of each bar, the holding costs of futures and the equity
curve. What a strategy trades while a bar is published is an input. -/
namespace NTrade.Backtest
open NTrade.Domain NTrade.Events NTrade.Engines NTrade.Execution NTrade.Lib

structure FuturesCarryCosts where
  riskFree : Rat := 65 / 1000
  dividendYield : Rat := 0
  rollPct : Rat := 2 / 10000
  carryWindowDays : Int := 5
  deriving DecidableEq, Repr

namespace FuturesCarryCosts
variable (costs : FuturesCarryCosts)

def dailyCarry (notional : Rat) (days : Int) : Rat :=
  if days ≤ 0 then 0 else notional * (costs.riskFree - costs.dividendYield) * days / 365

def rollCost (notional : Rat) : Rat := notional * costs.rollPct

/-- Whether a date is in the run-up to the expiry. -/
def withinWindow (expiry : Option Int) (now : Int) : Bool :=
  match expiry with
  | none => false
  | some expiry => 0 ≤ expiry - now ∧ expiry - now ≤ costs.carryWindowDays

end FuturesCarryCosts

structure BacktestConfig where
  symbol : String := "NIFTY"
  initialCash : Rat := 100000
  futuresCosts : Option FuturesCarryCosts := none
  /-- The expiry of a registered future, which may have none; other symbols are no futures. -/
  future : String → Option (Option Int) := fun _ => none

inductive ChargeKind where
  | roll | carry
  deriving DecidableEq, Repr

/-- A call of `_deduct_futures`. -/
structure Charge where
  kind : ChargeKind
  symbol : String
  amount : Rat
  deriving DecidableEq, Repr

structure Bar where
  date : Int
  close : Rat
  fills : List OrderFilled := []

structure BacktestSimulator where
  ctx : TradingContext
  fills : List OrderFilled := []
  lastCarryDate : Option Int := none
  rolled : List String := []
  futuresCostsTotal : Rat := 0
  curveRows : List (Int × Rat) := []
  /-- What was deducted, in order; the code keeps the sums only. -/
  charged : List Charge := []

structure BacktestResult where
  finalEquity : Rat
  totalReturnPct : Rat
  trades : List OrderFilled
  equityCurve : List (Int × Rat)
  commissionsTotal : Rat
  statutoryTotal : Rat
  futuresCostsTotal : Rat

def BacktestResult.costsTotal (r : BacktestResult) : Rat :=
  round (r.commissionsTotal + r.statutoryTotal + r.futuresCostsTotal) 4

/-- The price that holding costs are charged on: the entry, or the last price without one. -/
def carryPrice (p : Domain.Position) : Rat := orElse p.avgPrice p.ltp

def carryNotional (p : Domain.Position) : Rat := carryPrice p * |(p.quantity : Rat)|

namespace BacktestSimulator
variable (cfg : BacktestConfig)

def new : BacktestSimulator where
  ctx := { balance := cfg.initialCash }

/-- The portfolio engine books a fill and the simulator records it. -/
def onFill (b : BacktestSimulator) (e : OrderFilled) : BacktestSimulator :=
  { b with ctx := onFilled e b.ctx, fills := b.fills ++ [e] }

def deductFutures (c : Charge) (b : BacktestSimulator) : BacktestSimulator :=
  let b := { b with charged := b.charged ++ [c] }
  if c.amount = 0 then b
  else
    { b with
      futuresCostsTotal := round (b.futuresCostsTotal + |c.amount|) 4
      ctx := { b.ctx with balance := round (b.ctx.balance - c.amount) 4 } }

/-- A position pays its roll once, past its expiry. -/
def chargeRoll (costs : FuturesCarryCosts) (expiry : Option Int) (today : Int) (p : Domain.Position)
    (b : BacktestSimulator) : BacktestSimulator :=
  if expiry.any (· < today) ∧ p.symbol ∉ b.rolled then
    deductFutures ⟨.roll, p.symbol, costs.rollCost (carryNotional p)⟩ { b with rolled := p.symbol :: b.rolled }
  else b

/-- A position pays for the days since the last bar, where this one is in its window; a short receives. -/
def chargeCarry (costs : FuturesCarryCosts) (expiry : Option Int) (today : Int) (p : Domain.Position)
    (b : BacktestSimulator) : BacktestSimulator :=
  match b.lastCarryDate with
  | none => b
  | some last =>
    if last < today ∧ costs.withinWindow expiry today then
      let carry := costs.dailyCarry (carryNotional p) (today - last)
      deductFutures ⟨.carry, p.symbol, if p.quantity < 0 then -carry else carry⟩ b
    else b

def chargePosition (costs : FuturesCarryCosts) (today : Int) (b : BacktestSimulator) (p : Domain.Position) :
    BacktestSimulator :=
  match cfg.future p.symbol with
  | none => b
  | some expiry => chargeCarry costs expiry today p (chargeRoll costs expiry today p b)

def applyFuturesCosts (today : Int) (b : BacktestSimulator) : BacktestSimulator :=
  match cfg.futuresCosts with
  | none => b
  | some costs => { b.ctx.positions.foldl (chargePosition cfg costs today) b with lastCarryDate := some today }

def markToMarket (today : Int) (close : Rat) (b : BacktestSimulator) : BacktestSimulator :=
  let value := b.ctx.quantity cfg.symbol * close
  { b with
    ctx := { b.ctx with
      positions := Keyed.revise Domain.Position.symbol cfg.symbol (fun p => { p with ltp := close }) b.ctx.positions }
    curveRows := b.curveRows ++ [(today, round (b.ctx.balance + value) 2)] }

def runBar (b : BacktestSimulator) (bar : Bar) : BacktestSimulator :=
  markToMarket cfg bar.date bar.close (applyFuturesCosts cfg bar.date (bar.fills.foldl onFill b))

/-- What a run starts from: the books stay, the curve and the holding costs do not. -/
def restart (b : BacktestSimulator) : BacktestSimulator :=
  { b with curveRows := [], lastCarryDate := none, rolled := [], futuresCostsTotal := 0 }

def results (b : BacktestSimulator) : Except String BacktestResult :=
  let final := (b.curveRows.getLast?.map Prod.snd).getD cfg.initialCash
  if cfg.initialCash = 0 then .error "float division by zero"
  else .ok
    { finalEquity := round final 2
      totalReturnPct := round ((final - cfg.initialCash) / cfg.initialCash * 100) 2
      trades := b.fills
      equityCurve := b.curveRows
      commissionsTotal := round (b.fills.map OrderFilled.commission).sum 4
      statutoryTotal := round (b.fills.map OrderFilled.statutory).sum 4
      futuresCostsTotal := b.futuresCostsTotal }

/-- Run the bars of a frame; what the run leaves behind stays when its result cannot be told. -/
def run (data : List Bar) (b : BacktestSimulator) : BacktestSimulator × Except String BacktestResult :=
  match data with
  | [] => (b, .error "data must be a non-empty OHLCV frame")
  | bar :: bars =>
    let b := (bar :: bars).foldl (runBar cfg) (restart b)
    (b, results cfg b)

/-! What a bar charges. -/
section Dues
variable {cfg} {b : BacktestSimulator} {costs : FuturesCarryCosts} {expiry : Option Int} {today : Int}
  {p : Domain.Position} {c : Charge}

def rollDue (costs : FuturesCarryCosts) (expiry : Option Int) (today : Int) (rolled : List String)
    (p : Domain.Position) : List Charge :=
  if expiry.any (· < today) ∧ p.symbol ∉ rolled then [⟨.roll, p.symbol, costs.rollCost (carryNotional p)⟩] else []

def carryDue (costs : FuturesCarryCosts) (expiry last : Option Int) (today : Int) (p : Domain.Position) : List Charge :=
  match last with
  | none => []
  | some last =>
    if last < today ∧ costs.withinWindow expiry today then
      let carry := costs.dailyCarry (carryNotional p) (today - last)
      [⟨.carry, p.symbol, if p.quantity < 0 then -carry else carry⟩]
    else []

@[simp] theorem charged_deductFutures : (deductFutures c b).charged = b.charged ++ [c] := by
  rw [deductFutures]
  dsimp only
  split <;> rfl

@[simp] theorem positions_deductFutures : (deductFutures c b).ctx.positions = b.ctx.positions := by
  rw [deductFutures]
  dsimp only
  split <;> rfl

@[simp] theorem lastCarryDate_deductFutures : (deductFutures c b).lastCarryDate = b.lastCarryDate := by
  rw [deductFutures]
  dsimp only
  split <;> rfl

@[simp] theorem rolled_deductFutures : (deductFutures c b).rolled = b.rolled := by
  rw [deductFutures]
  dsimp only
  split <;> rfl

/-- What charging a position leaves, but for the totals. -/
theorem chargePosition_spec (h : cfg.future p.symbol = some expiry) :
    let b' := chargePosition cfg costs today b p
    b'.charged = b.charged ++ rollDue costs expiry today b.rolled p ++ carryDue costs expiry b.lastCarryDate today p ∧
      b'.ctx.positions = b.ctx.positions ∧ b'.lastCarryDate = b.lastCarryDate ∧
      b'.rolled = if expiry.any (· < today) ∧ p.symbol ∉ b.rolled then p.symbol :: b.rolled else b.rolled := by
  have hroll : (chargeRoll costs expiry today p b).charged = b.charged ++ rollDue costs expiry today b.rolled p ∧
      (chargeRoll costs expiry today p b).ctx.positions = b.ctx.positions ∧
      (chargeRoll costs expiry today p b).lastCarryDate = b.lastCarryDate ∧
      (chargeRoll costs expiry today p b).rolled =
        if expiry.any (· < today) ∧ p.symbol ∉ b.rolled then p.symbol :: b.rolled else b.rolled := by
    rw [chargeRoll, rollDue]
    split <;> simp
  have hcarry (b : BacktestSimulator) :
      (chargeCarry costs expiry today p b).charged = b.charged ++ carryDue costs expiry b.lastCarryDate today p ∧
      (chargeCarry costs expiry today p b).ctx.positions = b.ctx.positions ∧
      (chargeCarry costs expiry today p b).lastCarryDate = b.lastCarryDate ∧
      (chargeCarry costs expiry today p b).rolled = b.rolled := by
    rw [chargeCarry]
    cases hl : b.lastCarryDate with
    | none => simp [carryDue, hl]
    | some last =>
      rw [carryDue]
      dsimp only
      split <;> simp [hl]
  obtain ⟨hc, hp, hl, hr⟩ := hroll
  obtain ⟨hc', hp', hl', hr'⟩ := hcarry (chargeRoll costs expiry today p b)
  rw [chargePosition, h]
  exact ⟨by rw [hc', hc, hl], hp'.trans hp, hl'.trans hl, hr'.trans hr⟩

/-- A long owes its carry, a short the same with the other sign. -/
theorem signed_dailyCarry {days : Int} (hd : 0 < days) :
    (if p.quantity < 0 then -costs.dailyCarry (carryNotional p) days else costs.dailyCarry (carryNotional p) days) =
      (costs.riskFree - costs.dividendYield) * (carryPrice p * p.quantity) * days / 365 := by
  rw [FuturesCarryCosts.dailyCarry, if_neg (not_le.mpr hd), carryNotional]
  split
  · next hq =>
    rw [abs_of_neg (by exact_mod_cast hq)]
    ring
  · next hq =>
    rw [abs_of_nonneg (by exact_mod_cast not_lt.mp hq)]
    ring

theorem carryDue_some (last : Int) : carryDue costs expiry (some last) today p =
    if last < today ∧ costs.withinWindow expiry today then
      [⟨.carry, p.symbol, (costs.riskFree - costs.dividendYield) * (carryPrice p * p.quantity) * (today - last : Int) / 365⟩]
    else [] := by
  rw [carryDue]
  dsimp only
  split
  · next h => rw [signed_dailyCarry (Int.sub_pos.mpr h.1)]
  · rfl

theorem mem_carryDue {last : Option Int} (h : c ∈ carryDue costs expiry last today p) :
    ∃ day, last = some day ∧ day < today ∧ costs.withinWindow expiry today ∧
      c = ⟨.carry, p.symbol, (costs.riskFree - costs.dividendYield) * (carryPrice p * p.quantity) * (today - day : Int) / 365⟩ := by
  cases last with
  | none => cases h
  | some day =>
    rw [carryDue_some] at h
    split at h
    · next hd => exact ⟨day, rfl, hd.1, hd.2, List.mem_singleton.mp h⟩
    · cases h

theorem mem_rollDue {rolled : List String} (h : c ∈ rollDue costs expiry today rolled p) :
    c = ⟨.roll, p.symbol, costs.rollCost (carryNotional p)⟩ := by
  rw [rollDue] at h
  split at h
  · exact List.mem_singleton.mp h
  · cases h

theorem chargePosition_none (h : cfg.future p.symbol = none) : chargePosition cfg costs today b p = b := by
  rw [chargePosition, h]

/-- Charging leaves the positions and the date of the last bar. -/
theorem foldl_chargePosition_keeps (ps : List Domain.Position) (b : BacktestSimulator) :
    (ps.foldl (chargePosition cfg costs today) b).ctx.positions = b.ctx.positions ∧
      (ps.foldl (chargePosition cfg costs today) b).lastCarryDate = b.lastCarryDate := by
  induction ps generalizing b with
  | nil => exact ⟨rfl, rfl⟩
  | cons p ps ih =>
    obtain ⟨hp, hl⟩ := ih (chargePosition cfg costs today b p)
    rw [List.foldl_cons, hp, hl]
    cases hfut : cfg.future p.symbol with
    | none =>
      rw [chargePosition_none hfut]
      exact ⟨rfl, rfl⟩
    | some expiry =>
      obtain ⟨-, hp', hl', -⟩ := @chargePosition_spec cfg b costs expiry today p hfut
      exact ⟨hp', hl'⟩

@[simp] theorem positions_applyFuturesCosts :
    (applyFuturesCosts cfg today b).ctx.positions = b.ctx.positions := by
  rw [applyFuturesCosts]
  split
  · rfl
  · exact (foldl_chargePosition_keeps _ b).1

/-- Fills are no part of what was charged. -/
theorem foldl_onFill_keeps (fills : List OrderFilled) (b : BacktestSimulator) :
    (fills.foldl onFill b).charged = b.charged ∧ (fills.foldl onFill b).lastCarryDate = b.lastCarryDate ∧
      (fills.foldl onFill b).rolled = b.rolled := by
  induction fills generalizing b with
  | nil => exact ⟨rfl, rfl, rfl⟩
  | cons e fills ih => exact ih (onFill b e)

end Dues

section Positions
variable {cfg} {b : BacktestSimulator}

def Unique (b : BacktestSimulator) : Prop := (b.ctx.positions.map Domain.Position.symbol).Nodup

theorem Unique.onFills (h : Unique b) (fills : List OrderFilled) : Unique (fills.foldl onFill b) := by
  induction fills generalizing b with
  | nil => exact h
  | cons e fills ih =>
    apply ih
    exact onFilled_positions_nodup h

theorem positions_runBar (b : BacktestSimulator) (bar : Bar) :
    (runBar cfg b bar).ctx.positions = Keyed.revise Domain.Position.symbol cfg.symbol
      (fun p => { p with ltp := bar.close }) (bar.fills.foldl onFill b).ctx.positions :=
  congrArg (Keyed.revise _ _ _) positions_applyFuturesCosts

theorem Unique.runBar (h : Unique b) (bar : Bar) : Unique (runBar cfg b bar) := by
  rw [Unique, positions_runBar, Keyed.map_key_revise]
  · exact h.onFills bar.fills
  · exact fun _ hp => hp

theorem Unique.runBars (h : Unique b) (bars : List Bar) : Unique (bars.foldl (BacktestSimulator.runBar cfg) b) := by
  induction bars generalizing b with
  | nil => exact h
  | cons bar bars ih =>
    apply ih
    exact h.runBar bar

end Positions
end BacktestSimulator

inductive Reached (cfg : BacktestConfig) : BacktestSimulator → Prop
  | new : Reached cfg (.new cfg)
  | run {b : BacktestSimulator} (data : List Bar) (h : Reached cfg b) : Reached cfg (b.run cfg data).1

theorem Reached.unique {cfg : BacktestConfig} {b : BacktestSimulator} (h : Reached cfg b) : b.Unique := by
  induction h with
  | new => exact List.nodup_nil
  | @run b data _ ih =>
    cases data with
    | nil => exact ih
    | cons bar bars =>
      have hrestart : b.restart.Unique := ih
      exact hrestart.runBars (bar :: bars)

end NTrade.Backtest
