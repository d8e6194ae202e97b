import NTrade.Backtest.Simulator
import NTrade.Lib.Drift
import Mathlib.Tactic.LinearCombination

/-! The cash of a backtest against its fills and the costs it reports. A holding cost that a
position earns is paid into the account and reported as a cost. -/
namespace NTrade.Backtest
open NTrade.Domain NTrade.Events NTrade.Engines NTrade.Execution NTrade.Lib BacktestSimulator

def halfUnit : Rat := 1 / 2 / 10 ^ PRICE_PRECISION

def deducted (cs : List Charge) : Rat := (cs.map Charge.amount).sum

def earned (cs : List Charge) : Rat := (cs.map fun c => max (-c.amount) 0).sum

/-- The cash that the fills and the reported costs of a run leave. -/
def cashOf (cfg : BacktestConfig) (r : BacktestResult) : Rat :=
  cfg.initialCash - buyNotional r.trades + sellNotional r.trades - r.costsTotal

def markedValue (cfg : BacktestConfig) (b : BacktestSimulator) : Rat :=
  ((b.ctx.position cfg.symbol).map fun p => (p.quantity : Rat) * p.ltp).getD 0

/-- The roundings behind the cash and the costs: one for a fill, two for a charge, three of the totals. -/
def roundings (b : BacktestSimulator) : Nat := b.fills.length + 2 * b.charged.length + 3

structure Accounted (cfg : BacktestConfig) (b : BacktestSimulator) (r : BacktestResult) : Prop where
  cash : Drift halfUnit (roundings b) b.ctx.balance (cashOf cfg r)
  equity : |r.finalEquity - (b.ctx.balance + markedValue cfg b)| ≤ 1 / 2 / 10 ^ 2

/-- No future earns at this bar: rolling costs, and a long pays its carry where it pays any. -/
def Pays (cfg : BacktestConfig) (today : Int) (b : BacktestSimulator) : Prop :=
  ∀ costs, cfg.futuresCosts = some costs → ∀ p ∈ b.ctx.positions, ∀ expiry, cfg.future p.symbol = some expiry →
    0 ≤ costs.rollCost (carryNotional p) ∧
      ∀ last, b.lastCarryDate = some last → last < today → costs.withinWindow expiry today →
        0 ≤ (costs.riskFree - costs.dividendYield) * (carryPrice p * p.quantity)

/-- No future earns at any bar of a run, once its fills are booked. -/
def PaysThroughout (cfg : BacktestConfig) : BacktestSimulator → List Bar → Prop
  | _, [] => True
  | b, bar :: bars => Pays cfg bar.date (bar.fills.foldl onFill b) ∧ PaysThroughout cfg (runBar cfg b bar) bars

section Writes
variable {cfg : BacktestConfig} {b : BacktestSimulator} {P : BacktestSimulator → Prop}

/-- What fills and charges keep, and the date, the prices, the contracts rolled and the curve are no part of. -/
structure Kept (P : BacktestSimulator → Prop) : Prop where
  fill : ∀ b e, P b → P (b.onFill e)
  deduct : ∀ b c, P b → P (deductFutures c b)
  other : ∀ b b', P b → b'.ctx.balance = b.ctx.balance → b'.fills = b.fills →
    b'.futuresCostsTotal = b.futuresCostsTotal → b'.charged = b.charged → P b'

theorem Kept.chargePosition (h : Kept P) (costs : FuturesCarryCosts) (today : Int) (p : Domain.Position) (hb : P b) :
    P (chargePosition cfg costs today b p) := by
  rw [BacktestSimulator.chargePosition]
  split
  · exact hb
  · next expiry _ =>
    have hroll : P (chargeRoll costs expiry today p b) := by
      rw [chargeRoll]
      split
      · apply h.deduct
        exact h.other b _ hb rfl rfl rfl rfl
      · exact hb
    rw [chargeCarry]
    split
    · exact hroll
    · split
      · exact h.deduct _ _ hroll
      · exact hroll

theorem Kept.runBar (h : Kept P) (bar : Bar) (hb : P b) : P (runBar cfg b bar) := by
  have hfills : P (bar.fills.foldl onFill b) := by
    induction bar.fills generalizing b with
    | nil => exact hb
    | cons e fills ih => exact ih (h.fill b e hb)
  have hcosts : P (applyFuturesCosts cfg bar.date (bar.fills.foldl onFill b)) := by
    rw [applyFuturesCosts]
    split
    · exact hfills
    · next costs _ =>
      have hfold : ∀ (ps : List Domain.Position) (b : BacktestSimulator), P b →
          P (ps.foldl (BacktestSimulator.chargePosition cfg costs bar.date) b) := by
        intro ps
        induction ps with
        | nil => exact fun _ hb => hb
        | cons p ps ih => exact fun b hb => ih _ (h.chargePosition costs bar.date p hb)
      exact h.other _ _ (hfold _ _ hfills) rfl rfl rfl rfl
  exact h.other _ _ hcosts rfl rfl rfl rfl

theorem Kept.runBars (h : Kept P) (bars : List Bar) (hb : P b) :
    P (bars.foldl (BacktestSimulator.runBar cfg) b) := by
  induction bars generalizing b with
  | nil => exact hb
  | cons bar bars ih => exact ih (h.runBar bar hb)

end Writes

section Balance
variable {cfg : BacktestConfig} {b : BacktestSimulator}

theorem round_near (x : Rat) : |round x PRICE_PRECISION - x| ≤ halfUnit := abs_round_sub_le x _

theorem halfUnit_nonneg : 0 ≤ halfUnit := by decide +kernel

def Balanced (cfg : BacktestConfig) (b : BacktestSimulator) : Prop :=
  Drift halfUnit (b.fills.length + b.charged.length) b.ctx.balance
    (cfg.initialCash + (b.fills.map proceeds).sum - totalCharges b.fills - deducted b.charged)

theorem kept_balanced : Kept (Balanced cfg) where
  fill b e h := by
    have hmove := Drift.move round_near h (proceeds e - charges e)
    have hbal : (b.onFill e).ctx.balance = round (b.ctx.balance + (proceeds e - charges e)) PRICE_PRECISION :=
      congrArg (round · PRICE_PRECISION) (add_sub_assoc _ _ _)
    have hfills : (b.onFill e).fills = b.fills ++ [e] := rfl
    have hcharged : (b.onFill e).charged = b.charged := rfl
    rw [Balanced, hbal, hfills, hcharged, List.length_append, List.length_singleton, Nat.add_right_comm]
    convert hmove using 1
    simp only [totalCharges, List.map_append, List.map_singleton, List.sum_append, List.sum_singleton]
    ring
  deduct b c h := by
    have hded : deducted (b.charged ++ [c]) = deducted b.charged + c.amount := by simp [deducted]
    rw [Balanced, charged_deductFutures, hded, List.length_append, List.length_singleton, ← Nat.add_assoc]
    by_cases hc : c.amount = 0
    · have hsame : deductFutures c b = { b with charged := b.charged ++ [c] } := if_pos hc
      rw [hsame, hc, add_zero]
      exact h.mono halfUnit_nonneg (Nat.le_succ _)
    · have hmove := Drift.move round_near h (-c.amount)
      have hbal : (deductFutures c b).ctx.balance = round (b.ctx.balance + -c.amount) PRICE_PRECISION := by
        rw [deductFutures]
        dsimp only
        rw [if_neg hc, ← sub_eq_add_neg]
        rfl
      have hfills : (deductFutures c b).fills = b.fills := by
        rw [deductFutures]
        dsimp only
        rw [if_neg hc]
      rw [hbal, hfills]
      convert hmove using 1
      ring
  other b b' h hbal hfills _ hcharged := by
    rw [Balanced, hbal, hfills, hcharged]
    exact h

/-- In every simulator that runs lead to. -/
theorem balanced_of_reached (h : Reached cfg b) : Balanced cfg b := by
  induction h with
  | new =>
    have hz := Drift.refl halfUnit cfg.initialCash
    simpa [Balanced, BacktestSimulator.new, totalCharges, deducted] using hz
  | @run b data _ ih =>
    cases data with
    | nil => exact ih
    | cons bar bars =>
      have hrestart : Balanced cfg (restart b) := ih
      exact kept_balanced.runBars (bar :: bars) hrestart

end Balance

section Totals
variable {cfg : BacktestConfig} {b : BacktestSimulator} {bars : List Bar}

/-- Since its start a run has charged something, and its total follows that up to its roundings. -/
def Totalled (start b : BacktestSimulator) : Prop :=
  ∃ new, b.charged = start.charged ++ new ∧
    Drift halfUnit new.length b.futuresCostsTotal (new.map fun c => |c.amount|).sum

theorem kept_totalled (start : BacktestSimulator) : Kept (Totalled start) where
  fill _ _ h := h
  deduct b c := by
    rintro ⟨new, hnew, hd⟩
    refine ⟨new ++ [c], by rw [charged_deductFutures, hnew, List.append_assoc], ?_⟩
    rw [List.length_append, List.length_singleton, List.map_append, List.sum_append, List.map_singleton,
      List.sum_singleton]
    by_cases hc : c.amount = 0
    · have hsame : deductFutures c b = { b with charged := b.charged ++ [c] } := if_pos hc
      rw [hsame, hc, abs_zero, add_zero]
      exact hd.mono halfUnit_nonneg (Nat.le_succ _)
    · have htotal : (deductFutures c b).futuresCostsTotal =
          round (b.futuresCostsTotal + |c.amount|) PRICE_PRECISION := by
        rw [deductFutures]
        dsimp only
        rw [if_neg hc]
        rfl
      rw [htotal]
      exact hd.move round_near _
  other b b' := by
    rintro ⟨new, hnew, hd⟩ _ _ htotal hcharged
    exact ⟨new, hcharged.trans hnew, htotal ▸ hd⟩

/-- A charge is what was deducted, and twice what was paid in. -/
theorem sum_abs_amount (cs : List Charge) : (cs.map fun c => |c.amount|).sum = deducted cs + 2 * earned cs := by
  induction cs with
  | nil => simp [deducted, earned]
  | cons c cs ih =>
    have hc : |c.amount| = c.amount + 2 * max (-c.amount) 0 := by
      rcases le_total 0 c.amount with h | h
      · rw [abs_of_nonneg h, max_eq_right (neg_nonpos.mpr h), mul_zero, add_zero]
      · rw [abs_of_nonpos h, max_eq_left (neg_nonneg.mpr h)]
        ring
    rw [List.map_cons, List.sum_cons, ih, hc, deducted, deducted, earned, earned, List.map_cons, List.sum_cons,
      List.map_cons, List.sum_cons]
    ring

theorem sum_charges (fills : List OrderFilled) :
    totalCharges fills = (fills.map OrderFilled.commission).sum + (fills.map OrderFilled.statutory).sum := by
  induction fills with
  | nil => simp [totalCharges]
  | cons e fills ih =>
    rw [totalCharges] at ih ⊢
    rw [List.map_cons, List.sum_cons, ih, charges, List.map_cons, List.sum_cons, List.map_cons, List.sum_cons]
    ring

end Totals

section Earnings
variable {cfg : BacktestConfig} {b : BacktestSimulator}

/-- `b'` has charged more than `b`, and paid nothing in. -/
def ChargedOnly (b b' : BacktestSimulator) : Prop :=
  ∃ new, b'.charged = b.charged ++ new ∧ ∀ c ∈ new, 0 ≤ c.amount

theorem ChargedOnly.refl (b : BacktestSimulator) : ChargedOnly b b := ⟨[], by simp, by simp⟩

theorem ChargedOnly.trans {b b' b'' : BacktestSimulator} (h : ChargedOnly b b') (h' : ChargedOnly b' b'') :
    ChargedOnly b b'' := by
  obtain ⟨new, he, hn⟩ := h
  obtain ⟨new', he', hn'⟩ := h'
  refine ⟨new ++ new', by rw [he', he, List.append_assoc], fun c hc => ?_⟩
  rcases List.mem_append.mp hc with hc | hc
  · exact hn c hc
  · exact hn' c hc

theorem Pays.charged {today : Int} (h : Pays cfg today b) : ChargedOnly b (applyFuturesCosts cfg today b) := by
  rw [applyFuturesCosts]
  split
  · exact .refl b
  · next costs hcosts =>
    have hfold : ∀ (ps : List Domain.Position) (b' : BacktestSimulator), (∀ p ∈ ps, p ∈ b.ctx.positions) →
        b'.lastCarryDate = b.lastCarryDate → ChargedOnly b' (ps.foldl (chargePosition cfg costs today) b') := by
      intro ps
      induction ps with
      | nil => exact fun b' _ _ => .refl b'
      | cons p ps ih =>
        intro b' hps hlast
        rw [List.foldl_cons]
        cases hfut : cfg.future p.symbol with
        | none =>
          rw [chargePosition_none hfut]
          exact ih b' (fun q hq => hps q (List.mem_cons_of_mem _ hq)) hlast
        | some expiry =>
          obtain ⟨hcharged, -, hlast', -⟩ := @chargePosition_spec cfg b' costs expiry today p hfut
          obtain ⟨hroll, hcarry⟩ := h costs hcosts p (hps p List.mem_cons_self) expiry hfut
          apply ChargedOnly.trans _ (ih _ (fun q hq => hps q (List.mem_cons_of_mem _ hq)) (hlast'.trans hlast))
          refine ⟨_, hcharged.trans (List.append_assoc _ _ _), fun c hc => ?_⟩
          rcases List.mem_append.mp hc with hc | hc
          · rw [mem_rollDue hc]
            exact hroll
          · obtain ⟨day, hday, hlt, hwin, rfl⟩ := mem_carryDue hc
            have hdays : (0 : Rat) ≤ (today - day : Int) := by exact_mod_cast (Int.sub_pos.mpr hlt).le
            have hvalue := hcarry day (hlast ▸ hday) hlt hwin
            exact div_nonneg (mul_nonneg hvalue hdays) (by decide)
    exact hfold b.ctx.positions b (fun _ hp => hp) rfl

theorem PaysThroughout.charged {bars : List Bar} (h : PaysThroughout cfg b bars) :
    ChargedOnly b (bars.foldl (runBar cfg) b) := by
  induction bars generalizing b with
  | nil => exact .refl b
  | cons bar bars ih =>
    obtain ⟨hbar, hbars⟩ := h
    obtain ⟨new, hnew, hn⟩ := hbar.charged
    rw [(foldl_onFill_keeps _ _).1] at hnew
    have hone : ChargedOnly b (runBar cfg b bar) := ⟨new, hnew, hn⟩
    exact hone.trans (ih hbars)

theorem earned_eq_zero {cs : List Charge} (h : ∀ c ∈ cs, 0 ≤ c.amount) : earned cs = 0 := by
  have hz : (cs.map fun c => max (-c.amount) 0) = cs.map fun _ => 0 := by
    apply List.map_congr_left
    intro c hc
    exact max_eq_right (neg_nonpos.mpr (h c hc))
  rw [earned, hz]
  simp

end Earnings

section Run
variable {cfg : BacktestConfig} {b : BacktestSimulator} {data : List Bar} {r : BacktestResult}

/-- A run with a result is of a frame that is not empty. -/
theorem run_eq_ok (h : (b.run cfg data).2 = .ok r) :
    data ≠ [] ∧ (b.run cfg data).1 = data.foldl (runBar cfg) (restart b) ∧
      results cfg (data.foldl (runBar cfg) (restart b)) = .ok r := by
  cases data with
  | nil => cases h
  | cons bar bars => exact ⟨List.cons_ne_nil _ _, rfl, h⟩

theorem results_eq_ok (h : results cfg b = .ok r) :
    r.finalEquity = round ((b.curveRows.getLast?.map Prod.snd).getD cfg.initialCash) 2 ∧ r.trades = b.fills ∧
      r.commissionsTotal = round (b.fills.map OrderFilled.commission).sum 4 ∧
      r.statutoryTotal = round (b.fills.map OrderFilled.statutory).sum 4 ∧
      r.futuresCostsTotal = b.futuresCostsTotal := by
  rw [results] at h
  split at h
  · cases h
  · obtain rfl := Except.ok.inj h
    exact ⟨rfl, rfl, rfl, rfl, rfl⟩

/-- The costs that a run reports count what positions earned as well. -/
theorem costs_drift (h : (b.run cfg data).2 = .ok r) :
    ∃ new, (b.run cfg data).1.charged = b.charged ++ new ∧
      Drift halfUnit (new.length + 3) r.costsTotal
        (totalCharges (b.run cfg data).1.fills + deducted new + 2 * earned new) := by
  obtain ⟨-, hrun, hres⟩ := run_eq_ok h
  obtain ⟨-, -, hcom, hstat, hfut⟩ := results_eq_ok hres
  have hstart : Totalled (restart b) (restart b) := ⟨[], by simp, Drift.refl _ _⟩
  obtain ⟨new, hnew, hd⟩ := @Kept.runBars cfg _ _ (kept_totalled _) data hstart
  refine ⟨new, by rw [hrun, hnew]; rfl, ?_⟩
  rw [sum_abs_amount] at hd
  rw [hrun, BacktestResult.costsTotal, hcom, hstat, hfut, sum_charges]
  have hc := Drift.rounded round_near ((data.foldl (runBar cfg) (restart b)).fills.map OrderFilled.commission).sum
  have hs := Drift.rounded round_near ((data.foldl (runBar cfg) (restart b)).fills.map OrderFilled.statutory).sum
  have hsum := (Drift.rounded round_near _).trans ((hc.add hs).add hd)
  have hn : 1 + (1 + 1 + new.length) = new.length + 3 := by omega
  rw [hn, ← add_assoc] at hsum
  exact hsum

/-- The cash is off by twice what positions earned in the run, less what earlier runs deducted. -/
theorem cash_drift (hb : Reached cfg b) (h : (b.run cfg data).2 = .ok r) :
    ∃ new, (b.run cfg data).1.charged = b.charged ++ new ∧
      Drift halfUnit (roundings (b.run cfg data).1) (b.run cfg data).1.ctx.balance
        (cashOf cfg r + (2 * earned new - deducted b.charged)) := by
  obtain ⟨new, hnew, hcosts⟩ := costs_drift h
  have hbal : Balanced cfg (b.run cfg data).1 := balanced_of_reached (.run data hb)
  have htrades : r.trades = (b.run cfg data).1.fills := by
    obtain ⟨-, hrun, hres⟩ := run_eq_ok h
    rw [hrun]
    exact (results_eq_ok hres).2.1
  refine ⟨new, hnew, ?_⟩
  have hded : deducted (b.charged ++ new) = deducted b.charged + deducted new := by simp [deducted]
  rw [Balanced, hnew, hded, sum_proceeds, ← htrades] at hbal
  rw [← htrades] at hcosts
  have hd := (hbal.add hcosts).sub (Drift.refl halfUnit r.costsTotal)
  rw [add_sub_cancel_right] at hd
  have hlen : r.trades.length + (b.charged ++ new).length + (new.length + 3) + 0 ≤ roundings (b.run cfg data).1 := by
    rw [roundings, hnew, ← htrades, List.length_append]
    omega
  convert hd.mono halfUnit_nonneg hlen using 1
  rw [cashOf]
  ring

/-- A bar leaves the account valued at its close. -/
theorem valued_runBar (b : BacktestSimulator) (bar : Bar) :
    (runBar cfg b bar).curveRows.getLast? =
      some (bar.date, round ((runBar cfg b bar).ctx.balance + markedValue cfg (runBar cfg b bar)) 2) := by
  let b' := applyFuturesCosts cfg bar.date (bar.fills.foldl onFill b)
  have hpos : (runBar cfg b bar).ctx.position cfg.symbol =
      (b'.ctx.position cfg.symbol).map fun p => { p with ltp := bar.close } := by
    refine (Keyed.lookup_revise ?_).trans (if_pos rfl)
    exact fun _ hp => hp
  have hmarked : markedValue cfg (runBar cfg b bar) = b'.ctx.quantity cfg.symbol * bar.close := by
    rw [markedValue, hpos, TradingContext.quantity]
    cases b'.ctx.position cfg.symbol with
    | none => simp
    | some p => rfl
  rw [hmarked]
  exact List.getLast?_concat

theorem equity_near (h : (b.run cfg data).2 = .ok r) :
    |r.finalEquity - ((b.run cfg data).1.ctx.balance + markedValue cfg (b.run cfg data).1)| ≤ 1 / 2 / 10 ^ 2 := by
  obtain ⟨hne, hrun, hres⟩ := run_eq_ok h
  rcases List.eq_nil_or_concat data with rfl | ⟨bars, bar, rfl⟩
  · exact absurd rfl hne
  · rw [hrun, (results_eq_ok hres).1, List.concat_eq_append, List.foldl_concat, valued_runBar]
    rw [Option.map_some, Option.getD_some, round_of_mem (round_mem _ _)]
    exact abs_round_sub_le _ 2

/-- Where no earlier run deducted anything and no future earns at any bar, the cash of every run is what its fills
and its reported costs leave, and its equity that and the position. The cash is so only where twice what was
earned is within the roundings. -/
theorem backtest_accounts (hb : Reached cfg b) (h : (b.run cfg data).2 = .ok r) :
    (deducted b.charged = 0 → PaysThroughout cfg (restart b) data → Accounted cfg (b.run cfg data).1 r) ∧
      (Accounted cfg (b.run cfg data).1 r →
        |2 * earned ((b.run cfg data).1.charged.drop b.charged.length) - deducted b.charged| ≤
          2 * (roundings (b.run cfg data).1 * halfUnit)) := by
  obtain ⟨new, hnew, hd⟩ := cash_drift hb h
  constructor
  · intro hded hpays
    refine ⟨?_, equity_near h⟩
    obtain ⟨new', hnew', hn⟩ := hpays.charged
    have hsame : new = new' := by
      rw [(run_eq_ok h).2.1, hnew'] at hnew
      exact (List.append_cancel_left hnew).symm
    rw [hsame, earned_eq_zero hn, hded, mul_zero, sub_zero, add_zero] at hd
    exact hd
  · intro ha
    rw [hnew, List.drop_left]
    have hsub := ha.cash.sub hd
    rw [sub_self, sub_add_cancel_left, Drift, sub_neg_eq_add, zero_add] at hsub
    rw [two_mul (_ * _), ← add_mul, ← Nat.cast_add]
    exact hsub

end Run

private def traded (side : String) : OrderFilled where
  orderId := "SIM-000001"
  symbol := "NIFTY"
  exchange := "NFO"
  side
  quantity := 75
  fillPrice := 100

private def futures : BacktestConfig where
  futuresCosts := some {}
  future _ := some (some 6)

private def overnight (side : String) : List Bar := [⟨1, 100, [traded side]⟩, ⟨2, 101, []⟩]

private theorem pays_of_long {b : BacktestSimulator} {today : Int} {ltp : Rat}
    (h : b.ctx.positions = [{ opened (traded "BUY") with ltp }]) : Pays futures today b := by
  intro costs hcosts p hp expiry _
  obtain rfl := Option.some.inj hcosts
  rw [h] at hp
  obtain rfl := List.mem_singleton.mp hp
  refine ⟨?_, fun _ _ _ _ => ?_⟩
  · show (0 : Rat) ≤ 100 * |((75 : Int) : Rat)| * (2 / 10000)
    positivity
  · show (0 : Rat) ≤ (65 / 1000 - 0) * (100 * (75 : Int))
    positivity

theorem long_overnight_accounts :
    ∃ r, ((new futures).run futures (overnight "BUY")).2 = .ok r ∧
      Accounted futures ((new futures).run futures (overnight "BUY")).1 r := by
  refine ⟨_, rfl, (backtest_accounts .new rfl).1 rfl ⟨?_, ?_, trivial⟩⟩
  · exact @pays_of_long _ _ 100 rfl
  · exact @pays_of_long _ _ 100 rfl

/-- What a short earns overnight is reported as a cost. -/
theorem short_carry_reported_as_cost :
    ∃ r, ((new futures).run futures (overnight "SELL")).2 = .ok r ∧
      ¬ Accounted futures ((new futures).run futures (overnight "SELL")).1 r := by
  refine ⟨_, rfl, fun h => ?_⟩
  have hc := h.cash
  rw [Drift] at hc
  revert hc
  decide +kernel

end NTrade.Backtest
