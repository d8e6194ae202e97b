import NTrade.Backtest.Simulator
import NTrade.Lib.Trace
import Mathlib.Data.Int.ConditionallyCompleteOrder
import Mathlib.Data.Int.Interval
import Mathlib.Algebra.BigOperators.Group.Finset.Basic
import Mathlib.Algebra.BigOperators.Ring.Finset
import Mathlib.Tactic.LinearCombination

/-! The carry of a future against the calendar days it was held. A bar charges what is open after
its fills for all the days since the bar before, by the window of its own date. -/
namespace NTrade.Backtest
open NTrade.Domain NTrade.Events NTrade.Engines NTrade.Execution NTrade.Lib BacktestSimulator

structure Contract (cfg : BacktestConfig) where
  costs : FuturesCarryCosts
  symbol : String
  expiry : Option Int
  costly : cfg.futuresCosts = some costs
  registered : cfg.future symbol = some expiry

def carried (symbol : String) (cs : List Charge) : Rat :=
  ((cs.filter fun c => c.kind = .carry ∧ c.symbol = symbol).map Charge.amount).sum

def rolls (symbol : String) (cs : List Charge) : Nat := cs.countP fun c => c.kind = .roll ∧ c.symbol = symbol

namespace Contract
variable {cfg : BacktestConfig} (k : Contract cfg)

def dayCarry (b : BacktestSimulator) : Rat :=
  match b.ctx.position k.symbol with
  | none => 0
  | some p =>
    let carry := k.costs.dailyCarry (carryNotional p) 1
    if p.quantity < 0 then -carry else carry

/-- The order of the days, named so that the sum over them stays computable under every import. -/
local instance dayOrder : Preorder Int := Int.instLinearOrder.toPreorder

def owedOver (b : BacktestSimulator) (today : Int) : Rat :=
  match b.lastCarryDate with
  | none => 0
  | some last => ∑ day ∈ Finset.Ioc last today, if k.costs.withinWindow k.expiry day then k.dayCarry b else 0

def isOpen (b : BacktestSimulator) : Prop := (b.ctx.position k.symbol).isSome

instance (b : BacktestSimulator) : Decidable (k.isOpen b) := inferInstanceAs (Decidable (_ = true))

/-- Whether a bar finds or leaves the contract open past its expiry. -/
def past (b : BacktestSimulator) (bar : Bar) : Bool :=
  k.expiry.any (· < bar.date) ∧ ((k.isOpen b ∧ b.lastCarryDate ≠ none) ∨ k.isOpen (bar.fills.foldl onFill b))

structure Watch where
  sim : BacktestSimulator
  owed : Rat := 0
  heldPast : Bool := false

def Watch.step (w : Watch) (bar : Bar) : Watch where
  sim := runBar cfg w.sim bar
  owed := w.owed + k.owedOver w.sim bar.date
  heldPast := w.heldPast || k.past w.sim bar

def watch (b : BacktestSimulator) (bars : List Bar) : Watch := bars.foldl (Watch.step k) ⟨restart b, 0, false⟩

/-- So far the carry charged is what is owed, and the roll was charged once if it was due. -/
structure Exact (b : BacktestSimulator) (bars : List Bar) : Prop where
  carry : carried k.symbol ((k.watch b bars).sim.charged.drop b.charged.length) = (k.watch b bars).owed
  roll : rolls k.symbol ((k.watch b bars).sim.charged.drop b.charged.length) = if (k.watch b bars).heldPast then 1 else 0

def openValue (b : BacktestSimulator) : Rat :=
  ((b.ctx.position k.symbol).map fun p => carryPrice p * p.quantity).getD 0

def windowDays (last today : Int) : Nat :=
  ((Finset.Ioc last today).filter fun day => k.costs.withinWindow k.expiry day).card

structure Fair (b : BacktestSimulator) (bar : Bar) : Prop where
  carry : k.costs.riskFree ≠ k.costs.dividendYield → ∀ last, b.lastCarryDate = some last → last < bar.date →
    if k.costs.withinWindow k.expiry bar.date then
      k.openValue (bar.fills.foldl onFill b) * (bar.date - last : Int) = k.openValue b * k.windowDays last bar.date
    else k.openValue b = 0 ∨ k.windowDays last bar.date = 0
  roll : k.expiry.any (· < bar.date) → b.lastCarryDate ≠ none → k.symbol ∉ b.rolled → k.isOpen b →
    k.isOpen (bar.fills.foldl onFill b)

end Contract

section Dues
variable {symbol : String} {costs : FuturesCarryCosts} {expiry last : Option Int} {today : Int} {rolled : List String}
  {p : Domain.Position}

theorem carried_append (cs ds : List Charge) : carried symbol (cs ++ ds) = carried symbol cs + carried symbol ds := by
  rw [carried, List.filter_append, List.map_append, List.sum_append]
  rfl

theorem rolls_append (cs ds : List Charge) : rolls symbol (cs ++ ds) = rolls symbol cs + rolls symbol ds :=
  List.countP_append

theorem carried_rollDue : carried symbol (rollDue costs expiry today rolled p) = 0 := by
  rw [rollDue]
  split <;> simp [carried]

theorem rolls_rollDue : rolls symbol (rollDue costs expiry today rolled p) =
    if p.symbol = symbol ∧ expiry.any (· < today) ∧ p.symbol ∉ rolled then 1 else 0 := by
  rw [rollDue]
  by_cases hd : expiry.any (· < today) ∧ p.symbol ∉ rolled
  · rw [if_pos hd]
    by_cases hs : p.symbol = symbol
    · rw [if_pos ⟨hs, hd⟩]
      simp [rolls, hs]
    · rw [if_neg fun h => hs h.1]
      simp [rolls, hs]
  · rw [if_neg hd, if_neg fun h => hd h.2]
    rfl

theorem rolls_carryDue : rolls symbol (carryDue costs expiry last today p) = 0 := by
  cases last with
  | none => rfl
  | some last =>
    rw [carryDue_some]
    split <;> simp [rolls]

theorem carried_carryDue_none : carried symbol (carryDue costs expiry none today p) = 0 := rfl

theorem carried_carryDue (last : Int) : carried symbol (carryDue costs expiry (some last) today p) =
    if p.symbol = symbol ∧ last < today ∧ costs.withinWindow expiry today then
      (costs.riskFree - costs.dividendYield) * (carryPrice p * p.quantity) * (today - last : Int) / 365
    else 0 := by
  rw [carryDue_some]
  by_cases hd : last < today ∧ costs.withinWindow expiry today
  · rw [if_pos hd]
    by_cases hs : p.symbol = symbol
    · rw [if_pos ⟨hs, hd⟩]
      simp [carried, hs]
    · rw [if_neg fun h => hs h.1]
      simp [carried, hs]
  · rw [if_neg hd, if_neg fun h => hd h.2]
    rfl

end Dues

namespace Contract
variable {cfg : BacktestConfig} {k : Contract cfg} {b : BacktestSimulator} {bar : Bar}

def dueCarry (k : Contract cfg) (last : Option Int) (today : Int) (held : Option Domain.Position) : Rat :=
  (held.map fun p => carried k.symbol (carryDue k.costs k.expiry last today p)).getD 0

structure Charges (k : Contract cfg) (today : Int) (held : Option Domain.Position) (b b' : BacktestSimulator) : Prop where
  charged : ∃ new, b'.charged = b.charged ++ new ∧ carried k.symbol new = k.dueCarry b.lastCarryDate today held ∧
    rolls k.symbol new = if held.isSome ∧ k.expiry.any (· < today) ∧ k.symbol ∉ b.rolled then 1 else 0
  rolled : k.symbol ∈ b'.rolled ↔ k.symbol ∈ b.rolled ∨ held.isSome ∧ k.expiry.any (· < today)

theorem charges_none (k : Contract cfg) (today : Int) (b : BacktestSimulator) : Charges k today none b b :=
  ⟨⟨[], by simp, rfl, by simp [rolls]⟩, by simp⟩

/-- The position of another symbol. -/
theorem charges_other {p : Domain.Position} {today : Int} (hp : p.symbol ≠ k.symbol) :
    Charges k today none b (chargePosition cfg k.costs today b p) := by
  cases hfut : cfg.future p.symbol with
  | none =>
    rw [chargePosition_none hfut]
    exact charges_none k today b
  | some expiry =>
    obtain ⟨hc, -, -, hr⟩ := @chargePosition_spec cfg b k.costs expiry today p hfut
    refine ⟨⟨_, hc.trans (List.append_assoc _ _ _), ?_, ?_⟩, ?_⟩
    · rw [carried_append, carried_rollDue, zero_add]
      cases b.lastCarryDate with
      | none => rfl
      | some last =>
        rw [carried_carryDue, if_neg fun h => hp h.1]
        rfl
    · rw [rolls_append, rolls_rollDue, rolls_carryDue, if_neg fun h => hp h.1]
      rfl
    · rw [hr]
      split
      · simp [Ne.symm hp]
      · simp

theorem charges_own {p : Domain.Position} {today : Int} (hp : p.symbol = k.symbol) :
    Charges k today (some p) b (chargePosition cfg k.costs today b p) := by
  obtain ⟨hc, -, -, hr⟩ := @chargePosition_spec cfg b k.costs k.expiry today p (hp ▸ k.registered)
  refine ⟨⟨_, hc.trans (List.append_assoc _ _ _), ?_, ?_⟩, ?_⟩
  · rw [carried_append, carried_rollDue, zero_add]
    rfl
  · rw [rolls_append, rolls_rollDue, rolls_carryDue, hp]
    simp
  · rw [hr, hp]
    by_cases hd : k.expiry.any (· < today) ∧ k.symbol ∉ b.rolled
    · rw [if_pos hd]
      simp [hd.1]
    · rw [if_neg hd]
      by_cases hm : k.symbol ∈ b.rolled
      · simp [hm]
      · have ha : k.expiry.any (· < today) = false := Bool.eq_false_iff.mpr fun h => hd ⟨h, hm⟩
        simp [hm, ha]

/-- Charging the positions of different symbols charges the contract for its own. -/
theorem charges_foldl {today : Int} (ps : List Domain.Position) (hps : (ps.map Domain.Position.symbol).Nodup)
    (b : BacktestSimulator) :
    Charges k today (Keyed.lookup Domain.Position.symbol k.symbol ps) b
      (ps.foldl (chargePosition cfg k.costs today) b) := by
  induction ps generalizing b with
  | nil => exact charges_none k today b
  | cons p ps ih =>
    rw [List.map_cons, List.nodup_cons] at hps
    obtain ⟨⟨new', hn', hc', hr'⟩, hm'⟩ := ih hps.2 (chargePosition cfg k.costs today b p)
    have hlast := (@foldl_chargePosition_keeps cfg k.costs today [p] b).2
    rw [List.foldl_cons, List.foldl_nil] at hlast
    rw [hlast] at hc'
    rw [List.foldl_cons, Keyed.lookup_cons]
    by_cases hp : p.symbol = k.symbol
    · obtain ⟨⟨new, hn, hc, hr⟩, hm⟩ := @charges_own cfg k b p today hp
      have hnone : Keyed.lookup Domain.Position.symbol k.symbol ps = none := Keyed.lookup_eq_none.mpr (hp ▸ hps.1)
      rw [hnone] at hc' hr' hm'
      rw [if_pos hp]
      refine ⟨⟨new ++ new', by rw [hn', hn, List.append_assoc], ?_, ?_⟩, by rw [hm', hm]; simp⟩
      · rw [carried_append, hc, hc']
        exact add_zero _
      · rw [rolls_append, hr, hr']
        simp
    · obtain ⟨⟨new, hn, hc, hr⟩, hm⟩ := @charges_other cfg k b p today hp
      rw [if_neg hp]
      refine ⟨⟨new ++ new', by rw [hn', hn, List.append_assoc], ?_, ?_⟩, by rw [hm', hm]; simp⟩
      · rw [carried_append, hc, hc']
        exact zero_add _
      · rw [rolls_append, hr, hr']
        simp [hm]

theorem dueCarry_eq (last today : Int) (b : BacktestSimulator) :
    k.dueCarry (some last) today (b.ctx.position k.symbol) =
      if last < today ∧ k.costs.withinWindow k.expiry today then
        (k.costs.riskFree - k.costs.dividendYield) * k.openValue b * (today - last : Int) / 365
      else 0 := by
  rw [dueCarry, openValue]
  cases hpos : b.ctx.position k.symbol with
  | none => simp
  | some p =>
    have hs : p.symbol = k.symbol := (Keyed.lookup_some hpos).2
    rw [Option.map_some, Option.getD_some, carried_carryDue, Option.map_some, Option.getD_some]
    simp only [hs, true_and]

/-- What a bar charges the contract for. -/
theorem charges_runBar (hb : b.Unique) (bar : Bar) :
    Charges k bar.date ((bar.fills.foldl onFill b).ctx.position k.symbol) b (runBar cfg b bar) := by
  obtain ⟨hc, hl, hr⟩ := foldl_onFill_keeps bar.fills b
  obtain ⟨⟨new, hn, hcarried, hrolls⟩, hm⟩ :=
    @charges_foldl cfg k bar.date _ (hb.onFills bar.fills) (bar.fills.foldl onFill b)
  have hcharged : (runBar cfg b bar).charged = b.charged ++ new := by
    rw [← hc, ← hn, runBar, applyFuturesCosts, k.costly]
    rfl
  have hrolled : (runBar cfg b bar).rolled =
      ((bar.fills.foldl onFill b).ctx.positions.foldl (chargePosition cfg k.costs bar.date)
        (bar.fills.foldl onFill b)).rolled := by
    rw [runBar, applyFuturesCosts, k.costly]
    rfl
  refine ⟨⟨new, hcharged, hl ▸ hcarried, hr ▸ hrolls⟩, ?_⟩
  rw [hrolled, hm, hr]
  rfl

theorem dayCarry_eq (b : BacktestSimulator) :
    k.dayCarry b = (k.costs.riskFree - k.costs.dividendYield) * k.openValue b / 365 := by
  rw [dayCarry, openValue]
  cases b.ctx.position k.symbol with
  | none => simp
  | some p =>
    dsimp only
    rw [signed_dailyCarry Int.one_pos, Int.cast_one, mul_one]
    rfl

theorem sum_dayCarry (b : BacktestSimulator) (last today : Int) :
    (∑ day ∈ Finset.Ioc last today, if k.costs.withinWindow k.expiry day then k.dayCarry b else 0) =
      k.windowDays last today * k.dayCarry b := by
  rw [← Finset.sum_filter, Finset.sum_const, nsmul_eq_mul]
  rfl

/-- A bar charges the carry that is owed exactly when it is fair to it. -/
theorem carry_exact_iff (b : BacktestSimulator) (bar : Bar) :
    k.dueCarry b.lastCarryDate bar.date ((bar.fills.foldl onFill b).ctx.position k.symbol) = k.owedOver b bar.date ↔
      (k.costs.riskFree ≠ k.costs.dividendYield → ∀ last, b.lastCarryDate = some last → last < bar.date →
        if k.costs.withinWindow k.expiry bar.date then
          k.openValue (bar.fills.foldl onFill b) * (bar.date - last : Int) = k.openValue b * k.windowDays last bar.date
        else k.openValue b = 0 ∨ k.windowDays last bar.date = 0) := by
  rw [owedOver]
  cases hl : b.lastCarryDate with
  | none =>
    refine iff_of_true ?_ fun _ _ h => nomatch h
    rw [dueCarry]
    cases (bar.fills.foldl onFill b).ctx.position k.symbol with
    | none => rfl
    | some p => exact carried_carryDue_none
  | some last =>
    dsimp only
    rw [dueCarry_eq, sum_dayCarry, dayCarry_eq]
    by_cases hlt : last < bar.date
    · by_cases hrate : k.costs.riskFree = k.costs.dividendYield
      · exact iff_of_true (by simp [hrate]) fun h => absurd hrate h
      · have hne : k.costs.riskFree - k.costs.dividendYield ≠ 0 := sub_ne_zero.mpr hrate
        rw [forall_prop_of_true hrate]
        constructor
        · intro h last' he _
          obtain rfl := Option.some.inj he
          by_cases hw : k.costs.withinWindow k.expiry bar.date
          · rw [if_pos ⟨hlt, hw⟩] at h
            rw [if_pos hw]
            apply mul_left_cancel₀ hne
            linear_combination 365 * h
          · rw [if_neg fun hd => hw hd.2] at h
            rw [if_neg hw]
            rcases mul_eq_zero.mp h.symm with hd | hd
            · exact .inr (Nat.cast_eq_zero.mp hd)
            · rw [div_eq_zero_iff, mul_eq_zero] at hd
              exact .inl ((hd.resolve_right (by decide)).resolve_left hne)
        · intro h
          have h := h last rfl hlt
          by_cases hw : k.costs.withinWindow k.expiry bar.date
          · rw [if_pos hw] at h
            rw [if_pos ⟨hlt, hw⟩]
            linear_combination (k.costs.riskFree - k.costs.dividendYield) / 365 * h
          · rw [if_neg hw] at h
            rw [if_neg fun hd => hw hd.2]
            rcases h with h | h
            · rw [h, mul_zero, zero_div, mul_zero]
            · rw [h, Nat.cast_zero, zero_mul]
    · have hempty : k.windowDays last bar.date = 0 := by
        rw [windowDays, Finset.Ioc_eq_empty hlt]
        rfl
      rw [if_neg fun h => hlt h.1, hempty, Nat.cast_zero, zero_mul]
      refine iff_of_true rfl fun _ last' he hlt' => ?_
      obtain rfl := Option.some.inj he
      exact absurd hlt' hlt

structure Watched (k : Contract cfg) (b : BacktestSimulator) (w : Watch) : Prop where
  unique : w.sim.Unique
  charged : ∃ new, w.sim.charged = b.charged ++ new ∧ rolls k.symbol new = if k.symbol ∈ w.sim.rolled then 1 else 0

theorem watch_concat (b : BacktestSimulator) (bars : List Bar) (bar : Bar) :
    k.watch b (bars ++ [bar]) = (k.watch b bars).step k bar := List.foldl_concat _ _ _ _

theorem Watched.step {w : Watch} (h : Watched k b w) (bar : Bar) : Watched k b (w.step k bar) := by
  obtain ⟨hu, new, hn, hr⟩ := h
  obtain ⟨⟨new', hn', -, hr'⟩, hm⟩ := @charges_runBar cfg k _ hu bar
  refine ⟨hu.runBar bar, new ++ new', by rw [Watch.step, hn', hn, List.append_assoc], ?_⟩
  rw [rolls_append, hr, hr', Watch.step]
  simp only [hm]
  by_cases hin : k.symbol ∈ w.sim.rolled
  · simp [hin]
  · simp [hin]

theorem watched (hb : b.Unique) (bars : List Bar) : Watched k b (k.watch b bars) := by
  induction bars using List.reverseRecOn with
  | nil => exact ⟨hb, [], by simp [watch, restart], by simp [watch, restart, rolls]⟩
  | append_singleton bars bar ih =>
    rw [watch_concat]
    exact ih.step bar

private theorem one_iff {p q : Prop} [Decidable p] [Decidable q] :
    ((if p then 1 else 0 : Nat) = if q then 1 else 0) ↔ (p ↔ q) := by
  split_ifs <;> simp_all

/-- A roll is charged for what is open after the fills, and is due on what was carried to the bar as well. -/
private theorem roll_iff {rolled after due before carried : Prop} :
    (rolled ∨ after ∧ due ↔ rolled ∨ due ∧ (before ∧ carried ∨ after)) ↔
      (due → carried → ¬ rolled → before → after) := by
  by_cases hr : rolled
  · simp [hr]
  by_cases ha : after
  · simp [hr, ha]
  · simp only [hr, ha]
    constructor
    · intro h hd hc _ hb
      exact ((h.mpr (.inr ⟨hd, .inl ⟨hb, hc⟩⟩)).resolve_left id).1
    · intro h
      constructor
      · rintro (h' | h')
        · exact h'.elim
        · exact h'.1.elim
      · rintro (h' | ⟨hd, h' | h'⟩)
        · exact h'.elim
        · exact (h hd h'.2 id h'.1).elim
        · exact h'.elim

/-- A run that is exact so far stays so at the next bar exactly when the bar is fair. -/
theorem exact_concat_iff (hb : b.Unique) {bars : List Bar} (h : k.Exact b bars) (bar : Bar) :
    k.Exact b (bars ++ [bar]) ↔ k.Fair (k.watch b bars).sim bar := by
  obtain ⟨hu, new, hn, hr⟩ := @watched cfg k b hb bars
  obtain ⟨⟨new', hn', hc', -⟩, hm⟩ := @charges_runBar cfg k _ hu bar
  obtain ⟨-, newer, hn'', hr''⟩ := @watched cfg k b hb (bars ++ [bar])
  obtain ⟨hcarry, hroll⟩ := h
  have hnewer : newer = new ++ new' := by
    rw [watch_concat, Watch.step, hn', hn, List.append_assoc] at hn''
    exact (List.append_cancel_left hn'').symm
  rw [hn, List.drop_left] at hcarry hroll
  have hpast : k.symbol ∈ (k.watch b bars).sim.rolled ↔ (k.watch b bars).heldPast := one_iff.mp (hr.symm.trans hroll)
  have hcarryIff : carried k.symbol newer = (k.watch b (bars ++ [bar])).owed ↔
      k.dueCarry (k.watch b bars).sim.lastCarryDate bar.date
        ((bar.fills.foldl onFill (k.watch b bars).sim).ctx.position k.symbol) = k.owedOver (k.watch b bars).sim bar.date := by
    rw [hnewer, carried_append, hcarry, hc', watch_concat, Watch.step]
    exact add_right_inj _
  have hrollIff : rolls k.symbol newer = (if (k.watch b (bars ++ [bar])).heldPast then 1 else 0) ↔
      (k.expiry.any (· < bar.date) → (k.watch b bars).sim.lastCarryDate ≠ none → k.symbol ∉ (k.watch b bars).sim.rolled →
        k.isOpen (k.watch b bars).sim → k.isOpen (bar.fills.foldl onFill (k.watch b bars).sim)) := by
    rw [hr'', one_iff, watch_concat, Watch.step]
    dsimp only
    rw [hm, Bool.or_eq_true, past, decide_eq_true_eq, ← hpast]
    exact roll_iff
  constructor
  · rintro ⟨hc, hl⟩
    rw [hn'', List.drop_left] at hc hl
    exact ⟨(carry_exact_iff _ bar).mp (hcarryIff.mp hc), hrollIff.mp hl⟩
  · rintro ⟨hc, hl⟩
    constructor
    · rw [hn'', List.drop_left]
      exact hcarryIff.mpr ((carry_exact_iff _ bar).mpr hc)
    · rw [hn'', List.drop_left]
      exact hrollIff.mpr hl

/-- A run charges the carry of the days held and one roll for a contract held past its expiry, after every bar,
exactly when it is fair to the contract at every bar. -/
theorem carry_days_iff (k : Contract cfg) (hb : Reached cfg b) (data : List Bar) :
    (∀ bars, bars <+: data → k.Exact b bars) ↔
      Trace.Each (fun bars bar => k.Fair (k.watch b bars).sim bar) data := by
  apply Trace.forall_prefix_iff
  · exact ⟨by simp [watch, restart, carried], by simp [watch, restart, rolls]⟩
  · exact fun bars bar h => exact_concat_iff hb.unique h bar

private def nearExpiry : BacktestConfig where
  futuresCosts := some {}
  future _ := some (some 6)

private def expiring : Contract nearExpiry where
  costs := {}
  symbol := "NIFTY"
  expiry := some 6
  costly := rfl
  registered := rfl

private def lot : OrderFilled where
  orderId := "SIM-000001"
  symbol := "NIFTY"
  exchange := "NFO"
  side := "BUY"
  quantity := 75
  fillPrice := 100

/-- Bars of successive days, and a lot held over the expiry. -/
theorem carry_days_of_daily_bars :
    (∀ bars, bars <+: [⟨5, 100, [lot]⟩, ⟨6, 101, []⟩, ⟨7, 102, []⟩] → expiring.Exact (.new nearExpiry) bars) ↔
      Trace.Each (fun bars bar => expiring.Fair (expiring.watch (.new nearExpiry) bars).sim bar)
        [⟨5, 100, [lot]⟩, ⟨6, 101, []⟩, ⟨7, 102, []⟩] :=
  carry_days_iff expiring .new _

/-- A lot bought at the first bar after three days is charged for them. -/
theorem charged_for_gap : ¬ ∀ bars, bars <+: [⟨1, 100, []⟩, ⟨4, 100, [lot]⟩] → expiring.Exact (.new nearExpiry) bars := by
  intro h
  have hc := (h _ List.prefix_rfl).carry
  revert hc
  decide +kernel

end Contract
end NTrade.Backtest
