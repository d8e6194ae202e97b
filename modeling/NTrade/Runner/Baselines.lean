import NTrade.Runner.RiskLoop
import Mathlib.Algebra.Group.Submonoid.BigOperators
import Mathlib.Tactic.NormNum

/-! The baselines of the circuit breakers. A loss is measured from a start balance and a
drawdown from a peak; an import of the broker's cash and a resume set the first from cash
alone, and equity is cash with the value of the open positions. -/
namespace NTrade.Runner
open NTrade.Domain NTrade.Events NTrade.Engines NTrade.Execution NTrade.Lib

/-- An act, and what the handlers of the event it publishes do. An import of cash publishes
before it re-bases. -/
structure Announced where
  act : BookAct
  reactions : List BookAct := []

/-- Acts that leave the books, the start balances and the engines in their places. -/
def BookAct.isQuiet : BookAct → Bool
  | .tick _ | .evaluate _ | .halt _ _ | .announceHalt => true
  | _ => false

/-- A halt that no breaker asked for. -/
def BookAct.isHalt : BookAct → Bool
  | .halt _ _ => true
  | _ => false

namespace RiskLoop
variable (s : RiskLoop)

def worth : Rat := (s.ctx.positions.map Domain.Position.marketValue).sum

def importCashWith (broker : BrokerReport) (now : Rat) (reactions : List BookAct) : RiskLoop :=
  let done := Engines.importCash now broker { ctx := s.ctx }
  let s := { s with ctx := done.ctx, trace := s.trace ++ [.importCash broker now] }
  let s := if done.balanceChanged.isSome then s.acts RiskLoop.equity reactions else s
  match done.rebase with
  | none => s
  | some balance => { s with own := s.own.rebase balance }

def announce (m : Announced) : RiskLoop :=
  match m.act with
  | .importCash broker now => s.importCashWith broker now m.reactions
  | a => (s.act RiskLoop.equity a).acts RiskLoop.equity m.reactions

def announceAll (ms : List Announced) : RiskLoop := ms.foldl announce s

/-- The balance that a first import re-bases the kernel's own engine to. -/
def firstImport (broker : BrokerReport) : Option Rat :=
  if s.own.rebased then none else if broker.reportsCash then broker.balance else none

/-- The engines that must have a new baseline, where handlers leave the books alone: all of
them after a first import, and the one that is resumed. -/
def Bases (m : Announced) (i : Option Nat) : Prop :=
  (∀ a ∈ m.reactions, a.isQuiet = true) ∧
    match m.act with
    | .importCash broker _ => (s.firstImport broker).isSome
    | .resume j => i = j ∧ (s.engine j).any RiskEngine.halted
    | _ => False

end RiskLoop

/-- Limits that an engine without loss and without drawdown is within. -/
def Nonnegative (limits : Limits) : Prop :=
  (∀ cap, limits.maxDailyLoss = some cap → 0 ≤ cap) ∧ ∀ cap, limits.maxDrawdownPct = some cap → 0 ≤ cap

/-- The engine measures from this equity: there is no loss and no drawdown. -/
structure Level (equity : Rat) (e : RiskEngine) : Prop where
  loss : e.startBalance = equity
  drawdown : e.peak equity = equity

/-- Whatever has to have a new baseline is level, stays so while the books do, and no breaker
halts it for the import or the resume. -/
def Consistent (s : RiskLoop) (m : Announced) : Prop :=
  ∀ i, s.Bases m i → ∀ later : List BookAct, (∀ a ∈ later, a.isQuiet = true) →
    let s' := (s.announce m).acts RiskLoop.equity later
    ∀ e, s'.engine i = some e → Level s'.equity e ∧
      (Nonnegative e.limits → (∀ a ∈ m.reactions ++ later, a.isHalt = false) → e.halted = true →
        ∃ e₀, (s.announce { act := m.act }).engine i = some e₀ ∧ e₀.halted = true)

/-- A first import finds positions that are worth nothing, a balance of four decimals, no
higher peak, strategies that start from that balance, and, where a handler evaluates the
breakers before the re-basing, no loss beyond the cap; a resume finds positions worth nothing. -/
def OnBasis (s : RiskLoop) (m : Announced) : Prop :=
  match m.act with
  | .importCash broker _ => ∀ balance, s.firstImport broker = some balance →
      s.worth = 0 ∧ (balance = s.ctx.balance ∨ round balance PRICE_PRECISION = balance) ∧
        (∀ e ∈ s.wired, e.peak balance = balance) ∧ (∀ e ∈ s.perStrategy, e.startBalance = balance) ∧
        (.evaluate none ∈ m.reactions →
          ∀ cap, s.own.limits.maxDailyLoss = some cap → s.own.startBalance - balance ≤ cap)
  | .resume i => (s.engine i).any RiskEngine.halted → s.worth = 0
  | _ => True

section Engine
variable {e : RiskEngine} {equity : Rat}

/-- An evaluation at some equity leaves the peak as it stands at that equity. -/
private theorem peak_updateBreakers : (e.updateBreakers equity).1.peak equity = e.peak equity := by
  have hmax : max (e.peak equity) equity = e.peak equity := max_eq_left (e.le_peak equity)
  cases hh : e.halted with
  | true => simp [RiskEngine.updateBreakers, hh]
  | false =>
    cases ht : e.tripped equity with
    | none =>
      rw [RiskEngine.updateBreakers, hh, ht]
      exact hmax
    | some reason =>
      rw [RiskEngine.updateBreakers, hh, ht]
      exact hmax

/-- Without a drawdown, an engine whose loss is within its cap is within its limits. -/
private theorem not_exceeded (hpeak : e.peak equity = equity)
    (hloss : ∀ cap, e.limits.maxDailyLoss = some cap → e.startBalance - equity ≤ cap)
    (hcap : ∀ cap, e.limits.maxDrawdownPct = some cap → 0 ≤ cap) : e.exceeded equity = false := by
  rw [RiskEngine.exceeded, hpeak, Bool.or_eq_false_iff]
  constructor
  · cases h : e.limits.maxDailyLoss with
    | none => rfl
    | some cap => simpa using hloss cap h
  · cases h : e.limits.maxDrawdownPct with
    | none => rfl
    | some cap => simpa using fun _ => hcap cap h

private theorem Level.not_exceeded (h : Level equity e) (hn : Nonnegative e.limits) : e.exceeded equity = false := by
  apply Runner.not_exceeded h.drawdown _ hn.2
  intro cap hc
  rw [h.loss, sub_self]
  exact hn.1 cap hc

private theorem Level.updateBreakers (h : Level equity e) : Level equity (e.updateBreakers equity).1 :=
  ⟨RiskEngine.updateBreakers_keeps.1.trans h.loss, peak_updateBreakers.trans h.drawdown⟩

end Engine

section Acts
variable {s : RiskLoop} {i : Option Nat} {P : RiskEngine → Prop}

theorem equity_eq : s.equity = s.ctx.balance + s.worth := by
  rw [RiskLoop.equity, RiskLoop.worth, readingOf, Reading.equity, List.map_map]
  rfl

private theorem engine_setEngine {e e' : RiskEngine} {j : Option Nat} (h : (s.setEngine e j).engine i = some e') :
    (i = j ∧ e' = e) ∨ s.engine i = some e' := by
  cases j with
  | none =>
    cases i with
    | none => exact .inl ⟨rfl, (Option.some.inj h).symm⟩
    | some i => exact .inr h
  | some j =>
    cases i with
    | none => exact .inr h
    | some i =>
      have hs : (s.perStrategy.set j e)[i]? = some e' := h
      rw [List.getElem?_set] at hs
      split_ifs at hs with hij hlt
      · exact .inl ⟨by rw [hij], (Option.some.inj hs).symm⟩
      · exact .inr hs

/-- A quiet act leaves the books, and of an engine what an evaluation or a halt leaves. -/
private theorem quiet_act {a : BookAct} (ha : a.isQuiet = true) (h : ∀ e, s.engine i = some e → P e)
    (heval : a = .evaluate i → ∀ e, P e → P (e.updateBreakers s.equity).1)
    (hhalt : a.isHalt = true → ∀ e reason, P e → P (e.halt reason)) :
    (s.act RiskLoop.equity a).ctx = s.ctx ∧ ∀ e, (s.act RiskLoop.equity a).engine i = some e → P e := by
  cases a with
  | tick tick => exact ⟨rfl, h⟩
  | announceHalt => exact ⟨rfl, h⟩
  | evaluate j =>
    have he : (s.act RiskLoop.equity (.evaluate j)).ctx = (s.evaluate s.equity j).ctx ∧
        (s.act RiskLoop.equity (.evaluate j)).engine i = (s.evaluate s.equity j).engine i := by
      constructor
      · rfl
      · cases i <;> rfl
    rw [he.1, he.2, RiskLoop.evaluate]
    cases hj : s.engine j with
    | none => exact ⟨rfl, h⟩
    | some e =>
      refine ⟨ctx_setEngine _ j, fun e' he' => ?_⟩
      have hset : (s.setEngine (e.updateBreakers s.equity).1 j).engine i = some e' := by
        cases i <;> exact he'
      rcases engine_setEngine hset with ⟨rfl, rfl⟩ | he'
      · exact heval rfl e (h e hj)
      · exact h e' he'
  | halt j reason =>
    have he : (s.act RiskLoop.equity (.halt j reason)).ctx = (s.haltEngine reason j).ctx ∧
        (s.act RiskLoop.equity (.halt j reason)).engine i = (s.haltEngine reason j).engine i := by
      constructor
      · rfl
      · cases i <;> rfl
    rw [he.1, he.2, RiskLoop.haltEngine]
    cases hj : s.engine j with
    | none => exact ⟨rfl, h⟩
    | some e =>
      dsimp only
      split
      · exact ⟨rfl, h⟩
      · refine ⟨ctx_setEngine _ j, fun e' he' => ?_⟩
        have hset : (s.setEngine (e.halt reason) j).engine i = some e' := by
          cases i <;> exact he'
        rcases engine_setEngine hset with ⟨rfl, rfl⟩ | he'
        · exact hhalt rfl e reason (h e hj)
        · exact h e' he'
  | _ => cases ha

/-- Quiet acts keep of an engine what an evaluation at the present equity and a halt keep. -/
theorem quiet_acts (as : List BookAct) (has : ∀ a ∈ as, a.isQuiet = true) (h : ∀ e, s.engine i = some e → P e)
    (heval : .evaluate i ∈ as → ∀ e, P e → P (e.updateBreakers s.equity).1)
    (hhalt : (∃ a ∈ as, a.isHalt = true) → ∀ e reason, P e → P (e.halt reason)) :
    (s.acts RiskLoop.equity as).ctx = s.ctx ∧ ∀ e, (s.acts RiskLoop.equity as).engine i = some e → P e := by
  induction as generalizing s with
  | nil => exact ⟨rfl, h⟩
  | cons a as ih =>
    obtain ⟨hctx, hP⟩ := quiet_act (has a List.mem_cons_self) h
      (fun he => heval (he ▸ List.mem_cons_self)) (fun hh => hhalt ⟨a, List.mem_cons_self, hh⟩)
    have hequity : (s.act RiskLoop.equity a).equity = s.equity := by rw [RiskLoop.equity, RiskLoop.equity, hctx]
    obtain ⟨hctx', hP'⟩ := ih (fun b hb => has b (List.mem_cons_of_mem a hb)) hP
      (fun he => hequity ▸ heval (List.mem_cons_of_mem a he))
      (fun ⟨b, hb, hh⟩ => hhalt ⟨b, List.mem_cons_of_mem a hb, hh⟩)
    exact ⟨hctx'.trans hctx, hP'⟩

/-- A level engine stays so, and is halted by a halt only. -/
private theorem level_acts {H : Prop} (as : List BookAct) (has : ∀ a ∈ as, a.isQuiet = true)
    (h : ∀ e, s.engine i = some e → Level s.equity e ∧ (Nonnegative e.limits → e.halted = true → H)) :
    ∀ e, (s.acts RiskLoop.equity as).engine i = some e → Level (s.acts RiskLoop.equity as).equity e ∧
      (Nonnegative e.limits → (∀ a ∈ as, a.isHalt = false) → e.halted = true → H) := by
  let P : RiskEngine → Prop := fun e =>
    Level s.equity e ∧ (Nonnegative e.limits → (∀ a ∈ as, a.isHalt = false) → e.halted = true → H)
  have heval : ∀ e, P e → P (e.updateBreakers s.equity).1 := by
    intro e he
    refine ⟨he.1.updateBreakers, fun hn hno hh => ?_⟩
    have hn' : Nonnegative e.limits := by
      rw [RiskEngine.updateBreakers_keeps.2.1] at hn
      exact hn
    rw [RiskEngine.updateBreakers_exceeded, he.1.not_exceeded hn', Bool.or_false] at hh
    exact he.2 hn' hno hh
  have hhalt : (∃ a ∈ as, a.isHalt = true) → ∀ e reason, P e → P (e.halt reason) := by
    rintro ⟨a, ha, hh⟩ e reason he
    exact ⟨⟨he.1.loss, he.1.drawdown⟩, fun _ hno => absurd hh (by rw [hno a ha]; simp)⟩
  obtain ⟨hctx, hP⟩ := @quiet_acts s i P as has (fun e he => ⟨(h e he).1, fun hn _ => (h e he).2 hn⟩)
    (fun _ => heval) hhalt
  intro e he
  rw [RiskLoop.equity, hctx]
  exact hP e he

end Acts

section Import
variable {s : RiskLoop} {broker : BrokerReport} {balance : Rat}

/-- The cash that an import leaves. -/
private def cash (s : RiskLoop) (balance : Rat) : Rat :=
  if balance = s.ctx.balance then balance else round balance PRICE_PRECISION

private def cashed (s : RiskLoop) (broker : BrokerReport) (now balance : Rat) : RiskLoop :=
  { s with ctx := { s.ctx with balance := cash s balance }, trace := s.trace ++ [.importCash broker now] }

private theorem firstImport_eq_some (h : s.firstImport broker = some balance) :
    s.own.rebased = false ∧ (if broker.reportsCash then broker.balance else none) = some balance := by
  rw [RiskLoop.firstImport] at h
  split_ifs at h with hr hc
  · exact ⟨Bool.not_eq_true _ ▸ hr, by rw [if_pos hc, h]⟩

private theorem importCashWith_eq (now : Rat) (reactions : List BookAct) (h : s.firstImport broker = some balance) :
    ∃ s₂, (s₂ = cashed s broker now balance ∨ s₂ = (cashed s broker now balance).acts RiskLoop.equity reactions) ∧
      s.importCashWith broker now reactions = { s₂ with own := s₂.own.rebase balance } := by
  obtain ⟨-, hc⟩ := firstImport_eq_some h
  by_cases hsame : balance = s.ctx.balance
  · have hdone : Engines.importCash now broker { ctx := s.ctx } = { ctx := s.ctx, rebase := some balance } := by
      rw [Engines.importCash, hc]
      exact if_pos hsame
    have hcashed : cashed s broker now balance = { s with trace := s.trace ++ [BookAct.importCash broker now] } := by
      rw [cashed, cash, if_pos hsame, hsame]
    refine ⟨_, .inl rfl, ?_⟩
    rw [RiskLoop.importCashWith, hdone, hcashed]
    rfl
  · have hdone : Engines.importCash now broker { ctx := s.ctx } =
        { ctx := { s.ctx with balance := round balance PRICE_PRECISION }, rebase := some balance,
          balanceChanged := some { balance := round balance PRICE_PRECISION, ts := now } } := by
      rw [Engines.importCash, hc]
      exact if_neg hsame
    refine ⟨_, .inr rfl, ?_⟩
    rw [RiskLoop.importCashWith, hdone, cashed, cash, if_neg hsame]
    rfl

private theorem equity_cashed (now : Rat) : (cashed s broker now balance).equity = cash s balance + s.worth := by
  rw [equity_eq]
  rfl

private theorem engine_cashed (now : Rat) (i : Option Nat) : (cashed s broker now balance).engine i = s.engine i := by
  cases i <;> rfl

/-- Whole paise that are less than half of the last decimal are none. -/
private theorem eq_zero_of_abs_le {x : Rat} (hx : x ∈ grid 2) (hle : |x| ≤ 1 / 2 / 10 ^ PRICE_PRECISION) : x = 0 := by
  obtain ⟨n, rfl⟩ := AddSubgroup.mem_zmultiples_iff.mp hx
  rw [zsmul_eq_mul, abs_mul, ← Int.cast_abs, PRICE_PRECISION] at hle
  norm_num at hle
  have hn : |n| < 1 := by
    have h : ((|n| : Int) : Rat) < 1 := by
      rw [Int.cast_abs]
      linarith
    exact_mod_cast h
  rw [Int.abs_lt_one_iff.mp hn, zero_zsmul]

private theorem worth_mem (s : RiskLoop) : s.worth ∈ grid 2 := by
  apply list_sum_mem
  intro x hx
  obtain ⟨p, -, rfl⟩ := List.mem_map.mp hx
  exact Execution.round_mem _ _

/-- Imported cash and the positions are worth the balance if the positions are worth nothing
and the balance is imported as it is. -/
private theorem cash_add_worth_eq_iff : cash s balance + s.worth = balance ↔
    s.worth = 0 ∧ (balance = s.ctx.balance ∨ round balance PRICE_PRECISION = balance) := by
  rw [cash]
  split
  · next h =>
    rw [add_eq_left]
    exact ⟨fun hw => ⟨hw, .inl h⟩, And.left⟩
  · next h =>
    constructor
    · intro he
      have hr := abs_round_sub_le balance PRICE_PRECISION
      have hw : s.worth = 0 := by
        apply eq_zero_of_abs_le (worth_mem s)
        rw [← abs_neg, show -s.worth = round balance PRICE_PRECISION - balance by linarith]
        exact hr
      rw [hw, add_zero] at he
      exact ⟨hw, .inr he⟩
    · rintro ⟨hw, hb | hb⟩
      · exact absurd hb h
      · rw [hw, hb, add_zero]

/-- What re-basing leaves of an engine that measures from its new baseline. -/
private theorem Level.rebase {e : RiskEngine} (hp : e.peak balance = balance) (hr : e.rebased = false) :
    Level balance (e.rebase balance) := by
  rw [RiskEngine.rebase, if_neg (by rw [hr]; exact Bool.false_ne_true)]
  exact ⟨rfl, hp⟩

private theorem rebase_same (e : RiskEngine) (balance : Rat) :
    (e.rebase balance).limits = e.limits ∧ (e.rebase balance).halted = e.halted := by
  rw [RiskEngine.rebase]
  split <;> exact ⟨rfl, rfl⟩

/-- A first import that finds the books on its basis levels every engine, and halts none. -/
private theorem level_import {now : Rat} {reactions : List BookAct} (h : s.firstImport broker = some balance)
    (hq : ∀ a ∈ reactions, a.isQuiet = true) (hb : OnBasis s ⟨.importCash broker now, reactions⟩) (i : Option Nat) :
    (s.importCashWith broker now reactions).equity = balance ∧
      ∀ e, (s.importCashWith broker now reactions).engine i = some e → Level balance e ∧
        (Nonnegative e.limits → (∀ a ∈ reactions, a.isHalt = false) → e.halted = true →
          ∃ e₀, s.engine i = some e₀ ∧ e₀.halted = true) := by
  obtain ⟨hw, hcash, hpeak, hstart, hloss⟩ := hb balance h
  obtain ⟨hrebased, -⟩ := firstImport_eq_some h
  obtain ⟨s₂, hs₂, heq⟩ := importCashWith_eq now reactions h
  have hequity : (cashed s broker now balance).equity = balance := by
    rw [equity_cashed]
    exact cash_add_worth_eq_iff.mpr ⟨hw, hcash⟩
  let H : Prop := (∀ a ∈ reactions, a.isHalt = false) → ∃ e₀, s.engine i = some e₀ ∧ e₀.halted = true
  -- until it is re-based, the kernel's own engine has its old start balance
  let P : RiskEngine → Prop := fun e => e.peak balance = balance ∧ (Nonnegative e.limits → e.halted = true → H) ∧
    if i = none then e.rebased = false ∧ e.startBalance = s.own.startBalance ∧ e.limits = s.own.limits
    else e.startBalance = balance
  have hinit : ∀ e, (cashed s broker now balance).engine i = some e → P e := by
    intro e he
    rw [engine_cashed] at he
    refine ⟨?_, fun _ hh _ => ⟨e, he, hh⟩, ?_⟩
    · cases i with
      | none =>
        obtain rfl := Option.some.inj he
        exact hpeak _ List.mem_cons_self
      | some i => exact hpeak e (List.mem_cons_of_mem _ (List.mem_of_getElem? he))
    · cases i with
      | none =>
        obtain rfl := Option.some.inj he
        exact ⟨hrebased, rfl, rfl⟩
      | some i => exact hstart e (List.mem_of_getElem? he)
  have hphase : s₂.ctx = (cashed s broker now balance).ctx ∧ ∀ e, s₂.engine i = some e → P e := by
    rcases hs₂ with rfl | rfl
    · exact ⟨rfl, hinit⟩
    · apply quiet_acts reactions hq hinit
      · rintro hm e ⟨hp, hh, hl⟩
        rw [hequity]
        obtain ⟨hstart', hlimits', hrebased'⟩ := @RiskEngine.updateBreakers_keeps e balance
        have hex : Nonnegative e.limits → e.exceeded balance = false := by
          intro hn
          split_ifs at hl with hi
          · apply not_exceeded hp _ hn.2
            intro cap hcap
            rw [hl.2.1]
            exact hloss (hi ▸ hm) cap (hl.2.2 ▸ hcap)
          · exact Level.not_exceeded ⟨hl, hp⟩ hn
        refine ⟨peak_updateBreakers.trans hp, fun hn hhalted => ?_, ?_⟩
        · rw [hlimits'] at hn
          rw [RiskEngine.updateBreakers_exceeded, hex hn, Bool.or_false] at hhalted
          exact hh hn hhalted
        · rw [hstart', hlimits', hrebased']
          exact hl
      · rintro ⟨a, ha, hh⟩ e reason ⟨hp, -, hl⟩
        exact ⟨hp, fun _ _ hno => absurd hh (by rw [hno a ha]; simp), hl⟩
  rw [heq]
  refine ⟨?_, fun e he => ?_⟩
  · rw [← hequity, RiskLoop.equity, RiskLoop.equity, ← hphase.1]
  · cases i with
    | none =>
      obtain rfl := Option.some.inj he
      obtain ⟨hp, hh, hr, -⟩ := hphase.2 _ rfl
      obtain ⟨hlimits', hhalted'⟩ := rebase_same s₂.own balance
      refine ⟨Level.rebase hp hr, fun hn hno hhalt => ?_⟩
      rw [hlimits'] at hn
      rw [hhalted'] at hhalt
      exact hh hn hhalt hno
    | some i =>
      obtain ⟨hp, hh, hl⟩ := hphase.2 e he
      exact ⟨⟨hl, hp⟩, fun hn hno hhalt => hh hn hhalt hno⟩

end Import

section Steps
variable {s : RiskLoop} {m : Announced}

/-- A resume of a halted engine, while the positions are worth nothing. -/
private theorem level_resume {i : Option Nat} (hi : (s.engine i).any RiskEngine.halted) :
    (s.act RiskLoop.equity (.resume i)).equity = s.equity ∧
      ∃ e, (s.act RiskLoop.equity (.resume i)).engine i = some e ∧ e.startBalance = s.ctx.balance ∧
        e.peakEquity = none ∧ e.halted = false := by
  obtain ⟨e, he, hh⟩ : ∃ e, s.engine i = some e ∧ e.halted = true := by
    cases he : s.engine i with
    | none => rw [he] at hi; cases hi
    | some e => exact ⟨e, rfl, by rw [he] at hi; exact hi⟩
  have hact : s.resumeEngine i = { s.setEngine (e.resume s.ctx.balance) i with halted := false } := by
    rw [RiskLoop.resumeEngine, he]
    exact if_pos hh
  have hctx : (s.act RiskLoop.equity (.resume i)).ctx = s.ctx := by
    show (s.resumeEngine i).ctx = s.ctx
    rw [hact]
    exact ctx_setEngine _ i
  refine ⟨by rw [RiskLoop.equity, RiskLoop.equity, hctx], e.resume s.ctx.balance, ?_, rfl, rfl, rfl⟩
  cases i with
  | none =>
    show some (s.resumeEngine none).own = _
    rw [hact]
    rfl
  | some k =>
    have hk : s.perStrategy[k]? = some e := he
    have hlt := (List.getElem?_eq_some_iff.mp hk).1
    show (s.resumeEngine (some k)).perStrategy[k]? = _
    rw [hact]
    exact List.getElem?_set_self hlt

/-- Without handlers an import halts nothing. -/
private theorem bare_import {broker : BrokerReport} {balance : Rat} (now : Rat) (h : s.firstImport broker = some balance)
    {i : Option Nat} {e₀ : RiskEngine} (he : s.engine i = some e₀) :
    (s.importCashWith broker now []).engine i = some (if i = none then e₀.rebase balance else e₀) := by
  obtain ⟨s₂, hs₂, heq⟩ := importCashWith_eq now [] h
  have hsame : s₂ = cashed s broker now balance := by
    rcases hs₂ with hs | hs
    · exact hs
    · exact hs
  rw [heq, hsame]
  cases i with
  | none =>
    obtain rfl := Option.some.inj he
    rfl
  | some i => exact he

/-- What an act finds on its basis it leaves consistent. -/
theorem consistent_of_onBasis (h : OnBasis s m) : Consistent s m := by
  intro i hbases later hlater
  obtain ⟨hquiet, hact⟩ := hbases
  obtain ⟨a, reactions⟩ := m
  cases a with
  | resume j =>
    obtain ⟨rfl, hi⟩ := hact
    have hw : s.worth = 0 := h hi
    obtain ⟨hequity, e₀, he₀, hstart, hpeak, hrun⟩ := level_resume hi
    have hinit : ∀ e, (s.act RiskLoop.equity (.resume i)).engine i = some e →
        Level (s.act RiskLoop.equity (.resume i)).equity e ∧ (Nonnegative e.limits → e.halted = true → False) := by
      intro e he
      obtain rfl := Option.some.inj (he₀.symm.trans he)
      refine ⟨⟨?_, ?_⟩, fun _ hh => absurd hh (by rw [hrun]; simp)⟩
      · rw [hequity, equity_eq, hw, add_zero, hstart]
      · rw [RiskEngine.peak, hpeak]
    have hall : ∀ a ∈ reactions ++ later, a.isQuiet = true := by
      intro a ha
      exact (List.mem_append.mp ha).elim (hquiet a) (hlater a)
    intro s' e he
    have hs' : s' = (s.act RiskLoop.equity (.resume i)).acts RiskLoop.equity (reactions ++ later) :=
      (acts_append reactions later).symm
    rw [hs'] at he ⊢
    obtain ⟨hlevel, hhalt⟩ := level_acts (reactions ++ later) hall hinit e he
    exact ⟨hlevel, fun hn hno hh => (hhalt hn hno hh).elim⟩
  | importCash broker now =>
    obtain ⟨balance, hb⟩ := Option.isSome_iff_exists.mp hact
    obtain ⟨hequity, hengine⟩ := level_import hb hquiet h i
    have hinit : ∀ e, (s.importCashWith broker now reactions).engine i = some e →
        Level (s.importCashWith broker now reactions).equity e ∧ (Nonnegative e.limits → e.halted = true →
          (∀ a ∈ reactions, a.isHalt = false) → ∃ e₀, s.engine i = some e₀ ∧ e₀.halted = true) := by
      intro e he
      obtain ⟨hlevel, hhalt⟩ := hengine e he
      rw [hequity]
      exact ⟨hlevel, fun hn hh hno => hhalt hn hno hh⟩
    intro s' e he
    obtain ⟨hlevel, hhalt⟩ := level_acts later hlater hinit e he
    refine ⟨hlevel, fun hn hno hh => ?_⟩
    obtain ⟨e₀, he₀, hh₀⟩ := hhalt hn (fun a ha => hno a (List.mem_append_right _ ha)) hh
      fun a ha => hno a (List.mem_append_left _ ha)
    refine ⟨_, bare_import now hb he₀, ?_⟩
    split
    · rw [(rebase_same e₀ balance).2, hh₀]
    · exact hh₀
  | _ => exact hact.elim

/-- Where no handler comes in between, only what an act finds on its basis it leaves consistent. -/
theorem onBasis_of_consistent (hm : m.reactions = []) (h : Consistent s m) : OnBasis s m := by
  obtain ⟨a, reactions⟩ := m
  obtain rfl : reactions = [] := hm
  cases a with
  | resume i =>
    intro hi
    obtain ⟨hequity, e₀, he₀, hstart, -, -⟩ := level_resume hi
    obtain ⟨hlevel, -⟩ := h i ⟨(fun _ ha => nomatch ha), rfl, hi⟩ [] (fun _ ha => nomatch ha) e₀ he₀
    have hloss : e₀.startBalance = s.equity := hlevel.loss.trans hequity
    rw [hstart, equity_eq] at hloss
    linarith
  | importCash broker now =>
    intro balance hb
    have hbases (i : Option Nat) : s.Bases ⟨.importCash broker now, []⟩ i :=
      ⟨(fun _ ha => nomatch ha), Option.isSome_iff_exists.mpr ⟨balance, hb⟩⟩
    have hlevel (i : Option Nat) (e₀ : RiskEngine) (he : s.engine i = some e₀) :
        Level (cash s balance + s.worth) (if i = none then e₀.rebase balance else e₀) := by
      have hl := (h i (hbases i) [] (fun _ ha => nomatch ha) _ (bare_import now hb he)).1
      obtain ⟨s₂, hs₂, heq⟩ := importCashWith_eq now [] hb
      have hequity : (s.importCashWith broker now []).equity = cash s balance + s.worth := by
        rw [heq, ← @equity_cashed s broker balance now]
        rcases hs₂ with rfl | rfl <;> rfl
      rw [← hequity]
      exact hl
    obtain ⟨hrebased, -⟩ := firstImport_eq_some hb
    have hown := hlevel none s.own rfl
    rw [if_pos rfl, RiskEngine.rebase, if_neg (by rw [hrebased]; exact Bool.false_ne_true)] at hown
    have he : cash s balance + s.worth = balance := hown.loss.symm
    obtain ⟨hw, hcash⟩ := cash_add_worth_eq_iff.mp he
    rw [he] at hlevel hown
    have hper : ∀ e ∈ s.perStrategy, Level balance e := by
      intro e hm
      obtain ⟨k, hk⟩ := List.getElem?_of_mem hm
      exact hlevel (some k) e hk
    refine ⟨hw, hcash, fun e hm => ?_, fun e hm => (hper e hm).loss, fun ha => nomatch ha⟩
    rcases List.mem_cons.mp hm with rfl | hm
    · exact hown.drawdown
    · exact (hper e hm).drawdown
  | _ => trivial

end Steps

/-- The baselines over a run. Where every first import and every resume finds the books on its basis, whatever
is re-based measures from the equity, with no loss and no drawdown until the books change, and
no breaker halts an engine for it. Where handlers do nothing in between, an act leaves its engines so only then. -/
theorem baselines_on_basis (cash : Rat) (limits : Limits) (instruments : Instruments) (ms : List Announced) :
    let start := RiskLoop.start cash limits instruments
    ((∀ pre m, pre ++ [m] <+: ms → OnBasis (start.announceAll pre) m) →
      ∀ pre m, pre ++ [m] <+: ms → Consistent (start.announceAll pre) m) ∧
    ∀ pre m, pre ++ [m] <+: ms → m.reactions = [] →
      (Consistent (start.announceAll pre) m ↔ OnBasis (start.announceAll pre) m) := by
  intro start
  constructor
  · intro h pre m hp
    exact consistent_of_onBasis (h pre m hp)
  · intro pre m _ hm
    exact ⟨onBasis_of_consistent hm, consistent_of_onBasis⟩

def shortImported : List Announced :=
  [⟨.evaluate none, []⟩, ⟨.importRow { symbol := "TCS", quantity := some (-10), ltp := some 100 } 0, []⟩,
    ⟨.dropUnreported ["TCS"] 0, []⟩]

def cashImport : Announced where
  act := .importCash { positions := some [], balance := some 100000 } 0

/-- The import makes a loss of a thousand, and the next check halts; so does the resume after it. -/
theorem short_import_trips :
    let start := RiskLoop.start 100000 { maxDailyLoss := some 500 } Dict.empty
    let imported := start.announceAll (shortImported ++ [cashImport])
    let checked := imported.announce { act := .evaluate none }
    ¬ Consistent (start.announceAll shortImported) cashImport ∧ checked.own.halted = true ∧
      ¬ Consistent checked { act := .resume none } ∧
      ((checked.announce { act := .resume none }).announce { act := .evaluate none }).own.halted = true := by
  intro start imported checked
  refine ⟨fun h => ?_, by decide +kernel, fun h => ?_, by decide +kernel⟩
  · have hb := onBasis_of_consistent rfl h 100000 (by decide +kernel)
    have hw := hb.1
    revert hw
    decide +kernel
  · have hw := onBasis_of_consistent rfl h (by decide +kernel)
    revert hw
    decide +kernel

end NTrade.Runner
