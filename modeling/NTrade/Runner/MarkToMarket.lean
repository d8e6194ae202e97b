import NTrade.Runner.RiskLoop

/-! What the breakers see of the market. Equity values a position at the price in it, which
fills and imports write and ticks do not: the price of a tick is in the instrument's quote. -/
namespace NTrade.Runner
open NTrade.Domain NTrade.Events NTrade.Engines NTrade.Execution NTrade.Lib

def ticks (symbol : String) : BookAct → Option Rat
  | .tick tick => if tick.symbol = symbol then some tick.price else none
  | _ => none

def writes (symbol : String) : BookAct → Option Rat
  | .fill e => if e.symbol = symbol then some e.fillPrice else none
  | .reprice s close => if s = symbol then some close else none
  | .importRow bp _ => if bp.symbol = symbol then some (toFloat bp.ltp) else none
  | _ => none

def lastTicked (symbol : String) (t : List BookAct) : Option Rat := Trace.last (ticks symbol) t

def lastWritten (symbol : String) (t : List BookAct) : Option Rat := Trace.last (writes symbol) t

def tickedValue (t : List BookAct) (p : Domain.Position) : Rat :=
  match lastTicked p.symbol t with
  | none => p.marketValue
  | some price => p.quantity * price

/-- Cash, and every position at the latest price ticked for its symbol. -/
def tickedEquity (s : RiskLoop) : Rat := s.ctx.balance + (s.ctx.positions.map (tickedValue s.trace)).sum

/-- The latest tick of every open position is also what was written into it last, and its
value is in whole paise. -/
def TicksWritten (s : RiskLoop) : Prop :=
  ∀ p ∈ s.ctx.positions, p.quantity ≠ 0 → ∀ price, lastTicked p.symbol s.trace = some price →
    lastWritten p.symbol s.trace = some price ∧ p.quantity * price ∈ grid 2

structure Carries (s : RiskLoop) : Prop where
  unique : (s.ctx.positions.map Domain.Position.symbol).Nodup
  carried : ∀ symbol p, s.ctx.position symbol = some p → lastWritten symbol s.trace = some p.ltp

section
variable {s s' : RiskLoop} {mark : RiskLoop → Rat}

private theorem lastWritten_act (symbol : String) (a : BookAct) :
    lastWritten symbol (s.act mark a).trace = (writes symbol a).or (lastWritten symbol s.trace) :=
  Trace.last_concat _ _ _

/-- An act on the position of one symbol, which writes its price. -/
private theorem Carries.write (h : Carries s) (a : BookAct) (symbol : String) (price : Rat)
    (f : Option Domain.Position → Option Domain.Position)
    (hn : ((s.act mark a).ctx.positions.map Domain.Position.symbol).Nodup)
    (hw : ∀ sym, writes sym a = if symbol = sym then some price else none)
    (hp : ∀ sym, (s.act mark a).ctx.position sym = if sym = symbol then f (s.ctx.position sym) else s.ctx.position sym)
    (hf : ∀ o p, f o = some p → p.ltp = price) : Carries (s.act mark a) := by
  refine ⟨hn, fun sym p hs => ?_⟩
  rw [lastWritten_act, hw]
  rw [hp] at hs
  by_cases he : sym = symbol
  · rw [if_pos he] at hs
    rw [if_pos he.symm, hf _ _ hs]
    rfl
  · rw [if_neg he] at hs
    rw [if_neg (Ne.symm he)]
    exact h.carried sym p hs

/-- An act that adds and writes no position. -/
private theorem Carries.keep (h : Carries s) (a : BookAct)
    (hn : ((s.act mark a).ctx.positions.map Domain.Position.symbol).Nodup) (hw : ∀ sym, writes sym a = none)
    (hp : ∀ sym p, (s.act mark a).ctx.position sym = some p → s.ctx.position sym = some p) : Carries (s.act mark a) := by
  refine ⟨hn, fun sym p hs => ?_⟩
  rw [lastWritten_act, hw]
  exact h.carried sym p (hp sym p hs)

private theorem Carries.same (h : Carries s) (a : BookAct) (hw : ∀ sym, writes sym a = none)
    (hc : (s.act mark a).ctx.positions = s.ctx.positions) : Carries (s.act mark a) := by
  refine h.keep a (hc ▸ h.unique) hw fun sym p hs => ?_
  unfold TradingContext.position at hs ⊢
  rwa [hc] at hs

private theorem Carries.fill (h : Carries s) (e : OrderFilled) : Carries (s.act mark (.fill e)) := by
  refine h.write (.fill e) e.symbol e.fillPrice (filled e) (onFilled_positions_nodup h.unique) (fun _ => rfl)
    (fun _ => position_onFilled h.unique) fun o p hp => ?_
  unfold filled at hp
  split at hp
  · obtain rfl := Option.some.inj hp
    rfl
  · split at hp
    · cases hp
    · obtain rfl := Option.some.inj hp
      rfl

private theorem Carries.reprice (h : Carries s) (symbol : String) (close : Rat) :
    Carries (s.act mark (.reprice symbol close)) := by
  have hkey (p : Domain.Position) (hp : p.symbol = symbol) : ({ p with ltp := close } : Domain.Position).symbol = symbol := hp
  refine h.write (.reprice symbol close) symbol close (Option.map fun p => { p with ltp := close }) ?_ (fun _ => rfl)
    (fun _ => Keyed.lookup_revise hkey) fun o p hp => ?_
  · show ((Keyed.revise _ _ _ _).map _).Nodup
    rw [Keyed.map_key_revise hkey]
    exact h.unique
  · obtain ⟨q, -, rfl⟩ := Option.map_eq_some_iff.mp hp
    rfl

private theorem Carries.importRow (h : Carries s) (bp : BrokerPosition) (now : Rat) :
    Carries (s.act mark (.importRow bp now)) := by
  refine h.write (.importRow bp now) bp.symbol (toFloat bp.ltp) (fun o => some (imported bp o))
    (@nodup_upsert now { ctx := s.ctx } bp h.unique) (fun _ => rfl)
    (fun symbol => @position_upsert now { ctx := s.ctx } symbol bp) fun o p hp => ?_
  obtain rfl := Option.some.inj hp
  rfl

private theorem Carries.dropUnreported (h : Carries s) (symbols : List String) (now : Rat) :
    Carries (s.act mark (.dropUnreported symbols now)) := by
  refine h.keep _ (h.unique.sublist (List.filter_sublist.map _)) (fun _ => rfl) fun sym p hp => ?_
  have hd := @position_dropUnreported now { ctx := s.ctx } sym symbols
  have hp := hd.symm.trans hp
  split at hp
  · exact hp
  · cases hp

theorem Carries.act (h : Carries s) (a : BookAct) : Carries (s.act mark a) := by
  cases a with
  | fill e => exact h.fill e
  | reprice symbol close => exact h.reprice symbol close
  | importRow bp now => exact h.importRow bp now
  | dropUnreported symbols now => exact h.dropUnreported symbols now
  | importCash broker now => exact h.same _ (fun _ => rfl) (positions_importCash _)
  | evaluate i => exact h.same _ (fun _ => rfl) (congrArg TradingContext.positions (ctx_evaluate _ i))
  | halt i reason => exact h.same _ (fun _ => rfl) (congrArg TradingContext.positions (ctx_haltEngine reason i))
  | resume i => exact h.same _ (fun _ => rfl) (congrArg TradingContext.positions (ctx_resumeEngine i))
  | _ => exact h.same _ (fun _ => rfl) rfl

theorem Carries.acts (h : Carries s) (as : List BookAct) : Carries (s.acts mark as) := by
  induction as generalizing s with
  | nil => exact h
  | cons a as ih => exact ih (h.act a)

theorem Carries.start (cash : Rat) (limits : Limits) (instruments : Instruments) :
    Carries (RiskLoop.start cash limits instruments) :=
  ⟨List.nodup_nil, fun _ _ hp => nomatch hp⟩

private theorem tickedValue_eq (h : Carries s) (ht : TicksWritten s) {p : Domain.Position} (hp : p ∈ s.ctx.positions) :
    tickedValue s.trace p = p.marketValue := by
  unfold tickedValue
  split
  · rfl
  · next price hl =>
    by_cases hq : p.quantity = 0
    · rw [Domain.Position.marketValue, hq]
      simp [round_of_mem (zero_mem _)]
    · obtain ⟨hw, hg⟩ := ht p hp hq price hl
      have hc := h.carried p.symbol p (Keyed.lookup_mem h.unique hp)
      obtain rfl := Option.some.inj (hw.symm.trans hc)
      exact (round_of_mem hg).symm

/-- Where the ticks were written into the positions, the engine's equity is the market's. -/
theorem equity_eq_tickedEquity (h : Carries s) (ht : TicksWritten s) : s.equity = tickedEquity s := by
  unfold RiskLoop.equity readingOf Reading.equity tickedEquity
  dsimp only
  rw [List.map_map]
  congr 2
  apply List.map_congr_left
  intro p hp
  exact (tickedValue_eq h ht hp).symm

private structure Alike (s s' : RiskLoop) : Prop where
  ctx : s.ctx = s'.ctx
  trace : s.trace = s'.trace
  own : s.own = s'.own

private theorem Alike.act (h : Alike s s') (a : BookAct) (ha : a = .evaluate none → s.equity = tickedEquity s) :
    Alike (s.act RiskLoop.equity a) (s'.act tickedEquity a) := by
  obtain ⟨hc, ht, ho⟩ := h
  have htrace : (s.act RiskLoop.equity a).trace = (s'.act tickedEquity a).trace := congrArg (· ++ [a]) ht
  have hmark : tickedEquity s = tickedEquity s' := by
    unfold tickedEquity
    rw [hc, ht]
  refine ⟨?_, htrace, ?_⟩
  · cases a with
    | evaluate i => exact (ctx_evaluate _ i).trans (hc.trans (ctx_evaluate _ i).symm)
    | halt i reason => exact (ctx_haltEngine reason i).trans (hc.trans (ctx_haltEngine reason i).symm)
    | resume i => exact (ctx_resumeEngine i).trans (hc.trans (ctx_resumeEngine i).symm)
    | _ => simp only [RiskLoop.act, RiskLoop.effect, RiskLoop.importCash, hc]
  · cases a with
    | evaluate i =>
      show (s.evaluate s.equity i).own = (s'.evaluate (tickedEquity s') i).own
      rw [own_evaluate, own_evaluate, ho]
      by_cases hi : i = none
      · rw [if_pos hi, if_pos hi, ha (congrArg _ hi), hmark]
      · rw [if_neg hi, if_neg hi]
    | halt i reason =>
      show (s.haltEngine reason i).own = (s'.haltEngine reason i).own
      rw [own_haltEngine, own_haltEngine, ho]
    | resume i =>
      show (s.resumeEngine i).own = (s'.resumeEngine i).own
      rw [own_resumeEngine, own_resumeEngine, ho, hc]
    | _ => simp only [RiskLoop.act, RiskLoop.effect, RiskLoop.importCash, hc, ho]

private theorem acts_concat (as : List BookAct) (a : BookAct) :
    s.acts mark (as ++ [a]) = (s.acts mark as).act mark a := acts_append as [a]

private theorem Alike.acts (hs : Carries s) (as : List BookAct)
    (h : ∀ pre, pre ++ [BookAct.evaluate none] <+: as → TicksWritten (s.acts RiskLoop.equity pre)) :
    Alike (s.acts RiskLoop.equity as) (s.acts tickedEquity as) := by
  induction as using List.reverseRecOn with
  | nil => exact ⟨rfl, rfl, rfl⟩
  | append_singleton as a ih =>
    rw [acts_concat, acts_concat]
    refine (ih fun pre hp => h pre (hp.trans (List.prefix_append as [a]))).act a fun ha => ?_
    exact equity_eq_tickedEquity (hs.acts as) (h as (ha ▸ List.prefix_rfl))

end

def boughtTen : List BookAct :=
  [.fill { buyOne 100 with quantity := 10 }]

def lossCapped : RiskLoop := RiskLoop.start 1000 { maxDailyLoss := some 50 } (register "TCS" Dict.empty)

end NTrade.Runner
