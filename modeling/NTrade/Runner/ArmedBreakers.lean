import NTrade.Runner.RiskLoop

/-! Which breakers the loops evaluate. Limits may be on the kernel's own engine or on the
engines that runners wire to it; both loops check the kernel's own. -/
namespace NTrade.Runner
open NTrade.Domain NTrade.Events NTrade.Engines NTrade.Lib

inductive LoopMove where
  | act (a : BookAct)
  /-- `LiveRunner.step`: what a halt by its check sets off, then what it polls, imports and
  finds of the feed. -/
  | step (reactions rest : List BookAct)
  /-- `PaperTraderService._snapshot_loop`: the close of a bar, a sync and a check. -/
  | snapshot (bar : Option (String × Rat)) (broker : BrokerReport) (now : Rat)

def refresh (bar : Option (String × Rat)) (broker : BrokerReport) (now : Rat) : List BookAct :=
  (bar.map fun b => .reprice b.1 b.2).toList ++ syncActs broker now

def loopMove (s : RiskLoop) : LoopMove → RiskLoop
  | .act a => s.act RiskLoop.equity a
  | .step reactions rest =>
    let s := (s.act RiskLoop.equity (.evaluate none)).acts RiskLoop.equity reactions
    if s.halted then s else s.acts RiskLoop.equity rest
  | .snapshot bar broker now =>
    (s.acts RiskLoop.equity (refresh bar broker now)).act RiskLoop.equity (.evaluate none)

def runLoop (moves : List LoopMove) (s : RiskLoop) : RiskLoop := moves.foldl loopMove s

def LoopMove.isPass : LoopMove → Bool
  | .act _ => false
  | _ => true

def LoopMove.isBare : LoopMove → Bool
  | .act _ => false
  | .step reactions rest => reactions.isEmpty && rest.isEmpty
  | .snapshot _ _ _ => true

/-- An engine whose limits the equity exceeds is halted. -/
def Heeded (s : RiskLoop) (e : RiskEngine) : Prop := e.exceeded s.equity = true → e.halted = true

/-- Every armed breaker is evaluated: each wired engine is halted if its limits are exceeded. -/
def Evaluated (s : RiskLoop) : Prop := ∀ e ∈ s.wired, Heeded s e

/-- An act that leaves the books and the baselines of the engines, and wires none. -/
def BookAct.keepsBooks : BookAct → Bool
  | .tick _ | .evaluate _ | .halt _ _ | .announceHalt | .release _ => true
  | _ => false

/-- What a pass does not check is in order before it does, and the rest of the pass leaves
the books as they are. -/
def Covered (s : RiskLoop) : LoopMove → Prop
  | .act _ => True
  | .step reactions rest => (∀ e ∈ s.perStrategy, Heeded s e) ∧ ∀ a ∈ reactions ++ rest, a.keepsBooks = true
  | .snapshot bar broker now =>
    let s := s.acts RiskLoop.equity (refresh bar broker now)
    ∀ e ∈ s.perStrategy, Heeded s e

instance (s : RiskLoop) (e : RiskEngine) : Decidable (Heeded s e) :=
  inferInstanceAs (Decidable (e.exceeded s.equity = true → e.halted = true))

instance (s : RiskLoop) : Decidable (Evaluated s) :=
  inferInstanceAs (Decidable (∀ e ∈ s.wired, Heeded s e))

section
variable {s : RiskLoop} {e : RiskEngine} {equity : Rat}

/-- The peak that an evaluation leaves is not below the equity it saw. -/
private theorem peak_seen : ({ e with peakEquity := some (e.peak equity) } : RiskEngine).peak equity = e.peak equity :=
  max_eq_left (e.le_peak equity)

/-- An engine that has evaluated its breakers is halted if its limits are exceeded. -/
theorem halted_of_exceeded_updateBreakers (h : (e.updateBreakers equity).1.exceeded equity = true) :
    (e.updateBreakers equity).1.halted = true := by
  rw [RiskEngine.updateBreakers_exceeded]
  cases hh : e.halted with
  | true => rfl
  | false =>
    cases ht : e.tripped equity with
    | some reason => rw [← RiskEngine.tripped_isSome, ht]; rfl
    | none =>
      have hseen : (e.updateBreakers equity).1 = { e with peakEquity := some (e.peak equity) } := by
        simp [RiskEngine.updateBreakers, hh, ht]
      rw [hseen, RiskEngine.exceeded, peak_seen] at h
      exact h

private theorem mem_setEngine {e' : RiskEngine} {i : Option Nat} (h : e' ∈ (s.setEngine e i).wired) :
    e' = e ∨ e' ∈ s.wired := by
  cases i with
  | none =>
    rcases List.mem_cons.mp h with h | h
    · exact .inl h
    · exact .inr (List.mem_cons_of_mem _ h)
  | some i =>
    rcases List.mem_cons.mp h with h | h
    · exact .inr (List.mem_cons.mpr (.inl h))
    · rcases List.mem_or_eq_of_mem_set h with h | h
      · exact .inr (List.mem_cons_of_mem _ h)
      · exact .inl h

private theorem equity_setEngine (i : Option Nat) : (s.setEngine e i).equity = s.equity := by
  cases i <;> rfl

/-- An engine that is set to be in order leaves the others so. -/
private theorem Evaluated.setEngine (h : Evaluated s) (i : Option Nat) (he : Heeded s e) :
    Evaluated (s.setEngine e i) := by
  intro e' hm
  unfold Heeded
  rw [equity_setEngine]
  rcases mem_setEngine hm with rfl | hm
  · exact he
  · exact h e' hm

private theorem Evaluated.evaluate (h : Evaluated s) (i : Option Nat) : Evaluated (s.evaluate s.equity i) := by
  unfold RiskLoop.evaluate
  split
  · exact h
  · exact Evaluated.setEngine h i halted_of_exceeded_updateBreakers

private theorem Evaluated.haltEngine (h : Evaluated s) (reason : HaltReason) (i : Option Nat) :
    Evaluated (s.haltEngine reason i) := by
  unfold RiskLoop.haltEngine
  split
  · exact h
  · split
    · exact h
    · exact Evaluated.setEngine h i fun _ => rfl

theorem Evaluated.act (h : Evaluated s) {a : BookAct} (ha : a.keepsBooks = true) :
    Evaluated (s.act RiskLoop.equity a) := by
  cases a with
  | tick tick => exact h
  | announceHalt => exact h
  | evaluate i => exact Evaluated.evaluate h i
  | halt i reason => exact Evaluated.haltEngine h reason i
  | release strategies =>
    intro e he
    rcases List.mem_cons.mp he with rfl | he
    · exact h _ List.mem_cons_self
    · exact h e (List.mem_cons_of_mem _ (List.mem_of_mem_filter he))
  | _ => cases ha

theorem Evaluated.acts (h : Evaluated s) {as : List BookAct} (ha : ∀ a ∈ as, a.keepsBooks = true) :
    Evaluated (s.acts RiskLoop.equity as) := by
  induction as generalizing s with
  | nil => exact h
  | cons a as ih => exact ih (h.act (ha a List.mem_cons_self)) fun a hm => ha a (List.mem_cons_of_mem _ hm)

/-- A check puts the kernel's own engine in order, and no other. -/
theorem evaluated_check : Evaluated (s.act RiskLoop.equity (.evaluate none)) ↔ ∀ e ∈ s.perStrategy, Heeded s e := by
  constructor
  · intro h e he
    exact h e (List.mem_cons_of_mem _ he)
  · intro h e he
    rcases List.mem_cons.mp he with rfl | he
    · exact halted_of_exceeded_updateBreakers
    · exact h e he

theorem evaluated_loopMove {m : LoopMove} (hm : m.isPass = true) (h : Covered s m) : Evaluated (loopMove s m) := by
  cases m with
  | act a => cases hm
  | step reactions rest =>
    obtain ⟨hothers, hrest⟩ := h
    have hdone : Evaluated ((s.act RiskLoop.equity (.evaluate none)).acts RiskLoop.equity reactions) :=
      (evaluated_check.mpr hothers).acts fun a ha => hrest a (List.mem_append_left _ ha)
    unfold loopMove
    dsimp only
    split
    · exact hdone
    · exact hdone.acts fun a ha => hrest a (List.mem_append_right _ ha)
  | snapshot bar broker now => exact evaluated_check.mpr h

theorem evaluated_bare {m : LoopMove} (hm : m.isBare = true) : Evaluated (loopMove s m) ↔ Covered s m := by
  cases m with
  | act a => cases hm
  | step reactions rest =>
    obtain ⟨hr, hs⟩ := Bool.and_eq_true_iff.mp hm
    obtain rfl := List.isEmpty_iff.mp hr
    obtain rfl := List.isEmpty_iff.mp hs
    have hsame : loopMove s (.step [] []) = s.act RiskLoop.equity (.evaluate none) := by
      unfold loopMove
      exact ite_self _
    rw [hsame, evaluated_check]
    exact ⟨fun h => ⟨h, fun a ha => nomatch ha⟩, And.left⟩
  | snapshot bar broker now => exact evaluated_check

end

/-- In a run whose passes are all covered, every wired engine whose limits are exceeded is
halted after each pass; and where a pass does nothing but check, only if it is covered. -/
theorem covered_passes_evaluate_all (s : RiskLoop) (moves : List LoopMove) :
    ((∀ pre m, pre ++ [m] <+: moves → Covered (runLoop pre s) m) →
      ∀ pre m, pre ++ [m] <+: moves → m.isPass = true → Evaluated (runLoop (pre ++ [m]) s)) ∧
    ∀ pre m, pre ++ [m] <+: moves → m.isBare = true →
      (Evaluated (runLoop (pre ++ [m]) s) ↔ Covered (runLoop pre s) m) := by
  have hrun (pre : List LoopMove) (m : LoopMove) : runLoop (pre ++ [m]) s = loopMove (runLoop pre s) m :=
    List.foldl_append
  refine ⟨fun h pre m hp hm => ?_, fun pre m hp hm => ?_⟩
  · rw [hrun]
    exact evaluated_loopMove hm (h pre m hp)
  · rw [hrun]
    exact evaluated_bare hm

def limitedStrategy : RiskLoop := RiskLoop.start 1000 {} Dict.empty

def fallenTen (limits : Limits) : List LoopMove :=
  [.act (.add "scalper" limits),
    .act (.fill { orderId := "SIM-000001", symbol := "TCS", exchange := "NSE", side := "BUY", quantity := 10, fillPrice := 100 }),
    .act (.importRow { symbol := "TCS", quantity := some 10, avgPrice := some 100, ltp := some 90 } 0)]

/-- Both loops leave the strategy's engine running beyond its limit. -/
theorem strategy_breaker_not_evaluated :
    ¬ Evaluated (runLoop (fallenTen { maxDailyLoss := some 50 } ++ [.step [] []]) limitedStrategy) ∧
    ¬ Evaluated (runLoop (fallenTen { maxDailyLoss := some 50 } ++ [.snapshot (some ("TCS", 80)) { positions := none } 0])
      limitedStrategy) := by
  decide +kernel

/-- Within the limit, nothing is left to halt. -/
theorem strategy_within_limit :
    Evaluated (runLoop (fallenTen { maxDailyLoss := some 500 } ++ [.step [] []]) limitedStrategy) := by
  have h := (covered_passes_evaluate_all limitedStrategy (fallenTen { maxDailyLoss := some 500 } ++ [.step [] []])).2
    (fallenTen { maxDailyLoss := some 500 }) (.step [] []) List.prefix_rfl rfl
  refine h.mpr ⟨?_, fun a ha => nomatch ha⟩
  decide +kernel

end NTrade.Runner
