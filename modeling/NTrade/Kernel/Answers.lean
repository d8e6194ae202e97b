import NTrade.Kernel.Screening
import NTrade.Kernel.Halting

/-! Signals and their answers. A signal that is published is owed an answer by each engine
that screens it; the count of answers follows the dispatches that are still on the stack. -/
namespace NTrade.Kernel
open NTrade.Events NTrade.Engines NTrade.Runner NTrade.Lib

def asked (s : SignalGenerated) (t : List Obs) : Nat :=
  t.countP fun
    | .published (.signal s') _ => s' = s
    | _ => false

def answered (s : SignalGenerated) (t : List Obs) : Nat :=
  t.countP fun
    | .published (.approved s') _ => s' = s
    | .published (.rejected s' _) _ => s' = s
    | _ => false

def Frame.carries (s : SignalGenerated) : Frame → Bool
  | .dispatch d => d.event = .signal s
  | .screening _ s' => s' = s

def Frame.owes (scopes : List (Option String)) (s : SignalGenerated) : Frame → Nat
  | .dispatch d => if d.event = .signal s then (engineIds d.pending).countP (screensIn scopes · s) else 0
  | .screening _ s' => if s' = s then 1 else 0

/-- An engine is there for a signal: nothing is paused, or the strategy is a runner's that
was not released. -/
def Covered {T : Type*} (s : SignalGenerated) (k : TradingKernel T) : Prop :=
  k.riskPauseCount = 0 ∨ s.strategy ∈ (engaged k.runners).map Prod.fst

instance {T : Type*} (s : SignalGenerated) (k : TradingKernel T) : Decidable (Covered s k) :=
  inferInstanceAs (Decidable (k.riskPauseCount = 0 ∨ s.strategy ∈ (engaged k.runners).map Prod.fst))

def unscreened {T A : Type*} (s : SignalGenerated) (k : TradingKernel T) : Move A → Nat
  | .call (.signal s') => if outsideRuns k.stack ∧ s' = s ∧ ¬Covered s k then 1 else 0
  | _ => 0

private def oneOf (s s' : SignalGenerated) : Nat := if s = s' then 1 else 0

/-- All answers that the stack still owes to a signal. -/
def TradingKernel.due {T : Type*} (k : TradingKernel T) (s : SignalGenerated) : Nat :=
  (k.stack.map (Frame.owes k.wires.scopes s)).sum

private structure Account {T : Type*} (missed : SignalGenerated → Nat) (k : TradingKernel T) : Prop where
  balance : ∀ s, asked s k.trace = answered s k.trace + k.due s + missed s
  valid : ∀ f ∈ k.stack, ∀ id ∈ f.listening, id < k.wires.scopes.length

section
variable {T A : Type*} {k k' : TradingKernel T} {id : Nat} {missed : SignalGenerated → Nat} {s : SignalGenerated}

private theorem asked_concat (t : List Obs) (o : Obs) : asked s (t ++ [o]) = asked s t + asked s [o] :=
  List.countP_append

private theorem answered_concat (t : List Obs) (o : Obs) : answered s (t ++ [o]) = answered s t + answered s [o] :=
  List.countP_append

/-- An engine that is appended leaves what the frames owe. -/
private theorem owes_append {scopes more : List (Option String)} {f : Frame}
    (h : ∀ id ∈ f.listening, id < scopes.length) : f.owes (scopes ++ more) s = f.owes scopes s := by
  cases f with
  | screening id s' => rfl
  | dispatch d =>
    unfold Frame.owes
    dsimp only
    split
    · next hd =>
      apply List.countP_congr
      intro id hid
      have hlt : id < scopes.length := h id (by simpa [Frame.listening, hd] using hid)
      rw [screensIn, screensIn, List.getElem?_append_left hlt]
    · rfl

/-- The stack and the count of asked and answered signals stay, engines are appended. -/
private theorem Account.mono (h : Account missed k) (hs : k'.stack = k.stack)
    (ht : ∀ s, asked s k'.trace = asked s k.trace ∧ answered s k'.trace = answered s k.trace)
    (hw : ∃ more, k'.wires.scopes = k.wires.scopes ++ more) : Account missed k' := by
  obtain ⟨more, hw⟩ := hw
  constructor
  · intro s
    have hdue : k'.due s = k.due s := by
      unfold TradingKernel.due
      rw [hs, hw]
      congr 1
      apply List.map_congr_left
      intro f hf
      exact owes_append (h.valid f hf)
    rw [(ht s).1, (ht s).2, hdue]
    exact h.balance s
  · intro f hf id hid
    rw [hs] at hf
    rw [hw, List.length_append]
    exact Nat.lt_add_right _ (h.valid f hf id hid)

private theorem Account.same (h : Account missed k) (hs : k'.stack = k.stack) (ht : k'.trace = k.trace)
    (hw : k'.wires = k.wires) : Account missed k' :=
  h.mono hs (fun s => by rw [ht]; exact ⟨rfl, rfl⟩) ⟨[], by rw [hw, List.append_nil]⟩

private theorem Account.log (h : Account missed k) {o : Obs} (ho : ∀ s, asked s [o] = 0 ∧ answered s [o] = 0) :
    Account missed (k.log o) := by
  refine h.mono rfl (fun s => ?_) ⟨[], (List.append_nil _).symm⟩
  show asked s (k.trace ++ [o]) = _ ∧ answered s (k.trace ++ [o]) = _
  rw [asked_concat, answered_concat, (ho s).1, (ho s).2]
  exact ⟨rfl, rfl⟩

private theorem Account.setEngine {e e₀ : RiskEngine} (h : Account missed k) (he : k.engines[id]? = some e₀)
    (hs : e.strategy = e₀.strategy) : Account missed (k.setEngine id e) :=
  h.same rfl rfl (wires_setEngine he hs)

/-- A frame that is pushed owes what was counted as missed. -/
private theorem Account.push {f : Frame} (h : Account (fun s => missed s + f.owes k.wires.scopes s) k)
    (hv : ∀ id ∈ f.listening, id < k.wires.scopes.length) : Account missed (k.push f) := by
  constructor
  · intro s
    have hb := h.balance s
    show asked s k.trace = answered s k.trace + (f.owes k.wires.scopes s + k.due s) + missed s
    omega
  · intro g hg
    rcases List.mem_cons.mp hg with rfl | hg
    · exact hv
    · exact h.valid g hg

/-- An event other than a signal and its answers. -/
private theorem Account.publish (h : Account missed k) {e : BusEvent}
    (he : ∀ s, e ≠ .signal s ∧ e ≠ .approved s ∧ ∀ refusal, e ≠ .rejected s refusal) : Account missed (k.publish e) := by
  have hlog : Account missed (k.log (.published e k.awake)) := by
    apply h.log
    intro s
    cases e with
    | signal s' => exact absurd rfl (he s').1
    | approved s' => exact absurd rfl (he s').2.1
    | rejected s' refusal => exact absurd rfl ((he s').2.2 refusal)
    | _ => exact ⟨rfl, rfl⟩
  apply Account.push
  · have hzero (s : SignalGenerated) (pending : List Handler) (scopes : List (Option String)) :
        (Frame.dispatch { event := e, pending }).owes scopes s = 0 := if_neg (he s).1
    simpa only [hzero, add_zero] using hlog
  · intro id hid
    cases e with
    | signal s => exact absurd rfl (he s).1
    | _ => cases hid

/-- An answer is counted against a signal that was missed so far. -/
private theorem Account.answer (h : Account (fun s' => missed s' + oneOf s s') k) {e : BusEvent}
    (he : e = .approved s ∨ ∃ refusal, e = .rejected s refusal) : Account missed (k.publish e) := by
  have hlog : Account missed (k.log (.published e k.awake)) := by
    constructor
    · intro s'
      have hb := h.balance s'
      show asked s' (k.trace ++ [_]) = answered s' (k.trace ++ [_]) + k.due s' + missed s'
      rw [asked_concat, answered_concat]
      rcases he with rfl | ⟨refusal, rfl⟩
      · by_cases hs : s = s' <;> simp [asked, answered, oneOf, hs] at hb ⊢ <;> omega
      · by_cases hs : s = s' <;> simp [asked, answered, oneOf, hs] at hb ⊢ <;> omega
    · exact h.valid
  apply Account.push
  · rcases he with rfl | ⟨refusal, rfl⟩
    · exact hlog
    · exact hlog
  · intro id hid
    rcases he with rfl | ⟨refusal, rfl⟩
    · cases hid
    · cases hid

/-- A signal that is published is owed one answer, or none if it is not covered. -/
private theorem Account.ask {n : Nat} (h : Account missed k) (hw : Wiring n k.wires) :
    Account (fun s' => missed s' + if s = s' ∧ ¬Covered s' k then 1 else 0) (k.publish (.signal s)) := by
  have hscreeners : k.wires.screening.countP (screensIn k.wires.scopes · s) = if Covered s k then 1 else 0 :=
    hw.screeners s
  apply Account.push
  · constructor
    · intro s'
      have hb := h.balance s'
      show asked s' (k.trace ++ [_]) = answered s' (k.trace ++ [_]) + k.due s' +
        (missed s' + (if s = s' ∧ ¬Covered s' k then 1 else 0) +
          if BusEvent.signal s = .signal s' then k.wires.screening.countP (screensIn k.wires.scopes · s') else 0)
      rw [asked_concat, answered_concat]
      by_cases hs : s = s'
      · subst hs
        rw [if_pos rfl, hscreeners]
        have hone : asked s [.published (.signal s) k.awake] = 1 := by simp [asked]
        have hnone : answered s [.published (.signal s) k.awake] = 0 := rfl
        rw [hone, hnone]
        by_cases hc : Covered s k
        · rw [if_neg fun hn => hn.2 hc, if_pos hc]
          omega
        · rw [if_pos ⟨rfl, hc⟩, if_neg hc]
          omega
      · rw [if_neg fun hn => hs hn.1, if_neg fun he => hs (BusEvent.signal.inj he)]
        have hone : asked s' [.published (.signal s) k.awake] = 0 := by simp [asked, hs]
        have hnone : answered s' [.published (.signal s) k.awake] = 0 := rfl
        rw [hone, hnone]
        omega
    · exact h.valid
  · intro id hid
    exact hw.valid hid

private theorem scopes_get {e : RiskEngine} (he : k.engines[id]? = some e) : k.wires.scopes[id]? = some e.strategy := by
  show (k.engines.map RiskEngine.strategy)[id]? = _
  rw [List.getElem?_map, he]
  rfl

private theorem Account.verdict (h : Account (fun s' => missed s' + oneOf s s') k) (hid : id < k.wires.scopes.length)
    (r : Reading) : Account missed (k.verdict id s r) := by
  have hlt : id < k.engines.length := by simpa [TradingKernel.wires] using hid
  unfold TradingKernel.verdict
  rw [List.getElem?_eq_getElem hlt]
  dsimp only
  split
  · refine Account.answer (h.setEngine (List.getElem?_eq_getElem hlt) ?_) (.inl rfl)
    rfl
  · next refusal _ =>
    refine Account.answer (h.setEngine (List.getElem?_eq_getElem hlt) ?_) (.inr ⟨refusal, rfl⟩)
    rfl

/-- The handler of an engine answers the signals that it screens, now or after a halt. -/
private theorem Account.onSignal
    (h : Account (fun s' => missed s' + if screensIn k.wires.scopes id s then oneOf s s' else 0) k) (r : Reading) :
    Account missed (k.onSignal id s r) := by
  unfold TradingKernel.onSignal
  cases he : k.engines[id]? with
  | none =>
    have hno : screensIn k.wires.scopes id s = false := by
      unfold screensIn TradingKernel.wires
      dsimp only
      rw [List.getElem?_map, he]
      rfl
    simpa [hno] using h
  | some e =>
    have hscreens : screensIn k.wires.scopes id s = e.screens s := by
      unfold screensIn
      rw [scopes_get he]
      rfl
    have hid : id < k.wires.scopes.length := (List.getElem?_eq_some_iff.mp (scopes_get he)).1
    have hs : (e.updateBreakers r.equity).1.strategy = e.strategy := RiskEngine.updateBreakers_strategy
    dsimp only
    rw [hscreens] at h
    by_cases hc : e.screens s = true
    · simp only [hc, if_true] at h ⊢
      have hset := h.setEngine he hs
      have hidset : id < (k.setEngine id (e.updateBreakers r.equity).1).wires.scopes.length := by
        rw [wires_setEngine he hs]
        exact hid
      split
      · next e' hu =>
        rw [hu] at hset hidset
        exact hset.verdict hidset r
      · next e' reason hu =>
        rw [hu] at hset hidset
        refine Account.publish (Account.push hset fun j hj => ?_) fun s => ?_
        · obtain rfl := List.mem_singleton.mp hj
          exact hidset
        · exact ⟨nofun, nofun, nofun⟩
    · simp only [hc] at h ⊢
      simpa using h

private theorem due_cons {f : Frame} {rest : List Frame} (hs : k.stack = f :: rest) (s : SignalGenerated) :
    k.due s = f.owes k.wires.scopes s + (k.setStack rest).due s := by
  unfold TradingKernel.due
  rw [hs]
  rfl

/-- What a frame owed more than the one in its place is counted as missed. -/
private theorem Account.replace {f g : Frame} {rest : List Frame} (h : Account missed k) (hs : k.stack = f :: rest)
    {extra : SignalGenerated → Nat} (ho : ∀ s, f.owes k.wires.scopes s = g.owes k.wires.scopes s + extra s)
    (hv : ∀ id ∈ g.listening, id ∈ f.listening) : Account (fun s => missed s + extra s) (k.setStack (g :: rest)) := by
  constructor
  · intro s
    have hb := h.balance s
    have hdue := due_cons hs s
    have hnew : (k.setStack (g :: rest)).due s = g.owes k.wires.scopes s + (k.setStack rest).due s := rfl
    have hone := ho s
    show asked s k.trace = answered s k.trace + (k.setStack (g :: rest)).due s + (missed s + extra s)
    omega
  · intro e he id hid
    rcases List.mem_cons.mp he with rfl | he
    · exact h.valid f (hs ▸ List.mem_cons_self) id (hv id hid)
    · exact h.valid e (hs ▸ List.mem_cons_of_mem _ he) id hid

private theorem Account.pop {f : Frame} {rest : List Frame} (h : Account missed k) (hs : k.stack = f :: rest) :
    Account (fun s => missed s + f.owes k.wires.scopes s) (k.setStack rest) := by
  constructor
  · intro s
    have hb := h.balance s
    have hdue := due_cons hs s
    show asked s k.trace = answered s k.trace + (k.setStack rest).due s + (missed s + f.owes k.wires.scopes s)
    omega
  · intro e he id hid
    exact h.valid e (hs ▸ List.mem_cons_of_mem _ he) id hid

private theorem Account.finish (h : Account missed k) (d : Dispatch) : Account missed (finish d k) := by
  unfold Kernel.finish
  split
  · exact h
  · exact h.publish fun s => ⟨nofun, nofun, nofun⟩

private def handlerOwes (scopes : List (Option String)) (h : Handler) (e : BusEvent) (s : SignalGenerated) : Nat :=
  match h, e with
  | .riskEngine id, .signal s' => if screensIn scopes id s' then oneOf s' s else 0
  | _, _ => 0

private theorem owes_next (scopes : List (Option String)) (d : Dispatch) {h : Handler} {pending : List Handler}
    (hp : d.pending = h :: pending) (running : Bool) (s : SignalGenerated) :
    (Frame.dispatch d).owes scopes s =
      (Frame.dispatch { d with pending, running }).owes scopes s + handlerOwes scopes h d.event s := by
  unfold Frame.owes
  dsimp only
  rw [hp]
  cases h with
  | riskEngine id =>
    cases hd : d.event with
    | signal s' =>
      by_cases hs : s' = s
      · subst hs
        simp only [if_true, handlerOwes, oneOf]
        exact List.countP_cons
      · have hne : ¬BusEvent.signal s' = .signal s := fun he => hs (BusEvent.signal.inj he)
        simp [handlerOwes, oneOf, hs]
    | _ => simp [handlerOwes]
  | _ => exact (add_zero _).symm

variable {port : Port T A}

private theorem Account.handle {h : Handler} {e : BusEvent} {o : Outside}
    (hk : Account (fun s => missed s + handlerOwes k.wires.scopes h e s) k) : Account missed (handle port h e o k) := by
  cases h with
  | riskEngine id =>
    cases e with
    | signal s => exact Account.onSignal hk o.reading
    | _ => exact hk
  | liveRunner =>
    cases e with
    | riskHalted reason equity => exact Account.same hk rfl rfl rfl
    | riskResumed => exact Account.same hk rfl rfl rfl
    | _ => exact hk
  | other id => exact hk

private theorem Account.advance {n : Nat} {o : Outside} {f : Frame} {rest : List Frame} (h : Account missed k)
    (hw : Wiring n k.wires) (hs : k.stack = f :: rest) : Account missed (advance port o f rest k) := by
  have hpop := h.pop hs
  cases f with
  | screening id s =>
    refine Account.verdict hpop ?_ o.reading
    exact h.valid (.screening id s) (hs ▸ List.mem_cons_self) id List.mem_cons_self
  | dispatch d =>
    simp only [Kernel.advance]
    split
    · exact h
    · split
      · next handler pending hp =>
        apply Account.handle
        refine h.replace hs (owes_next _ d hp _) fun id hid => ?_
        cases hd : d.event with
        | signal s =>
          simp only [Frame.listening, hd] at hid ⊢
          rw [hp]
          exact (List.sublist_cons_self handler pending).filterMap _ |>.subset hid
        | _ => simp [Frame.listening, hd] at hid
      · next hp =>
        have hnone (s : SignalGenerated) : (Frame.dispatch d).owes k.wires.scopes s = 0 := by
          unfold Frame.owes
          dsimp only
          rw [hp]
          exact ite_self _
        split
        · have hbase : engineIds (k.subscribers .base) = [] := hw.base
          have hnext (s : SignalGenerated) : (Frame.dispatch d).owes k.wires.scopes s =
              (Frame.dispatch { d with pending := k.subscribers .base, base := false }).owes k.wires.scopes s + 0 := by
            rw [hnone]
            unfold Frame.owes
            dsimp only
            rw [hbase]
            exact (ite_self _).symm
          refine h.replace hs hnext fun id hid => ?_
          cases hd : d.event with
          | signal s =>
            simp only [Frame.listening, hd, hbase] at hid
            cases hid
          | _ => simp [Frame.listening, hd] at hid
        · refine Account.finish ?_ d
          simpa only [hnone, add_zero] using hpop

private theorem Account.halt (h : Account missed k) (reason : HaltReason) (r : Reading) :
    Account missed (k.halt id reason r) := by
  unfold TradingKernel.halt
  split
  · exact h
  · next e he =>
    split
    · exact h.log fun s => ⟨rfl, rfl⟩
    · have hset : Account missed (k.setEngine id (e.halt reason)) := h.setEngine he rfl
      exact (hset.log fun s => ⟨rfl, rfl⟩).publish fun s => ⟨nofun, nofun, nofun⟩

private theorem Account.resume (h : Account missed k) (r : Reading) : Account missed (k.resume id r) := by
  unfold TradingKernel.resume
  split
  · exact h
  · next e he =>
    have hlog : Account missed (k.log (.resumeCalled id)) := h.log fun s => ⟨rfl, rfl⟩
    dsimp only
    split
    · have hset : Account missed ((k.log (.resumeCalled id)).setEngine id (e.resume r.balance)) := hlog.setEngine he rfl
      exact hset.publish fun s => ⟨nofun, nofun, nofun⟩
    · exact hlog

private theorem Account.check (h : Account missed k) (r : Reading) : Account missed (k.check id r) := by
  unfold TradingKernel.check
  split
  · exact h
  · next e he =>
    have hs : (e.updateBreakers r.equity).1.strategy = e.strategy := RiskEngine.updateBreakers_strategy
    have hset := h.setEngine he hs
    split
    · next e' hu =>
      rw [hu] at hset
      exact hset
    · next e' reason hu =>
      rw [hu] at hset
      exact hset.publish fun s => ⟨nofun, nofun, nofun⟩

private theorem Account.rebase (h : Account missed k) (balance : Rat) : Account missed (k.rebase id balance) := by
  unfold TradingKernel.rebase
  split
  · exact h
  · next e he =>
    apply h.setEngine he
    unfold RiskEngine.rebase
    split
    · rfl
    · rfl

private theorem Account.subscribeEngine (h : Account missed k) : Account missed (k.subscribeEngine id) := by
  refine Account.log (k := k.subscribe .signalGenerated (.riskEngine id)) ?_ fun s => ⟨rfl, rfl⟩
  exact h.mono rfl (fun s => ⟨rfl, rfl⟩) ⟨[], (List.append_nil _).symm⟩

private theorem Account.add (h : Account missed k) (i : Nat) (base : String) (limits : Limits) (balance : Rat) :
    Account missed (k.add i base limits balance) := by
  have hpause : k.pauseGlobalRisk.stack = k.stack ∧ k.pauseGlobalRisk.trace = k.trace ∧
      k.pauseGlobalRisk.engines = k.engines := by
    unfold TradingKernel.pauseGlobalRisk
    split
    · exact ⟨rfl, rfl, rfl⟩
    · exact ⟨rfl, rfl, rfl⟩
  obtain ⟨hs, ht, he⟩ := hpause
  unfold TradingKernel.add
  split
  · exact h
  · next r hr =>
    refine Account.subscribeEngine (h.mono hs (fun s => ?_) ?_)
    · exact ⟨congrArg (asked s) ht, congrArg (answered s) ht⟩
    · refine ⟨[some (uniqueName (r.handles.keys ++ k.strategies.map Prod.snd) base)], ?_⟩
      show (k.pauseGlobalRisk.engines ++ [_]).map RiskEngine.strategy = k.engines.map RiskEngine.strategy ++ _
      rw [he, List.map_append]
      rfl

private theorem Account.release (h : Account missed k) (i : Nat) : Account missed (k.release i) := by
  have hfold (ids : List Nat) {k : TradingKernel T} (h : Account missed k) :
      Account missed (ids.foldl (fun k id => k.unsubscribe .signalGenerated (.riskEngine id)) k) := by
    induction ids generalizing k with
    | nil => exact h
    | cons id ids ih => exact ih (h.mono rfl (fun s => ⟨rfl, rfl⟩) ⟨[], (List.append_nil _).symm⟩)
  unfold TradingKernel.release
  split
  · exact h
  · next r hr =>
    extract_lets k₁ k₂
    have h₂ : Account missed k₂ := (hfold _ h).mono rfl (fun s => ⟨rfl, rfl⟩) ⟨[], (List.append_nil _).symm⟩
    split
    · unfold TradingKernel.restoreGlobalRisk
      extract_lets k₃
      have h₃ : Account missed k₃ := h₂.mono rfl (fun s => ⟨rfl, rfl⟩) ⟨[], (List.append_nil _).symm⟩
      split
      · exact h₃.subscribeEngine
      · exact h₃
    · exact h₂

private theorem Account.step {n : Nat} (h : Account missed k) (hw : Wiring n k.wires) (m : Move A) :
    Account (fun s => missed s + unscreened s k m) (step port k m) := by
  cases m with
  | next o =>
    simp only [Kernel.step]
    split
    · exact h
    · next f rest hs => exact h.advance hw hs
  | ret raised =>
    obtain he | ⟨d, rest, d', errors, limit, hs, hevent, hpending, he⟩ := step_ret port k raised
    · rw [he]
      exact h
    · have htop : Account (fun s => missed s + 0) (k.setStack (.dispatch d' :: rest)) := by
        refine h.replace hs (fun s => ?_) fun id hid => ?_
        · simp only [Frame.owes, hevent, hpending, add_zero]
        · simpa only [Frame.listening, hevent, hpending] using hid
      rw [he]
      exact htop.same rfl rfl rfl
  | call c =>
    simp only [Kernel.step]
    by_cases ho : outsideRuns k.stack = true
    · rw [if_pos ho]
      cases c with
      | signal s =>
        simp only [unscreened, ho, true_and]
        exact h.ask hw
      | publish name => exact h.publish fun s => ⟨fun he => (by cases he), fun he => (by cases he), fun _ he => (by cases he)⟩
      | announceHalt reason => exact h.publish fun s => ⟨fun he => (by cases he), fun he => (by cases he), fun _ he => (by cases he)⟩
      | halt id reason r => exact h.halt reason r
      | resume id r => exact h.resume r
      | check id r => exact h.check r
      | rebase id balance => exact h.rebase balance
      | registerStrategy name => exact h.mono rfl (fun s => ⟨rfl, rfl⟩) ⟨[], (List.append_nil _).symm⟩
      | newRunner => exact h.mono rfl (fun s => ⟨rfl, rfl⟩) ⟨[], (List.append_nil _).symm⟩
      | add i base limits balance => exact h.add i base limits balance
      | release i => exact h.release i
      | subscribe topic id => exact h.same rfl rfl (wires_subscribe topic id)
      | target a => exact h.same rfl rfl rfl
    · rw [if_neg ho]
      cases c with
      | signal s => simpa [unscreened, ho] using h
      | _ => exact h

private theorem Account.run {n : Nat} (h : Account missed k) (hw : Wiring n k.wires) (moves : List (Move A)) :
    Account (fun s => missed s + Trace.along (Kernel.step port) (unscreened s) moves k) (run port moves k) := by
  induction moves generalizing n missed k with
  | nil => exact h
  | cons m moves ih =>
    have hstep : Account (fun s => missed s + unscreened s k m) (Kernel.step port k m) := h.step hw m
    have hrest := ih hstep (hw.step m)
    simp only [add_assoc] at hrest
    exact hrest

private theorem Account.boot (target : T) (balance : Rat) (runner : Bool) :
    Account (fun _ => 0) (boot target balance runner) := by
  refine ⟨fun s => rfl, fun f hf => ?_⟩
  cases hf

end

/-- Whenever a signal was published, an engine was there for it. -/
def Screened {T A : Type*} (port : Port T A) (s : SignalGenerated) (moves : List (Move A)) (k : TradingKernel T) : Prop :=
  ∀ pre, pre ++ [.call (.signal s)] <+: moves → outsideRuns (run port pre k).stack = true → Covered s (run port pre k)

/-- Every release was of a runner that had added one strategy at most since the last. -/
def ReleasedSingly {T A : Type*} (port : Port T A) (moves : List (Move A)) (k : TradingKernel T) : Prop :=
  ∀ pre i r, pre ++ [.call (.release i)] <+: moves → outsideRuns (run port pre k).stack = true →
    (run port pre k).runners[i]? = some r → r.handles.size ≤ 1

section
variable {T A : Type*} {port : Port T A} {k : TradingKernel T} {s : SignalGenerated}

theorem unscreened_eq_zero (moves : List (Move A)) :
    Trace.along (step port) (unscreened s) moves k = 0 ↔ Screened port s moves k := by
  rw [Trace.along_eq_zero]
  constructor
  · intro h pre hp ho
    have hone := h pre _ hp
    by_contra hc
    have hbad : unscreened s (run port pre k) (.call (.signal s) : Move A) = 1 := if_pos ⟨ho, rfl, hc⟩
    exact absurd (hbad.symm.trans hone) (by decide)
  · intro h pre m hp
    unfold unscreened
    split
    · next s' =>
      split
      · next hc =>
        obtain ⟨ho, rfl, hn⟩ := hc
        exact absurd (h pre hp ho) hn
      · rfl
    · rfl

theorem surplus_eq_zero (moves : List (Move A)) :
    Trace.along (step port) surplus moves k = 0 ↔ ReleasedSingly port moves k := by
  rw [Trace.along_eq_zero]
  constructor
  · intro h pre i r hp ho hr
    have hone := h pre _ hp
    simp only [surplus] at hone
    have ho' : outsideRuns (List.foldl (step port) k pre).stack = true := ho
    have hr' : (List.foldl (step port) k pre).runners[i]? = some r := hr
    rw [if_pos ho', hr'] at hone
    have hone : r.handles.size - 1 = 0 := hone
    omega
  · intro h pre m hp
    unfold surplus
    split
    · next i =>
      split
      · next ho =>
        cases hr : (List.foldl (step port) k pre).runners[i]? with
        | none => rfl
        | some r =>
          have hle := h pre i r hp ho hr
          show r.handles.size - 1 = 0
          omega
      · rfl
    · rfl

private theorem count_engineIds (hs : List Handler) (id : Nat) : (engineIds hs).count id = hs.count (.riskEngine id) := by
  induction hs with
  | nil => rfl
  | cons h hs ih =>
    rw [List.count_cons, ← ih]
    cases h with
    | riskEngine j =>
      show (j :: engineIds hs).count id = _
      rw [List.count_cons]
      by_cases hj : j = id <;> simp [hj]
    | _ => rfl

private theorem owes_of_not_carries {scopes : List (Option String)} {f : Frame} (h : f.carries s = false) :
    f.owes scopes s = 0 := by
  cases f with
  | dispatch d => exact if_neg (of_decide_eq_false h)
  | screening id s' => exact if_neg (of_decide_eq_false h)

end

/-- No signal is answered more often than it was published, and once it is in dispatch no
more, it was answered as often exactly if an engine was there for it each time. With all
runners released, the kernel's own engine is on the bus once exactly if no release was of
a runner that had added several strategies. -/
theorem signals_answered_iff {T A : Type*} (port : Port T A) (target : T) (balance : Rat) (runner : Bool)
    (moves : List (Move A)) :
    let k₀ := boot target balance runner
    let k := run port moves k₀
    (∀ s, answered s k.trace ≤ asked s k.trace ∧
      ((∀ f ∈ k.stack, f.carries s = false) → (answered s k.trace = asked s k.trace ↔ Screened port s moves k₀))) ∧
    ((∀ r ∈ k.runners, r.handles.keys = []) →
      ((k.subscribers .signalGenerated).count (.riskEngine 0) = 1 ↔ ReleasedSingly port moves k₀)) := by
  intro k₀ k
  have hw : Wiring (0 + Trace.along (step port) surplus moves k₀) k.wires := (Wiring.boot target balance runner).run moves
  have ha : Account (fun s => 0 + Trace.along (step port) (unscreened s) moves k₀) k :=
    (Account.boot target balance runner).run (Wiring.boot target balance runner) moves
  refine ⟨fun s => ?_, fun hreleased => ?_⟩
  · have hb : asked s k.trace = answered s k.trace + k.due s + (0 + Trace.along (step port) (unscreened s) moves k₀) :=
      ha.balance s
    refine ⟨by omega, fun hdone => ?_⟩
    have hdue : k.due s = 0 := by
      apply List.sum_eq_zero
      intro n hn
      obtain ⟨f, hf, rfl⟩ := List.mem_map.mp hn
      exact owes_of_not_carries (hdone f hf)
    rw [← unscreened_eq_zero]
    omega
  · have hnone : engaged k.runners = [] := by
      apply List.flatMap_eq_nil_iff.mpr
      intro r hr
      have hkeys : r.risk.keys = [] := (hw.keys r hr) ▸ hreleased r hr
      exact List.map_eq_nil_iff.mp hkeys
    have hcount : k.wires.pauses = (engaged k.runners).length + (0 + Trace.along (step port) surplus moves k₀) := hw.count
    have hperm := hw.screening.count_eq 0
    have hids : k.wires.screening.count 0 = (k.subscribers .signalGenerated).count (.riskEngine 0) := count_engineIds _ 0
    rw [← surplus_eq_zero, ← hids, hperm]
    have hengaged : (engaged k.wires.runners).map Prod.snd = [] := congrArg (List.map Prod.snd) hnone
    rw [hnone, List.length_nil] at hcount
    rw [hengaged, List.append_nil]
    split
    · next h0 =>
      rw [List.count_singleton_self]
      omega
    · next h0 =>
      rw [List.count_nil]
      omega

/-- A runner that adds two strategies and is released leaves the kernel's own engine off
the bus, and a strategy registered with the kernel without an answer. -/
theorem two_adds_leave_signals_unanswered :
    let k := run simulated [.call .newRunner, .call (.registerStrategy "orb"), .call (.add 0 "breakout" {} 0),
      .call (.add 0 "scalper" {} 0), .call (.release 0), .call (.signal orbSignal), .next {}, .next {}] (boot () 0 false)
    k.stack.length = 0 ∧ (∀ r ∈ k.runners, r.handles.keys = []) ∧ (0, "orb") ∈ k.strategies ∧
      asked orbSignal k.trace = 1 ∧ answered orbSignal k.trace = 0 ∧
      (k.subscribers .signalGenerated).count (.riskEngine 0) = 0 := by
  decide +kernel

/-- Two runners with a strategy each give the screening back. -/
theorem two_runners_give_screening_back :
    let k := run simulated [.call .newRunner, .call .newRunner, .call (.add 0 "orb" {} 0), .call (.add 1 "orb" {} 0),
      .call (.signal orbSignal), .next {}, .next {}, .next {}, .next {}, .next {}, .next {}, .next {}, .call (.release 0),
      .call (.release 1)] (boot () 0 false)
    answered orbSignal k.trace = asked orbSignal k.trace ∧
      (k.subscribers .signalGenerated).count (.riskEngine 0) = 1 := by
  have h := signals_answered_iff simulated () 0 false [.call .newRunner, .call .newRunner, .call (.add 0 "orb" {} 0),
    .call (.add 1 "orb" {} 0), .call (.signal orbSignal), .next {}, .next {}, .next {}, .next {}, .next {}, .next {},
    .next {}, .call (.release 0), .call (.release 1)]
  refine ⟨((h.1 orbSignal).2 (by decide +kernel)).mpr ?_, (h.2 (by decide +kernel)).mpr ?_⟩
  · exact (unscreened_eq_zero _).mp (by decide +kernel)
  · exact (surplus_eq_zero _).mp (by decide +kernel)

end NTrade.Kernel
