import NTrade.Kernel.TradingKernel
import Mathlib.Data.List.Perm.Basic
import Mathlib.Data.Finset.Card

/-! Who screens a signal. The runners take the kernel's own engine off the bus and put one
engine for each of their strategies on it; what they have wired is followed here. -/
namespace NTrade.Kernel
open NTrade.Events NTrade.Engines NTrade.Lib

@[ext] structure Wires where
  scopes : List (Option String)
  runners : List StrategyRunner
  pauses : Nat
  screening : List Nat
  base : List Nat
  strategies : List (Nat × String)
  created : Nat

def TradingKernel.wires {T : Type*} (k : TradingKernel T) : Wires where
  scopes := k.engines.map RiskEngine.strategy
  runners := k.runners
  pauses := k.riskPauseCount
  screening := engineIds (k.subscribers .signalGenerated)
  base := engineIds (k.subscribers .base)
  strategies := k.strategies
  created := k.created

def engaged (runners : List StrategyRunner) : List (String × Nat) := runners.flatMap fun r => r.risk.entries

/-- `StrategyRunner.add`, in what it does to the wiring. -/
def Wires.add (w : Wires) (i : Nat) (r : StrategyRunner) (name : String) : Wires where
  scopes := w.scopes ++ [some name]
  runners := w.runners.set i
    { handles := r.handles.set name w.created, risk := r.risk.set name w.scopes.length, globalRiskPaused := true }
  pauses := w.pauses + 1
  screening := (if w.pauses = 0 then w.screening.erase 0 else w.screening) ++ [w.scopes.length]
  base := w.base
  strategies := w.strategies ++ [(w.created, name)]
  created := w.created + 1

/-- `StrategyRunner.release`, in what it does to the wiring. -/
def Wires.release (w : Wires) (i : Nat) (r : StrategyRunner) : Wires where
  scopes := w.scopes
  runners := w.runners.set i {}
  pauses := if r.globalRiskPaused then w.pauses - 1 else w.pauses
  screening :=
    let left := (r.risk.entries.map Prod.snd).foldl List.erase w.screening
    if r.globalRiskPaused ∧ w.pauses - 1 = 0 then left ++ [0] else left
  base := w.base
  strategies := w.strategies.filter (·.1 ∉ r.handles.entries.map Prod.snd)
  created := w.created

def screensIn (scopes : List (Option String)) (id : Nat) (s : SignalGenerated) : Bool :=
  scopes[id]?.any fun scope => scope.all (· = s.strategy)

section Names

theorem toString_injective {m n : Nat} (h : toString m = toString n) : m = n := by
  have hd := congrArg (fun s => Nat.ofDigitChars 10 s.toList 0) h
  simpa using hd

/-- Among the numbered names one is free: there are as many as names that are taken. -/
theorem uniqueName_not_mem (taken : List String) (base : String) : uniqueName taken base ∉ taken := by
  unfold uniqueName
  split
  · next hb =>
    have hfree : ∃ name ∈ (List.range' 2 taken.length).map fun i => base ++ "#" ++ toString i, name ∉ taken := by
      by_contra hnone
      have hall : ∀ name ∈ (List.range' 2 taken.length).map fun i => base ++ "#" ++ toString i, name ∈ taken :=
        fun name hm => by_contra fun hn => hnone ⟨name, hm, hn⟩
      have hn : ((List.range' 2 taken.length).map fun i => base ++ "#" ++ toString i).Nodup := by
        refine List.Nodup.map_on (fun i _ j _ h => ?_) List.nodup_range'
        exact toString_injective (String.append_right_inj _ |>.mp h)
      have hbase : base ∉ (List.range' 2 taken.length).map fun i => base ++ "#" ++ toString i := by
        intro hm
        obtain ⟨i, -, hi⟩ := List.mem_map.mp hm
        have hl := congrArg String.length hi
        simp only [String.length_append] at hl
        have h1 : "#".length = 1 := rfl
        omega
      have hle := (List.nodup_cons.mpr ⟨hbase, hn⟩).subperm (List.cons_subset.mpr ⟨hb, hall⟩) |>.length_le
      simp only [List.length_cons, List.length_map, List.length_range'] at hle
      omega
    cases hf : ((List.range' 2 taken.length).map fun i => base ++ "#" ++ toString i).find? (· ∉ taken) with
    | none =>
      obtain ⟨name, hm, hn⟩ := hfree
      have hno := List.find?_eq_none.mp hf name hm
      simp [hn] at hno
    | some name => simpa using List.find?_some hf
  · next hb => exact hb

end Names

/-- How the engines stand on the bus, when releases have dropped `surplus` strategies more
than they gave back pauses: the kernel's own engine is there while nothing is paused. -/
structure Wiring (surplus : Nat) (w : Wires) : Prop where
  kernelEngine : w.scopes[0]? = some none
  keys : ∀ r ∈ w.runners, r.handles.keys = r.risk.keys
  paused : ∀ r ∈ w.runners, r.globalRiskPaused = true ↔ r.risk.entries ≠ []
  count : w.pauses = (engaged w.runners).length + surplus
  screening : w.screening.Perm ((if w.pauses = 0 then [0] else []) ++ (engaged w.runners).map Prod.snd)
  base : w.base = []
  engines : ∀ p ∈ engaged w.runners, w.scopes[p.2]? = some (some p.1)
  unique : ((engaged w.runners).map Prod.fst).Nodup
  named : ∀ r ∈ w.runners, ∀ h ∈ r.handles.entries, (h.2, h.1) ∈ w.strategies
  made : ∀ s ∈ w.strategies, s.1 < w.created
  apart : ((w.runners.flatMap fun r => r.handles.entries).map Prod.snd).Nodup

section Lists
variable {α β : Type*}

/-- What a list of lists has besides the one at an index. -/
private theorem flatMap_set (f : α → List β) {l : List α} {i : Nat} {a : α} (h : l[i]? = some a) :
    ∃ others, (l.flatMap f).Perm (f a ++ others) ∧ (∀ b, ((l.set i b).flatMap f).Perm (f b ++ others)) ∧
      ∀ b, ∀ c ∈ l.set i b, c = b ∨ f c ⊆ others := by
  obtain ⟨hlt, hget⟩ := List.getElem?_eq_some_iff.mp h
  have hset (b : α) : l.set i b = l.take i ++ b :: l.drop (i + 1) := by
    rw [List.set_eq_take_append_cons_drop, if_pos hlt]
  have hperm (b : α) : ((l.set i b).flatMap f).Perm (f b ++ ((l.take i).flatMap f ++ (l.drop (i + 1)).flatMap f)) := by
    rw [hset, List.flatMap_append, List.flatMap_cons, ← List.append_assoc, ← List.append_assoc]
    exact List.perm_append_comm.append_right _
  refine ⟨_, ?_, hperm, fun b c hc => ?_⟩
  · have hsame := hperm l[i]
    rwa [List.set_getElem_self, hget] at hsame
  · rw [hset] at hc
    rcases List.mem_append.mp hc with hc | hc
    · exact .inr fun x hx => List.mem_append_left _ (List.mem_flatMap.mpr ⟨c, hc, hx⟩)
    · rcases List.mem_cons.mp hc with hc | hc
      · exact .inl hc
      · exact .inr fun x hx => List.mem_append_right _ (List.mem_flatMap.mpr ⟨c, hc, hx⟩)

/-- A key that is new in one of the dicts is one entry more in all of them. -/
private theorem flatMap_set_new {κ ν : Type*} [DecidableEq κ] (f : α → Dict κ ν) {l : List α} {i : Nat} {a b : α}
    (h : l[i]? = some a) {k : κ} {v : ν} (hk : k ∉ (f a).keys) (hb : f b = (f a).set k v) :
    ((l.set i b).flatMap fun x => (f x).entries).Perm ((k, v) :: l.flatMap fun x => (f x).entries) := by
  obtain ⟨others, hold, hset, -⟩ := flatMap_set (fun x => (f x).entries) h
  refine (hset b).trans ?_
  rw [hb, Dict.entries_set_of_not_mem hk, List.append_assoc, List.singleton_append]
  exact List.perm_middle.trans ((hold.symm).cons _)

private theorem foldl_erase [DecidableEq α] (as : List α) {l rest : List α} (h : l.Perm (as ++ rest)) :
    (as.foldl List.erase l).Perm rest := by
  induction as generalizing l with
  | nil => exact h
  | cons a as ih =>
    apply ih
    have he := h.erase a
    rwa [List.cons_append, List.erase_cons_head] at he

end Lists

section Wires
variable {T A : Type*} {k : TradingKernel T} {id i : Nat} {r : StrategyRunner}

theorem engineIds_append (hs hs' : List Handler) : engineIds (hs ++ hs') = engineIds hs ++ engineIds hs' :=
  List.filterMap_append

theorem engineIds_erase (hs : List Handler) : engineIds (hs.erase (.riskEngine id)) = (engineIds hs).erase id := by
  induction hs with
  | nil => rfl
  | cons h hs ih =>
    rw [List.erase_cons]
    cases h with
    | riskEngine j =>
      by_cases hj : j = id
      · subst hj
        simp [engineIds]
      · have hne : ¬(Handler.riskEngine j == Handler.riskEngine id) = true := by simpa using hj
        rw [if_neg hne]
        show j :: engineIds (hs.erase (.riskEngine id)) = (j :: engineIds hs).erase id
        rw [ih, List.erase_cons, if_neg (by simpa using hj)]
    | _ => exact ih

theorem wires_setEngine {e e₀ : RiskEngine} (he : k.engines[id]? = some e₀) (hs : e.strategy = e₀.strategy) :
    (k.setEngine id e).wires = k.wires := by
  have hscopes : (k.engines.set id e).map RiskEngine.strategy = k.engines.map RiskEngine.strategy := by
    obtain ⟨hlt, rfl⟩ := List.getElem?_eq_some_iff.mp he
    rw [List.map_set, hs, ← List.getElem_map RiskEngine.strategy, List.set_getElem_self]
    rwa [List.length_map]
  unfold TradingKernel.wires TradingKernel.setEngine
  rw [hscopes]

theorem wires_subscribe (topic : Topic) (id : Nat) : (k.subscribe topic (.other id)).wires = k.wires := by
  have hsame (t : Topic) : engineIds ((k.subscribe topic (.other id)).subscribers t) = engineIds (k.subscribers t) := by
    rw [TradingKernel.subscribers_subscribe]
    split
    · next ht =>
      rw [engineIds_append, ht]
      exact List.append_nil _
    · rfl
  unfold TradingKernel.wires
  rw [hsame, hsame]
  rfl

theorem wires_unsubscribe (id : Nat) :
    (k.unsubscribe .signalGenerated (.riskEngine id)).wires = { k.wires with screening := k.wires.screening.erase id } := by
  have hbase : (k.unsubscribe .signalGenerated (.riskEngine id)).subscribers .base = k.subscribers .base := by
    rw [TradingKernel.subscribers_unsubscribe, if_neg (by decide)]
  have hscreens : engineIds ((k.unsubscribe .signalGenerated (.riskEngine id)).subscribers .signalGenerated) =
      (engineIds (k.subscribers .signalGenerated)).erase id := by
    rw [TradingKernel.subscribers_unsubscribe, if_pos rfl, engineIds_erase]
  unfold TradingKernel.wires
  rw [hbase, hscreens]
  rfl

theorem wires_subscribeEngine (id : Nat) :
    (k.subscribeEngine id).wires = { k.wires with screening := k.wires.screening ++ [id] } := by
  have hbase : (k.subscribeEngine id).subscribers .base = k.subscribers .base := by
    refine (TradingKernel.subscribers_subscribe k .signalGenerated .base (.riskEngine id)).trans ?_
    rw [if_neg (by decide)]
  have hscreens : engineIds ((k.subscribeEngine id).subscribers .signalGenerated) =
      engineIds (k.subscribers .signalGenerated) ++ [id] := by
    refine (congrArg engineIds (TradingKernel.subscribers_subscribe k .signalGenerated .signalGenerated (.riskEngine id))).trans ?_
    rw [if_pos rfl, engineIds_append]
    rfl
  unfold TradingKernel.wires
  rw [hbase, hscreens]
  rfl

theorem wires_pauseGlobalRisk :
    k.pauseGlobalRisk.wires =
      { k.wires with
        pauses := k.riskPauseCount + 1
        screening := if k.riskPauseCount = 0 then k.wires.screening.erase 0 else k.wires.screening } := by
  unfold TradingKernel.pauseGlobalRisk
  by_cases h0 : k.riskPauseCount = 0
  · rw [if_pos h0, if_pos h0]
    exact congrArg (fun w : Wires => { w with pauses := k.riskPauseCount + 1 }) (wires_unsubscribe (k := k) 0)
  · rw [if_neg h0, if_neg h0]
    rfl

theorem wires_add (hr : k.runners[i]? = some r) (base : String) (limits : Limits) (balance : Rat) :
    (k.add i base limits balance).wires =
      k.wires.add i r (uniqueName (r.handles.keys ++ k.strategies.map Prod.snd) base) := by
  have hpause := wires_pauseGlobalRisk (k := k)
  have hengines : k.pauseGlobalRisk.engines = k.engines := by
    unfold TradingKernel.pauseGlobalRisk
    split
    · rfl
    · rfl
  have hcreated : k.pauseGlobalRisk.created = k.created := congrArg Wires.created hpause
  have hrunners : k.pauseGlobalRisk.runners = k.runners := congrArg Wires.runners hpause
  unfold TradingKernel.add
  rw [hr]
  dsimp only
  rw [wires_subscribeEngine]
  ext1
  · show (k.pauseGlobalRisk.engines ++ [_]).map RiskEngine.strategy = _
    rw [hengines, List.map_append]
    rfl
  · show k.pauseGlobalRisk.runners.set i
      { handles := r.handles.set _ (k.pauseGlobalRisk.created + 1 - 1)
        risk := r.risk.set _ k.pauseGlobalRisk.engines.length, globalRiskPaused := true } = _
    rw [hengines, hcreated, hrunners]
    simp [Wires.add, TradingKernel.wires]
  · show k.pauseGlobalRisk.riskPauseCount = k.riskPauseCount + 1
    exact congrArg Wires.pauses hpause
  · show k.pauseGlobalRisk.wires.screening ++ [(k.pauseGlobalRisk.engines ++ [_]).length - 1] = _
    rw [hpause, hengines]
    simp [Wires.add, TradingKernel.wires]
    rfl
  · show k.pauseGlobalRisk.wires.base = _
    rw [hpause]
    rfl
  · show k.pauseGlobalRisk.strategies ++ [(k.pauseGlobalRisk.created, _)] = _
    rw [hcreated, show k.pauseGlobalRisk.strategies = k.strategies from congrArg Wires.strategies hpause]
    rfl
  · exact congrArg (· + 1) hcreated

theorem wires_release (hr : k.runners[i]? = some r) : (k.release i).wires = k.wires.release i r := by
  have hfold (ids : List Nat) (k : TradingKernel T) :
      (ids.foldl (fun k id => k.unsubscribe .signalGenerated (.riskEngine id)) k).wires =
        { k.wires with screening := ids.foldl List.erase k.wires.screening } := by
    induction ids generalizing k with
    | nil => rfl
    | cons id ids ih => rw [List.foldl_cons, ih, wires_unsubscribe]; rfl
  have hdone := hfold (r.risk.entries.map Prod.snd) k
  unfold TradingKernel.release
  rw [hr]
  dsimp only
  generalize (r.risk.entries.map Prod.snd).foldl (fun k id => k.unsubscribe .signalGenerated (.riskEngine id)) k = left
    at hdone ⊢
  have hpauses : left.riskPauseCount = k.wires.pauses := congrArg Wires.pauses hdone
  let dropped (w : Wires) : Wires :=
    { w with
      strategies := w.strategies.filter (·.1 ∉ r.handles.entries.map Prod.snd)
      runners := w.runners.set i {} }
  by_cases hp : r.globalRiskPaused = true
  · rw [if_pos hp]
    unfold TradingKernel.restoreGlobalRisk
    dsimp only
    by_cases h0 : k.wires.pauses - 1 = 0
    · rw [hpauses, if_pos h0, wires_subscribeEngine]
      show { dropped left.wires with pauses := k.wires.pauses - 1, screening := left.wires.screening ++ [0] } = _
      rw [hdone]
      simp [dropped, Wires.release, hp, h0]
    · rw [hpauses, if_neg h0]
      show { dropped left.wires with pauses := k.wires.pauses - 1 } = _
      rw [hdone]
      simp [dropped, Wires.release, hp, h0]
  · rw [if_neg hp]
    show dropped left.wires = _
    rw [hdone]
    simp [dropped, Wires.release, hp]

theorem wires_halt (id : Nat) (reason : HaltReason) (r : Reading) : (k.halt id reason r).wires = k.wires := by
  unfold TradingKernel.halt
  split
  · rfl
  · next e he =>
    split
    · rfl
    · exact wires_setEngine he rfl

theorem wires_resume (id : Nat) (r : Reading) : (k.resume id r).wires = k.wires := by
  unfold TradingKernel.resume
  split
  · rfl
  · next e he =>
    dsimp only
    split
    · exact wires_setEngine (k := k.log (.resumeCalled id)) he rfl
    · rfl

theorem wires_check (id : Nat) (r : Reading) : (k.check id r).wires = k.wires := by
  unfold TradingKernel.check
  split
  · rfl
  · next e he =>
    have hs : (e.updateBreakers r.equity).1.strategy = e.strategy := RiskEngine.updateBreakers_strategy
    split
    · next e' hu => exact wires_setEngine he (by rw [← hs, hu])
    · next e' reason hu => exact wires_setEngine he (by rw [← hs, hu])

theorem wires_rebase (id : Nat) (balance : Rat) : (k.rebase id balance).wires = k.wires := by
  unfold TradingKernel.rebase
  split
  · rfl
  · next e he =>
    apply wires_setEngine he
    unfold RiskEngine.rebase
    split
    · rfl
    · rfl

theorem wires_verdict (id : Nat) (s : SignalGenerated) (r : Reading) : (k.verdict id s r).wires = k.wires := by
  unfold TradingKernel.verdict
  split
  · rfl
  · next e he =>
    split
    · exact wires_setEngine he rfl
    · exact wires_setEngine he rfl

theorem wires_onSignal (id : Nat) (s : SignalGenerated) (r : Reading) : (k.onSignal id s r).wires = k.wires := by
  unfold TradingKernel.onSignal
  split
  · rfl
  · next e he =>
    have hs : (e.updateBreakers r.equity).1.strategy = e.strategy := RiskEngine.updateBreakers_strategy
    split
    · split
      · next e' hu => exact (wires_verdict id s r).trans (wires_setEngine he (by rw [← hs, hu]))
      · next e' reason hu => exact wires_setEngine he (by rw [← hs, hu])
    · rfl

variable {port : Port T A}

theorem wires_handle (h : Handler) (e : BusEvent) (o : Outside) : (handle port h e o k).wires = k.wires := by
  unfold handle
  split
  · exact wires_onSignal _ _ _
  · rfl
  · rfl
  · rfl

theorem wires_finish (d : Dispatch) : (finish d k).wires = k.wires := by
  unfold finish
  split
  · rfl
  · rfl

theorem wires_advance (o : Outside) (f : Frame) (rest : List Frame) : (advance port o f rest k).wires = k.wires := by
  cases f with
  | screening id s => exact wires_verdict _ _ _
  | dispatch d =>
    simp only [advance]
    split
    · rfl
    · split
      · exact wires_handle _ _ _
      · split
        · rfl
        · exact wires_finish d

end Wires

section Moves
variable {w : Wires} {n i : Nat} {r : StrategyRunner}

/-- The names that are engaged are names of registered strategies. -/
theorem Wiring.engaged_named (h : Wiring n w) {name : String} (hm : name ∈ (engaged w.runners).map Prod.fst) :
    name ∈ w.strategies.map Prod.snd := by
  obtain ⟨p, hp, rfl⟩ := List.mem_map.mp hm
  obtain ⟨r, hr, hp⟩ := List.mem_flatMap.mp hp
  have hk : p.1 ∈ r.handles.keys := by
    rw [h.keys r hr]
    exact List.mem_map_of_mem hp
  obtain ⟨e, he, hname⟩ := List.mem_map.mp hk
  exact List.mem_map.mpr ⟨(e.2, e.1), h.named r hr e he, hname⟩

private theorem getElem?_concat_of_some {scopes : List (Option String)} {id : Nat} {x y : Option String}
    (h : scopes[id]? = some x) : (scopes ++ [y])[id]? = some x := by
  rw [List.getElem?_append_left (List.getElem?_eq_some_iff.mp h).1, h]

private theorem Wiring.made_concat (h : Wiring n w) (name : String) :
    ∀ s ∈ w.strategies ++ [(w.created, name)], s.1 < w.created + 1 := by
  intro s hs
  rcases List.mem_append.mp hs with hs | hs
  · exact Nat.lt_succ_of_lt (h.made s hs)
  · obtain rfl := List.mem_singleton.mp hs
    exact Nat.lt_succ_self _

theorem Wiring.add (h : Wiring n w) (hr : w.runners[i]? = some r) {name : String} (hname : name ∉ r.handles.keys)
    (hnew : name ∉ w.strategies.map Prod.snd) : Wiring n (w.add i r name) := by
  have hmem : r ∈ w.runners := List.mem_of_getElem? hr
  have hrisk : name ∉ r.risk.keys := h.keys r hmem ▸ hname
  have hengaged : (engaged (w.add i r name).runners).Perm ((name, w.scopes.length) :: engaged w.runners) :=
    flatMap_set_new StrategyRunner.risk hr hrisk rfl
  have hhandles : ((w.add i r name).runners.flatMap fun r => r.handles.entries).Perm
      ((name, w.created) :: w.runners.flatMap fun r => r.handles.entries) :=
    flatMap_set_new StrategyRunner.handles hr hname rfl
  constructor
  · exact getElem?_concat_of_some h.kernelEngine
  · intro r' hr'
    rcases List.mem_or_eq_of_mem_set hr' with hr' | rfl
    · exact h.keys r' hr'
    · simp only [Dict.keys, Dict.entries_set_of_not_mem hname, Dict.entries_set_of_not_mem hrisk, List.map_append,
        List.map_singleton]
      exact congrArg (· ++ [name]) (h.keys r hmem)
  · intro r' hr'
    rcases List.mem_or_eq_of_mem_set hr' with hr' | rfl
    · exact h.paused r' hr'
    · simp [Dict.entries_set_of_not_mem hrisk]
  · show w.pauses + 1 = _
    rw [hengaged.length_eq, List.length_cons, h.count]
    omega
  · have hleft : (if w.pauses = 0 then w.screening.erase 0 else w.screening).Perm ((engaged w.runners).map Prod.snd) := by
      have hs := h.screening
      split
      · next h0 =>
        rw [if_pos h0] at hs
        have he := hs.erase 0
        rwa [List.singleton_append, List.erase_cons_head] at he
      · next h0 => rwa [if_neg h0] at hs
    show (_ ++ [w.scopes.length]).Perm ((if w.pauses + 1 = 0 then [0] else []) ++ _)
    rw [if_neg (Nat.succ_ne_zero _), List.nil_append]
    refine (hleft.append_right _).trans ?_
    exact (List.perm_append_singleton _ _).trans (hengaged.map Prod.snd).symm
  · exact h.base
  · intro p hp
    rcases List.mem_cons.mp (hengaged.subset hp) with rfl | hp
    · exact List.getElem?_concat_length
    · exact getElem?_concat_of_some (h.engines p hp)
  · refine ((hengaged.map Prod.fst).nodup_iff).mpr (List.nodup_cons.mpr ⟨fun hm => ?_, h.unique⟩)
    exact hnew (h.engaged_named hm)
  · intro r' hr' e he
    rcases List.mem_or_eq_of_mem_set hr' with hr' | rfl
    · exact List.mem_append_left _ (h.named r' hr' e he)
    · dsimp only at he
      rw [Dict.entries_set_of_not_mem hname] at he
      rcases List.mem_append.mp he with he | he
      · exact List.mem_append_left _ (h.named r hmem e he)
      · obtain rfl := List.mem_singleton.mp he
        exact List.mem_append_right _ List.mem_cons_self
  · exact h.made_concat name
  · refine ((hhandles.map Prod.snd).nodup_iff).mpr (List.nodup_cons.mpr ⟨fun hm => ?_, h.apart⟩)
    obtain ⟨e, he, hid⟩ := List.mem_map.mp hm
    obtain ⟨r', hr', he⟩ := List.mem_flatMap.mp he
    have hlt := h.made _ (h.named r' hr' e he)
    exact absurd hid hlt.ne

/-- A release drops the runner's strategies, and gives back one pause whatever their number. -/
theorem Wiring.release (h : Wiring n w) (hr : w.runners[i]? = some r) :
    Wiring (n + (r.handles.size - 1)) (w.release i r) := by
  have hmem : r ∈ w.runners := List.mem_of_getElem? hr
  have hsize : r.handles.size = r.risk.entries.length := by
    rw [← Dict.length_keys, h.keys r hmem, Dict.length_keys, Dict.size]
  obtain ⟨others, hold, hset, -⟩ := flatMap_set (fun r : StrategyRunner => r.risk.entries) hr
  have hengaged : (engaged (w.release i r).runners).Perm others := hset {}
  have hall : (engaged w.runners).Perm (r.risk.entries ++ others) := hold
  obtain ⟨sids, hsold, hsset, hrest⟩ := flatMap_set (fun r : StrategyRunner => r.handles.entries) hr
  have hhandles : ((w.release i r).runners.flatMap fun r => r.handles.entries).Perm sids := hsset {}
  have hlen : w.pauses = r.risk.entries.length + others.length + n := by
    rw [h.count, hall.length_eq, List.length_append]
  have hleft : ((r.risk.entries.map Prod.snd).foldl List.erase w.screening).Perm
      ((if w.pauses = 0 then [0] else []) ++ others.map Prod.snd) := by
    apply foldl_erase
    refine h.screening.trans ?_
    have hm := hall.map Prod.snd
    rw [List.map_append] at hm
    refine (hm.append_left _).trans ?_
    rw [← List.append_assoc, ← List.append_assoc]
    exact List.perm_append_comm.append_right _
  constructor
  · exact h.kernelEngine
  · intro r' hr'
    rcases List.mem_or_eq_of_mem_set hr' with hr' | rfl
    · exact h.keys r' hr'
    · rfl
  · intro r' hr'
    rcases List.mem_or_eq_of_mem_set hr' with hr' | rfl
    · exact h.paused r' hr'
    · exact ⟨fun hp => (by cases hp), fun hp => absurd rfl hp⟩
  · show (if r.globalRiskPaused = true then w.pauses - 1 else w.pauses) = _
    rw [hengaged.length_eq, hsize, hlen]
    by_cases hp : r.globalRiskPaused = true
    · have hpos := List.length_pos_of_ne_nil ((h.paused r hmem).mp hp)
      rw [if_pos hp]
      omega
    · have hnil : r.risk.entries = [] := not_not.mp fun hn => hp ((h.paused r hmem).mpr hn)
      rw [if_neg hp, hnil, List.length_nil]
      omega
  · unfold Wires.release
    dsimp only
    refine List.Perm.trans ?_ ((hengaged.map Prod.snd).symm.append_left _)
    by_cases hp : r.globalRiskPaused = true
    · have hpos := List.length_pos_of_ne_nil ((h.paused r hmem).mp hp)
      rw [if_neg (by omega), List.nil_append] at hleft
      by_cases h0 : w.pauses - 1 = 0
      · rw [if_pos ⟨hp, h0⟩, if_pos hp, if_pos h0]
        exact (hleft.append_right _).trans (List.perm_append_singleton _ _)
      · rw [if_neg fun hc => h0 hc.2, if_pos hp, if_neg h0]
        exact hleft
    · rw [if_neg fun hc => hp hc.1, if_neg hp]
      exact hleft
  · exact h.base
  · intro p hp
    exact h.engines p (hall.symm.subset (List.mem_append_right _ (hengaged.subset hp)))
  · refine ((hengaged.map Prod.fst).nodup_iff).mpr ?_
    have hu := ((hall.map Prod.fst).nodup_iff).mp h.unique
    rw [List.map_append] at hu
    exact hu.of_append_right
  · intro r' hr' e he
    rcases hrest {} r' hr' with rfl | hsub
    · cases he
    · have hr' : r' ∈ w.runners := by
        rcases List.mem_or_eq_of_mem_set hr' with hr' | rfl
        · exact hr'
        · cases he
      refine List.mem_filter.mpr ⟨h.named r' hr' e he, decide_eq_true fun hm => ?_⟩
      have ha := ((hsold.map Prod.snd).nodup_iff).mp h.apart
      rw [List.map_append] at ha
      exact List.disjoint_of_nodup_append ha hm (List.mem_map_of_mem (hsub he))
  · intro s hs
    exact h.made s (List.mem_of_mem_filter hs)
  · refine ((hhandles.map Prod.snd).nodup_iff).mpr ?_
    have ha := ((hsold.map Prod.snd).nodup_iff).mp h.apart
    rw [List.map_append] at ha
    exact ha.of_append_right

/-- The engines on the bus exist. -/
theorem Wiring.valid (h : Wiring n w) {id : Nat} (hid : id ∈ w.screening) : id < w.scopes.length := by
  rcases List.mem_append.mp (h.screening.subset hid) with hm | hm
  · split at hm
    · obtain rfl := List.mem_singleton.mp hm
      exact (List.getElem?_eq_some_iff.mp h.kernelEngine).1
    · cases hm
  · obtain ⟨p, hp, rfl⟩ := List.mem_map.mp hm
    exact (List.getElem?_eq_some_iff.mp (h.engines p hp)).1

/-- While nothing is paused, and for the strategies that are engaged, exactly one engine on
the bus screens a signal; for the others none does. -/
theorem Wiring.screeners (h : Wiring n w) (s : SignalGenerated) :
    w.screening.countP (screensIn w.scopes · s) =
      if w.pauses = 0 ∨ s.strategy ∈ (engaged w.runners).map Prod.fst then 1 else 0 := by
  have hengaged : ((engaged w.runners).map Prod.snd).countP (screensIn w.scopes · s) =
      if s.strategy ∈ (engaged w.runners).map Prod.fst then 1 else 0 := by
    have hcount : ((engaged w.runners).map Prod.snd).countP (screensIn w.scopes · s) =
        ((engaged w.runners).map Prod.fst).count s.strategy := by
      rw [List.countP_map, List.count, List.countP_map]
      apply List.countP_congr
      intro p hp
      simp [screensIn, h.engines p hp]
    rw [hcount, h.unique.count]
  rw [h.screening.countP_eq, List.countP_append, hengaged]
  by_cases h0 : w.pauses = 0
  · have hnil : engaged w.runners = [] := by
      have hc := h.count
      exact List.length_eq_zero_iff.mp (by omega)
    simp [h0, hnil, screensIn, h.kernelEngine]
  · rw [if_neg h0, List.countP_nil, zero_add]
    exact (if_congr (or_iff_right h0) rfl rfl).symm

theorem Wiring.registerStrategy (h : Wiring n w) (name : String) :
    Wiring n { w with strategies := w.strategies ++ [(w.created, name)], created := w.created + 1 } := by
  exact { h with
    named := fun r hr e he => List.mem_append_left _ (h.named r hr e he)
    made := h.made_concat name }

theorem Wiring.newRunner (h : Wiring n w) : Wiring n { w with runners := w.runners ++ [({} : StrategyRunner)] } := by
  have hsame : engaged (w.runners ++ [({} : StrategyRunner)]) = engaged w.runners := by
    unfold engaged
    rw [List.flatMap_append]
    exact List.append_nil _
  have hhandles : (w.runners ++ [({} : StrategyRunner)]).flatMap (fun r => r.handles.entries) = w.runners.flatMap fun r => r.handles.entries := by
    rw [List.flatMap_append]
    exact List.append_nil _
  refine ⟨h.kernelEngine, fun r hr => ?_, fun r hr => ?_, ?_, ?_, h.base, ?_, ?_, fun r hr e he => ?_, h.made, ?_⟩
  · rcases List.mem_append.mp hr with hr | hr
    · exact h.keys r hr
    · obtain rfl := List.mem_singleton.mp hr
      rfl
  · rcases List.mem_append.mp hr with hr | hr
    · exact h.paused r hr
    · obtain rfl := List.mem_singleton.mp hr
      exact ⟨fun hp => (nomatch hp), fun hp => absurd rfl hp⟩
  · rw [hsame]
    exact h.count
  · rw [hsame]
    exact h.screening
  · rw [hsame]
    exact h.engines
  · rw [hsame]
    exact h.unique
  · rcases List.mem_append.mp hr with hr | hr
    · exact h.named r hr e he
    · obtain rfl := List.mem_singleton.mp hr
      cases he
  · rw [hhandles]
    exact h.apart

end Moves

section Run
variable {T A : Type*} {port : Port T A} {k : TradingKernel T} {n : Nat}

def surplus (k : TradingKernel T) : Move A → Nat
  | .call (.release i) => if outsideRuns k.stack then (k.runners[i]?.map fun r => r.handles.size - 1).getD 0 else 0
  | _ => 0

theorem Wiring.step (h : Wiring n k.wires) (m : Move A) : Wiring (n + surplus k m) (step port k m).wires := by
  cases m with
  | next o =>
    have hsame : (Kernel.step port k (.next o)).wires = k.wires := by
      simp only [Kernel.step]
      split
      · rfl
      · exact wires_advance _ _ _
    exact hsame ▸ h
  | ret raised =>
    have hsame : (Kernel.step port k (.ret raised)).wires = k.wires := by
      obtain he | ⟨d, rest, d', errors, limit, -, -, -, he⟩ := step_ret port k raised
      · rw [he]
      · rw [he]
        rfl
    exact hsame ▸ h
  | call c =>
    simp only [Kernel.step]
    by_cases ho : outsideRuns k.stack = true
    · rw [if_pos ho]
      cases c with
      | registerStrategy name => exact h.registerStrategy name
      | newRunner => exact h.newRunner
      | add i base limits balance =>
        simp only [perform]
        cases hr : k.runners[i]? with
        | none =>
          unfold TradingKernel.add
          rw [hr]
          exact h
        | some r =>
          rw [wires_add hr]
          have hfree := uniqueName_not_mem (r.handles.keys ++ k.strategies.map Prod.snd) base
          exact h.add hr (fun hm => hfree (List.mem_append_left _ hm)) fun hm => hfree (List.mem_append_right _ hm)
      | release i =>
        simp only [perform, surplus, if_pos ho]
        cases hr : k.runners[i]? with
        | none =>
          unfold TradingKernel.release
          rw [hr]
          exact h
        | some r =>
          rw [wires_release hr]
          exact h.release hr
      | halt id reason r => exact (wires_halt id reason r).symm ▸ h
      | resume id r => exact (wires_resume id r).symm ▸ h
      | check id r => exact (wires_check id r).symm ▸ h
      | rebase id balance => exact (wires_rebase id balance).symm ▸ h
      | subscribe topic id => exact (wires_subscribe topic id).symm ▸ h
      | _ => exact h
    · rw [if_neg ho]
      cases c with
      | release i =>
        simp only [surplus, if_neg ho]
        exact h
      | _ => exact h

theorem Wiring.run (h : Wiring n k.wires) (moves : List (Move A)) :
    Wiring (n + Trace.along (Kernel.step port) surplus moves k) (run port moves k).wires := by
  induction moves generalizing n k with
  | nil => exact h
  | cons m moves ih =>
    have hstep : Wiring (n + surplus k m) (Kernel.step port k m).wires := h.step m
    have hrest := ih hstep
    rwa [add_assoc] at hrest

theorem Wiring.boot (target : T) (balance : Rat) (runner : Bool) : Wiring 0 (boot target balance runner).wires := by
  refine ⟨rfl, ?_, ?_, rfl, List.Perm.refl _, rfl, ?_, List.nodup_nil, ?_, ?_, List.nodup_nil⟩
  · intro r hr
    cases hr
  · intro r hr
    cases hr
  · intro p hp
    cases hp
  · intro r hr
    cases hr
  · intro s hs
    cases hs

end Run

end NTrade.Kernel
