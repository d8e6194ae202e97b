import NTrade.Engines.OpeningRange
import NTrade.Lib.Trace

/-! The signals of the opening range breakout over its sessions. What was signalled is what the active trade
holds, until a trade is open when the day changes: the rollover forgets it, and no exit follows. -/
namespace NTrade.Engines
open NTrade.Domain NTrade.Lib

structure Close where
  candle : CandleClosedEvent
  balance : Rat

structure OrbRun where
  strategy : OpeningRangeBreakout := {}
  emitted : List (Int × OrbSignal) := []

section Signals

/-- Entries in the first, third, fifth place and so on, exits in the places between. -/
def Alternates (signals : List OrbSignal) : Prop :=
  ∀ i x, signals[i]? = some x → x.isEntry = decide (i % 2 = 0)

def netOf (signals : List OrbSignal) : Int := (signals.map fun x => x.side.signed x.quantity).sum

theorem alternates_nil : Alternates [] := by
  intro i x h
  cases h

theorem alternates_concat {signals : List OrbSignal} {x : OrbSignal} (h : Alternates signals)
    (hx : x.isEntry = decide (signals.length % 2 = 0)) : Alternates (signals ++ [x]) := by
  intro i y hy
  rcases lt_or_ge i signals.length with hi | hi
  · rw [List.getElem?_append_left hi] at hy
    exact h i y hy
  · rw [List.getElem?_append_right hi, List.getElem?_singleton] at hy
    split_ifs at hy with hzero
    rw [← Option.some.inj hy, hx, le_antisymm (Nat.sub_eq_zero_iff_le.mp hzero) hi]

@[simp] theorem netOf_append (signals more : List OrbSignal) : netOf (signals ++ more) = netOf signals + netOf more := by
  rw [netOf, List.map_append, List.sum_append, netOf, netOf]

@[simp] theorem netOf_singleton (x : OrbSignal) : netOf [x] = x.side.signed x.quantity := List.sum_singleton

theorem signed_opposite (side : SignalSide) (qty : Int) : side.opposite.signed qty = -side.signed qty := by
  cases side with
  | buy => rfl
  | sell => exact (neg_neg qty).symm

theorem signed_ne_zero {side : SignalSide} {qty : Int} (h : 1 ≤ qty) : side.signed qty ≠ 0 := by
  cases side <;> rw [SignalSide.signed] <;> omega

end Signals

namespace OpeningRangeBreakout
variable (cfg : OrbConfig)

def held (s : OpeningRangeBreakout) : Int := s.active.elim 0 fun t => t.side.signed t.qty

def changesDay (e : CandleClosedEvent) (s : OpeningRangeBreakout) : Bool :=
  takes cfg e ∧ s.dayKey ≠ some (dayKeyOf e.ts)

section Phases
variable {cfg} {row : OrbRow} {s : OpeningRangeBreakout}

theorem rollover_same (h : s.dayKey = some (dayKeyOf row.ts)) : rollover row s = { s with rows := s.rows ++ [row] } := by
  rw [rollover, if_neg (not_not_intro h)]

theorem rollover_new (h : s.dayKey ≠ some (dayKeyOf row.ts)) :
    rollover row s = { rows := [row], dayKey := some (dayKeyOf row.ts), errorCount := s.errorCount } := by
  rw [rollover, if_pos h]

/-- A trade that is carried into the row was open on its day. -/
theorem active_rollover {t : ActiveTrade} (h : (rollover row s).active = some t) :
    s.dayKey = some (dayKeyOf row.ts) ∧ s.active = some t := by
  by_cases hd : s.dayKey = some (dayKeyOf row.ts)
  · rw [rollover_same hd] at h
    exact ⟨hd, h⟩
  · rw [rollover_new hd] at h
    cases h

/-- The range is built with the trade, the count and the day as they are. -/
theorem buildRange_keeps : (buildRange cfg row s).active = s.active ∧ (buildRange cfg row s).tradesToday = s.tradesToday ∧
    (buildRange cfg row s).dayKey = s.dayKey := by
  rw [buildRange]
  dsimp only
  split_ifs <;> exact ⟨rfl, rfl, rfl⟩

/-- A trade that is open is exited, or goes on. -/
theorem manageExit_cases (cfg : OrbConfig) (row : OrbRow) (s : OpeningRangeBreakout) :
    (∃ t price reason, s.active = some t ∧ (stopOf row t).isSome = true ∧ manageExit cfg row s =
      ({ s with active := none, tradesToday := s.tradesToday + 1 }, some (exitSignal cfg t price reason))) ∨
    ∃ active, manageExit cfg row s = ({ s with active }, none) ∧ active.map (fun t => (t.side, t.qty)) =
      s.active.map fun t => (t.side, t.qty) := by
  rw [manageExit]
  cases ha : s.active with
  | none =>
    have hs : ({ s with active := none } : OpeningRangeBreakout) = s := by rw [← ha]
    exact .inr ⟨none, by rw [hs], rfl⟩
  | some t =>
    dsimp only
    cases hstop : stopOf row t with
    | none => exact .inr ⟨_, rfl, rfl⟩
    | some stop => exact .inl ⟨t, stop.1, stop.2, rfl, by rw [hstop]; rfl, rfl⟩

/-- An entry is made without a trade, below the day's limit and of a lot at least. -/
theorem seekEntry_cases (cfg : OrbConfig) (balance : Rat) (row : OrbRow) (s : OpeningRangeBreakout) :
    (∃ t x, s.active = none ∧ s.tradesToday < cfg.maxTradesPerDay ∧ cfg.lotSize ≤ t.qty ∧
      x.isEntry = true ∧ x.side = t.side ∧ x.quantity = t.qty ∧
      seekEntry cfg balance row s = ({ s with active := some t }, some x)) ∨
    ∃ errors, seekEntry cfg balance row s = ({ s with errorCount := errors }, none) := by
  rw [seekEntry]
  split_ifs with hlooks
  · dsimp only
    cases hv : (vwap (frameOf s.rows)).getLast?.join with
    | none => exact .inr ⟨_, rfl⟩
    | some vwapVal =>
      dsimp only
      cases breakout cfg row vwapVal (lastEma cfg.emaFast (frameOf s.rows)) (lastEma cfg.emaSlow (frameOf s.rows)) s with
      | none => exact .inr ⟨s.errorCount, rfl⟩
      | some levels =>
        dsimp only
        rw [enter]
        dsimp only
        split_ifs
        · exact .inr ⟨s.errorCount, rfl⟩
        · obtain ⟨hactive, -, htrades, -⟩ := of_decide_eq_true hlooks
          exact .inl ⟨_, _, hactive, htrades, le_max_left _ _, rfl, rfl, rfl, rfl⟩
  · exact .inr ⟨s.errorCount, rfl⟩

end Phases

section Tracking

structure Tracked (signals : List OrbSignal) (s : OpeningRangeBreakout) : Prop where
  net : netOf signals = s.held
  alternates : Alternates signals
  parity : s.active.isSome = decide (signals.length % 2 = 1)

def Sized (s : OpeningRangeBreakout) : Prop := ∀ t, s.active = some t → 1 ≤ t.qty

variable {cfg} {signals : List OrbSignal} {row : OrbRow} {s : OpeningRangeBreakout}

theorem Sized.of_idle (h : s.active = none) : Sized s := by
  intro t ht
  rw [h] at ht
  cases ht

theorem Tracked.of_active (h : Tracked signals s) {s' : OpeningRangeBreakout}
    (ha : s'.active.map (fun t => (t.side, t.qty)) = s.active.map fun t => (t.side, t.qty)) : Tracked signals s' := by
  have hheld (u : OpeningRangeBreakout) :
      u.held = (u.active.map fun t => (t.side, t.qty)).elim 0 fun p => p.1.signed p.2 := by
    rw [held]
    cases u.active <;> rfl
  have hsome (u : OpeningRangeBreakout) : u.active.isSome = (u.active.map fun t => (t.side, t.qty)).isSome := by
    cases u.active <;> rfl
  refine ⟨?_, h.alternates, ?_⟩
  · rw [hheld, ha, ← hheld]
    exact h.net
  · rw [hsome, ha, ← hsome]
    exact h.parity

theorem Tracked.manageExit (h : Tracked signals s) (row : OrbRow) :
    Tracked (signals ++ (manageExit cfg row s).2.toList) (manageExit cfg row s).1 := by
  rcases manageExit_cases cfg row s with ⟨t, price, reason, ha, -, he⟩ | ⟨active, he, ha⟩
  · have hlen : signals.length % 2 = 1 := by
      have := h.parity
      rw [ha] at this
      exact of_decide_eq_true this.symm
    rw [he]
    constructor
    · have hnet := h.net
      rw [held, ha] at hnet
      rw [Option.toList_some, netOf_append, netOf_singleton, exitSignal, signed_opposite, hnet]
      exact add_neg_cancel _
    · exact alternates_concat h.alternates (by rw [hlen]; rfl)
    · rw [Option.toList_some, List.length_append, List.length_singleton, Nat.add_mod, hlen]
      rfl
  · rw [he, Option.toList_none, List.append_nil]
    exact h.of_active ha

theorem Tracked.seekEntry (h : Tracked signals s) (balance : Rat) (row : OrbRow) :
    Tracked (signals ++ (seekEntry cfg balance row s).2.toList) (seekEntry cfg balance row s).1 := by
  rcases seekEntry_cases cfg balance row s with ⟨t, x, ha, -, -, hx, hside, hqty, he⟩ | ⟨errors, he⟩
  · have hlen : signals.length % 2 = 0 := by
      have := h.parity
      rw [ha] at this
      have := of_decide_eq_false this.symm
      omega
    rw [he]
    constructor
    · have hnet := h.net
      rw [held, ha] at hnet
      rw [Option.toList_some, netOf_append, netOf_singleton, hnet, hside, hqty]
      exact zero_add _
    · exact alternates_concat h.alternates (by rw [hlen, hx]; rfl)
    · rw [Option.toList_some, List.length_append, List.length_singleton, Nat.add_mod, hlen]
      rfl
  · rw [he, Option.toList_none, List.append_nil]
    exact h.of_active rfl

theorem Tracked.manage (h : Tracked signals s) (row : OrbRow) (hday : s.dayKey ≠ some (dayKeyOf row.ts) → s.active = none) :
    Tracked (signals ++ (manage cfg row s).2.toList) (manage cfg row s).1 := by
  have hroll : Tracked signals (rollover row s) := by
    by_cases hd : s.dayKey = some (dayKeyOf row.ts)
    · rw [rollover_same hd]
      exact h.of_active rfl
    · rw [rollover_new hd]
      exact h.of_active (by rw [hday hd])
  exact (hroll.of_active (congrArg _ buildRange_keeps.1)).manageExit row

theorem Tracked.onCandleClosed (h : Tracked signals s) (e : CandleClosedEvent) (balance : Rat)
    (hday : changesDay cfg e s = true → s.active = none) :
    Tracked (signals ++ (onCandleClosed cfg e balance s).2) (onCandleClosed cfg e balance s).1 := by
  rw [OpeningRangeBreakout.onCandleClosed]
  split_ifs with htakes
  · dsimp only
    rw [← List.append_assoc]
    exact (h.manage (rowOf e) fun hd => hday (decide_eq_true ⟨htakes, hd⟩)).seekEntry balance (rowOf e)
  · rw [List.append_nil]
    exact h

theorem Sized.manage (h : Sized s) (row : OrbRow) : Sized (manage cfg row s).1 := by
  have hroll : Sized (rollover row s) := by
    by_cases hd : s.dayKey = some (dayKeyOf row.ts)
    · rw [rollover_same hd]
      exact h
    · rw [rollover_new hd]
      exact .of_idle rfl
  have hbuild : Sized (buildRange cfg row (rollover row s)) := by
    intro t ht
    rw [buildRange_keeps.1] at ht
    exact hroll t ht
  rw [OpeningRangeBreakout.manage]
  rcases manageExit_cases cfg row (buildRange cfg row (rollover row s)) with ⟨_, _, _, -, -, he⟩ | ⟨active, he, ha⟩
  · rw [he]
    exact .of_idle rfl
  · rw [he]
    intro t ht
    dsimp only at ht
    rw [ht] at ha
    obtain ⟨u, hu, hqty⟩ := Option.map_eq_some_iff.mp ha.symm
    have hle := hbuild u hu
    rw [(Prod.mk.inj hqty).2] at hle
    exact hle

theorem Sized.onCandleClosed (h : Sized s) (e : CandleClosedEvent) (balance : Rat) :
    Sized (onCandleClosed cfg e balance s).1 := by
  rw [OpeningRangeBreakout.onCandleClosed]
  split_ifs
  · dsimp only
    have hm := @Sized.manage cfg s h (rowOf e)
    rcases seekEntry_cases cfg balance (rowOf e) (OpeningRangeBreakout.manage cfg (rowOf e) s).1 with
      ⟨t, x, -, -, hqty, -, -, -, he⟩ | ⟨errors, he⟩
    · rw [he]
      intro u hu
      rw [← Option.some.inj hu]
      exact cfg.lot_pos.trans hqty
    · rw [he]
      exact hm
  · exact h

/-- After a change of the day there is no trade, and nothing was signalled. -/
theorem onCandleClosed_of_changesDay {e : CandleClosedEvent} {balance : Rat} (h : changesDay cfg e s = true) :
    (onCandleClosed cfg e balance s).2 = [] ∧ (onCandleClosed cfg e balance s).1.active = none := by
  obtain ⟨htakes, hday⟩ := of_decide_eq_true h
  have hnone : (buildRange cfg (rowOf e) (rollover (rowOf e) s)).active = none := by
    rw [buildRange_keeps.1, rollover_new hday]
  have hready : (buildRange cfg (rowOf e) (rollover (rowOf e) s)).orbReady = false := by
    have hlen : (window cfg [rowOf e]).length ≤ 1 := List.length_filter_le _ _
    rw [rollover_new hday, buildRange]
    dsimp only
    split_ifs with hbuild hwindow
    · omega
    · rfl
    · rfl
  have hmanage : manage cfg (rowOf e) s = (buildRange cfg (rowOf e) (rollover (rowOf e) s), none) := by
    rw [OpeningRangeBreakout.manage, OpeningRangeBreakout.manageExit, hnone]
  have hlooks : looks cfg (rowOf e) (buildRange cfg (rowOf e) (rollover (rowOf e) s)) = false := by
    rw [looks, hready]
    simp
  rw [OpeningRangeBreakout.onCandleClosed, if_pos htakes, hmanage]
  dsimp only
  rw [OpeningRangeBreakout.seekEntry, hlooks]
  exact ⟨rfl, hnone⟩

end Tracking

end OpeningRangeBreakout

namespace OrbRun
open OpeningRangeBreakout
variable (cfg : OrbConfig)

def step (r : OrbRun) (c : Close) : OrbRun where
  strategy := (onCandleClosed cfg c.candle c.balance r.strategy).1
  emitted := r.emitted ++ (onCandleClosed cfg c.candle c.balance r.strategy).2.map fun x => (dayKeyOf c.candle.ts, x)

def run (closes : List Close) : OrbRun := closes.foldl (step cfg) {}

@[simp] theorem run_concat (closes : List Close) (c : Close) : run cfg (closes ++ [c]) = (run cfg closes).step cfg c := by
  simp [run]

def signals (r : OrbRun) : List OrbSignal := r.emitted.map Prod.snd

def entriesOn (day : Int) (r : OrbRun) : Nat := r.emitted.countP fun x => x.1 = day ∧ x.2.isEntry

def InBalance (r : OrbRun) : Prop := netOf r.signals = r.strategy.held ∧ Alternates r.signals

variable {cfg}

theorem signals_step (r : OrbRun) (c : Close) :
    (r.step cfg c).signals = r.signals ++ (onCandleClosed cfg c.candle c.balance r.strategy).2 := by
  rw [signals, step, List.map_append, List.map_map, signals]
  exact congrArg (r.emitted.map Prod.snd ++ ·) (List.map_id _)

theorem sized_run (closes : List Close) : Sized (run cfg closes).strategy := by
  induction closes using List.reverseRecOn with
  | nil => exact .of_idle rfl
  | append_singleton closes c ih =>
    rw [run_concat]
    exact ih.onCandleClosed c.candle c.balance

theorem tracked_run {closes : List Close}
    (h : Trace.Each (fun pre c => changesDay cfg c.candle (run cfg pre).strategy = true → (run cfg pre).strategy.active = none) closes) :
    Tracked (run cfg closes).signals (run cfg closes).strategy := by
  induction closes using List.reverseRecOn with
  | nil => exact ⟨rfl, alternates_nil, rfl⟩
  | append_singleton closes c ih =>
    obtain ⟨hs, hc⟩ := Trace.each_concat.mp h
    rw [run_concat, signals_step]
    exact (ih hs).onCandleClosed c.candle c.balance hc

/-- The trade that a change of the day forgets stays in the sum of what was signalled. -/
theorem carried_unbalanced {r : OrbRun} {c : Close} (hb : InBalance r) (hs : Sized r.strategy)
    (hday : changesDay cfg c.candle r.strategy = true) (ha : r.strategy.active ≠ none) : ¬ InBalance (r.step cfg c) := by
  rintro ⟨hnet, -⟩
  obtain ⟨t, ht⟩ := Option.ne_none_iff_exists'.mp ha
  obtain ⟨hnone, hflat⟩ := @onCandleClosed_of_changesDay cfg r.strategy c.candle c.balance hday
  rw [signals_step, hnone, List.append_nil, hb.1, held, ht, held, step, hflat] at hnet
  exact signed_ne_zero (hs t ht) hnet

section Pace

def Forward (cfg : OrbConfig) (e : CandleClosedEvent) (s : OpeningRangeBreakout) : Prop :=
  takes cfg e = true → ∀ k, s.dayKey = some k → k ≤ dayKeyOf e.ts

structure Paced (cfg : OrbConfig) (emitted : List (Int × OrbSignal)) (s : OpeningRangeBreakout) : Prop where
  past : ∀ day, emitted.countP (fun x => x.1 = day ∧ x.2.isEntry) ≤ cfg.maxTradesPerDay
  later : ∀ day, (∀ k, s.dayKey = some k → k < day) → emitted.countP (fun x => x.1 = day ∧ x.2.isEntry) = 0
  today : ∀ k, s.dayKey = some k → emitted.countP (fun x => x.1 = k ∧ x.2.isEntry) = s.tradesToday + s.active.isSome.toNat

variable {emitted : List (Int × OrbSignal)} {s : OpeningRangeBreakout} {row : OrbRow}

private theorem paced_rollover (h : Paced cfg emitted s) (hf : ∀ k, s.dayKey = some k → k ≤ dayKeyOf row.ts) :
    Paced cfg emitted (rollover row s) ∧ (rollover row s).dayKey = some (dayKeyOf row.ts) := by
  by_cases hd : s.dayKey = some (dayKeyOf row.ts)
  · rw [rollover_same hd]
    exact ⟨⟨h.past, h.later, h.today⟩, hd⟩
  · rw [rollover_new hd]
    have hlt (k : Int) (hk : s.dayKey = some k) : k < dayKeyOf row.ts :=
      lt_of_le_of_ne (hf k hk) fun he => hd (he ▸ hk)
    refine ⟨⟨h.past, fun day hday => h.later day fun k hk => ?_, fun k hk => ?_⟩, rfl⟩
    · exact (hlt k hk).trans (hday _ rfl)
    · rw [← Option.some.inj hk]
      exact h.later _ hlt

private theorem paced_buildRange (h : Paced cfg emitted s) : Paced cfg emitted (buildRange cfg row s) := by
  obtain ⟨ha, ht, hk⟩ := @buildRange_keeps cfg row s
  refine ⟨h.past, ?_, ?_⟩
  · rw [hk]
    exact h.later
  · rw [ha, ht, hk]
    exact h.today

private theorem paced_manageExit (h : Paced cfg emitted s) (day : Int) :
    Paced cfg (emitted ++ (manageExit cfg row s).2.toList.map fun x => (day, x)) (manageExit cfg row s).1 ∧
      (manageExit cfg row s).1.dayKey = s.dayKey := by
  rcases manageExit_cases cfg row s with ⟨t, price, reason, ha, -, he⟩ | ⟨active, he, ha⟩
  · rw [he]
    have hsame (d : Int) : (emitted ++ [(day, exitSignal cfg t price reason)]).countP (fun x => x.1 = d ∧ x.2.isEntry) =
        emitted.countP fun x => x.1 = d ∧ x.2.isEntry := by
      rw [List.countP_append, List.countP_singleton, if_neg (by simp [exitSignal, OrbSignal.isEntry]), Nat.add_zero]
    refine ⟨⟨fun d => ?_, fun d hd => ?_, fun k hk => ?_⟩, rfl⟩
    · exact (hsame d).trans_le (h.past d)
    · exact (hsame d).trans (h.later d hd)
    · have htoday := h.today k hk
      rw [ha] at htoday
      exact (hsame k).trans htoday
  · rw [he, Option.toList_none, List.map_nil, List.append_nil]
    have hsome : active.isSome = s.active.isSome := by
      rw [← Option.isSome_map (f := fun t : ActiveTrade => (t.side, t.qty)), ha, Option.isSome_map]
    refine ⟨⟨h.past, h.later, fun k hk => ?_⟩, rfl⟩
    rw [h.today k hk, ← hsome]

private theorem paced_seekEntry (h : Paced cfg emitted s) {day : Int} (hk : s.dayKey = some day) (balance : Rat) :
    Paced cfg (emitted ++ (seekEntry cfg balance row s).2.toList.map fun x => (day, x)) (seekEntry cfg balance row s).1 := by
  rcases seekEntry_cases cfg balance row s with ⟨t, x, ha, hlt, -, hx, -, -, he⟩ | ⟨errors, he⟩
  · rw [he]
    have hone : (emitted ++ [(day, x)]).countP (fun x => x.1 = day ∧ x.2.isEntry) =
        emitted.countP (fun x => x.1 = day ∧ x.2.isEntry) + 1 := by
      rw [List.countP_append, List.countP_singleton, if_pos (by simp [hx])]
    have hother {d : Int} (hd : d ≠ day) : (emitted ++ [(day, x)]).countP (fun x => x.1 = d ∧ x.2.isEntry) =
        emitted.countP fun x => x.1 = d ∧ x.2.isEntry := by
      rw [List.countP_append, List.countP_singleton, if_neg (by simp [Ne.symm hd]), Nat.add_zero]
    have htoday := h.today day hk
    rw [ha] at htoday
    refine ⟨fun d => ?_, fun d hd => ?_, fun k hk' => ?_⟩
    · by_cases hd : d = day
      · rw [hd]
        exact hone.trans_le (htoday ▸ hlt)
      · exact (hother hd).trans_le (h.past d)
    · exact (hother (hd day hk).ne').trans (h.later d hd)
    · obtain rfl : day = k := Option.some.inj (hk.symm.trans hk')
      exact hone.trans (congrArg (· + 1) htoday)
  · rw [he, Option.toList_none, List.map_nil, List.append_nil]
    exact ⟨h.past, h.later, h.today⟩

theorem paced_step {r : OrbRun} (h : Paced cfg r.emitted r.strategy) {c : Close} (hf : Forward cfg c.candle r.strategy) :
    Paced cfg (r.step cfg c).emitted (r.step cfg c).strategy := by
  rw [step, onCandleClosed]
  split_ifs with htakes
  · obtain ⟨hroll, hday⟩ := @paced_rollover cfg _ _ (rowOf c.candle) h (hf htakes)
    obtain ⟨hexit, hkey⟩ := @paced_manageExit cfg _ _ (rowOf c.candle) (paced_buildRange hroll) (dayKeyOf c.candle.ts)
    dsimp only
    rw [List.map_append, ← List.append_assoc]
    exact paced_seekEntry hexit (hkey.trans (buildRange_keeps.2.2.trans hday)) c.balance
  · rw [List.map_nil, List.append_nil]
    exact h

theorem paced_run {closes : List Close} (h : Trace.Each (fun pre c => Forward cfg c.candle (run cfg pre).strategy) closes) :
    Paced cfg (run cfg closes).emitted (run cfg closes).strategy := by
  induction closes using List.reverseRecOn with
  | nil => exact ⟨fun _ => Nat.zero_le _, fun _ _ => rfl, nofun⟩
  | append_singleton closes c ih =>
    obtain ⟨hs, hc⟩ := Trace.each_concat.mp h
    rw [run_concat]
    exact paced_step (ih hs) hc

end Pace

/-- The signals stay in balance and alternate exactly while no trade is open at a change of the day, and where the days
do not go back, no day has more entries than it may have. -/
theorem lifecycle_iff (cfg : OrbConfig) (closes : List Close) :
    ((∀ pre, pre <+: closes → InBalance (run cfg pre)) ↔
      Trace.Each (fun pre c => changesDay cfg c.candle (run cfg pre).strategy = true → (run cfg pre).strategy.active = none)
        closes) ∧
    (Trace.Each (fun pre c => Forward cfg c.candle (run cfg pre).strategy) closes →
      ∀ pre, pre <+: closes → ∀ day, (run cfg pre).entriesOn day ≤ cfg.maxTradesPerDay) := by
  refine ⟨⟨fun h pre c suf he hday => ?_, fun h pre hpre => ?_⟩, fun h pre hpre => ?_⟩
  · by_contra ha
    have hnext : pre ++ [c] <+: closes := ⟨suf, by rw [he, List.append_assoc]; rfl⟩
    have hbal := h (pre ++ [c]) hnext
    rw [run_concat] at hbal
    exact carried_unbalanced (h pre ((List.prefix_append pre [c]).trans hnext)) (sized_run pre) hday ha hbal
  · have ht := tracked_run (h.of_isPrefix hpre)
    exact ⟨ht.net, ht.alternates⟩
  · exact (paced_run (h.of_isPrefix hpre)).past

def breakoutCfg : OrbConfig := { symbol := some "NIFTY", emaFast := 2, emaSlow := 3 }

def closeAt (day minute : Int) (price : Rat) (volume : Int) : Close where
  candle := { symbol := "NIFTY", exchange := "NFO", timeframe := "1m", ts := day * 86400 + minute * 60 - IST,
              open_ := price, high := price + 1, low := price - 1, close := price, volume }
  balance := 100000

def breakoutDay (day : Int) : List Close := [closeAt day 556 100 10, closeAt day 557 101 10, closeAt day 571 110 50]

/-- A breakout on two days, and no exit between them. -/
theorem carried_trade_forgotten :
    ¬ ∀ pre, pre <+: breakoutDay 0 ++ breakoutDay 1 → InBalance (run breakoutCfg pre) := by
  intro h
  have hnet := (h _ List.prefix_rfl).1
  revert hnet
  decide +kernel

end OrbRun
end NTrade.Engines
