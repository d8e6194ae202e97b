import NTrade.Execution.RateLimit
import Mathlib.Algebra.Field.Rat
import Mathlib.Algebra.Order.Field.Basic
import Mathlib.Data.List.Infix

/-! A caller that has the rate gate to itself: how many turns the loop of `acquire` takes. -/
namespace NTrade.Execution
open NTrade.Lib

namespace BrokerRateGate
variable (fl : Rat → Rat)

/-- `while window and window[0] <= now - span: window.popleft()`; `none` is an `IndexError`. -/
def popExpired (span now : Rat) (window : List Rat) : Option (List Rat) :=
  if h : window = [] then some []
  else do
    let oldest ← window[0]?
    if oldest ≤ fl (now - span) then popExpired span now window.tail else some window
termination_by window.length
decreasing_by
  rw [List.length_tail]
  exact Nat.sub_lt (List.length_pos_of_ne_nil h) Nat.one_pos

/-- One window of `_compute_wait`, with the places where it is indexed. -/
def indexedWaitFor (now wait : Rat) (w : WindowLog) : Option (Rat × WindowLog) := do
  let stamps ← popExpired fl w.window.span now w.stamps
  if w.window.limit ≤ stamps.length then
    let oldest ← stamps[0]?
    some (max wait (fl (fl (oldest + w.window.span) - now)), { w with stamps })
  else some (wait, { w with stamps })

/-- `_compute_wait` window by window, with the places where a window is indexed. -/
def indexedWait (g : BrokerRateGate) (q : Quota) (now : Rat) : Option (Rat × BrokerRateGate) := do
  let cooldown := fl (g.cooldownUntil q - now)
  if 0 < cooldown then some (cooldown, g)
  else
    let (wait, logs) ← (g.history q).foldlM (fun (wait, logs) w => do
      let (wait, w) ← indexedWaitFor fl now wait w
      some (wait, logs ++ [w])) ((0 : Rat), ([] : List WindowLog))
    some (wait, { g with history := Function.update g.history q logs })

/-- How many turns of its loop a caller alone may still need. -/
def turnsLeft (g : BrokerRateGate) (q : Quota) (now : Rat) : Nat :=
  if (g.computeWait id q now).1 ≤ 0 then 1 else if g.cooldownUntil q ≤ now then 2 else 3

/-- No window remembers more stamps than its limit. -/
def Bounded (g : BrokerRateGate) : Prop := ∀ q, ∀ w ∈ g.history q, w.stamps.length ≤ w.window.limit

end BrokerRateGate

def Phase.Over (told now : Rat) : Phase → Prop
  | .sleeping _ wait => told + wait ≤ now
  | .idle | .trying _ => True

instance (told now : Rat) : (phase : Phase) → Decidable (phase.Over told now)
  | .sleeping _ wait => inferInstanceAs (Decidable (told + wait ≤ now))
  | .idle | .trying _ => isTrue trivial

/-- A caller that was told to wait at the last reading of the clock finds at the next one that the
wait is over. -/
abbrev GateWorld.Slept {κ : Type} (clock : Clock id) (c : κ) (s : GateWorld κ) : Prop :=
  (s.phase c).Over (clock.read (s.reads - 1)) (clock.read s.reads)

def turns {κ : Type} (c : κ) : Nat → List (GateMove κ)
  | 0 => []
  | n + 1 => .look c :: .wake c :: turns c n

def alone {κ : Type} (c : κ) (q : Quota) (n : Nat) : List (GateMove κ) := .acquire c q :: turns c n

section Indexing
open BrokerRateGate
variable (fl : Rat → Rat)

theorem popExpired_eq (span now : Rat) (window : List Rat) :
    popExpired fl span now window = some (SlidingWindow.expire (fl (now - span)) window) := by
  induction window with
  | nil =>
    rw [popExpired]
    rfl
  | cons oldest rest ih =>
    rw [popExpired, dif_neg (List.cons_ne_nil _ _)]
    simp only [List.getElem?_cons_zero, Option.bind_eq_bind, Option.bind_some, List.tail_cons]
    rw [SlidingWindow.expire, List.dropWhile_cons]
    split
    · next h =>
      rw [ih, if_pos (decide_eq_true h)]
      rfl
    · next h => rw [if_neg (by simpa using h)]

theorem indexedWaitFor_eq (now wait : Rat) (w : WindowLog) :
    indexedWaitFor fl now wait w = some (waitFor fl now wait (expire fl now w), expire fl now w) := by
  have hw : expire fl now w = { w with stamps := SlidingWindow.expire (fl (now - w.window.span)) w.stamps } := rfl
  rw [indexedWaitFor, popExpired_eq, hw, waitFor.eq_def]
  simp only [Option.bind_eq_bind, Option.bind_some]
  cases SlidingWindow.expire (fl (now - w.window.span)) w.stamps with
  | nil =>
    -- a limit is at least one, so that an empty window is never full
    have hlimit : ¬w.window.limit ≤ 0 := Nat.not_le.mpr w.window.limit_pos
    exact if_neg hlimit
  | cons oldest rest =>
    simp only [List.getElem?_cons_zero, Option.bind_some]
    split
    · rfl
    · rfl

theorem foldlM_indexedWaitFor (now wait : Rat) (logs done : List WindowLog) :
    (logs.foldlM (fun (wait, logs) w => do
        let (wait, w) ← indexedWaitFor fl now wait w
        some (wait, logs ++ [w])) (wait, done) : Option (Rat × List WindowLog)) =
      some ((logs.map (expire fl now)).foldl (waitFor fl now) wait, done ++ logs.map (expire fl now)) := by
  induction logs generalizing wait done with
  | nil => simp
  | cons w logs ih =>
    rw [List.foldlM_cons]
    simp only [indexedWaitFor_eq, Option.bind_eq_bind, Option.bind_some]
    simp only [indexedWaitFor_eq, Option.bind_eq_bind, Option.bind_some] at ih
    rw [ih, List.map_cons, List.foldl_cons, List.append_assoc]
    rfl

/-- `_compute_wait` never indexes an empty window. -/
theorem indexedWait_eq (g : BrokerRateGate) (q : Quota) (now : Rat) :
    g.indexedWait fl q now = some (g.computeWait fl q now) := by
  rw [indexedWait, computeWait]
  dsimp only
  split
  · rfl
  · rw [foldlM_indexedWaitFor]
    rfl

theorem computeWait_nonneg (g : BrokerRateGate) (q : Quota) (now : Rat) : 0 ≤ (g.computeWait fl q now).1 := by
  rw [computeWait]
  dsimp only
  split
  · next h => exact le_of_lt h
  · exact le_foldl_waitFor _ _ _ _

end Indexing

section Progress
open BrokerRateGate
variable {g : BrokerRateGate} {q : Quota} {now later : Rat}

/-- A full window tells a wait that lasts until its oldest stamp has expired. -/
theorem le_waitFor_of_full {wait oldest : Rat} {w : WindowLog} {rest : List Rat} (hs : w.stamps = oldest :: rest)
    (hfull : w.window.limit ≤ w.stamps.length) : oldest + w.window.span - now ≤ waitFor id now wait w := by
  rw [waitFor.eq_def]
  simp only [hs]
  rw [hs] at hfull
  rw [if_pos hfull]
  exact le_max_right _ _

theorem le_foldl_of_full {logs : List WindowLog} {wait oldest : Rat} {w : WindowLog} {rest : List Rat} (hw : w ∈ logs)
    (hs : w.stamps = oldest :: rest) (hfull : w.window.limit ≤ w.stamps.length) :
    oldest + w.window.span - now ≤ logs.foldl (waitFor id now) wait := by
  induction logs generalizing wait with
  | nil => exact nomatch hw
  | cons v logs ih =>
    rw [List.foldl_cons]
    rcases List.mem_cons.mp hw with rfl | hw
    · exact (le_waitFor_of_full hs hfull).trans (le_foldl_waitFor _ _ _ _)
    · exact ih hw

/-- Windows with room tell no wait. -/
theorem foldl_waitFor_of_room {logs : List WindowLog} (hroom : ∀ w ∈ logs, w.stamps.length < w.window.limit) (wait : Rat) :
    logs.foldl (waitFor id now) wait = wait := by
  induction logs generalizing wait with
  | nil => rfl
  | cons w logs ih =>
    have hw : waitFor id now wait w = wait := by
      rw [waitFor.eq_def]
      split
      · rfl
      · exact if_neg (not_le.mpr (hroom w List.mem_cons_self))
    rw [List.foldl_cons, hw]
    exact ih (fun v hv => hroom v (List.mem_cons_of_mem _ hv)) wait

/-- A bounded window has room once the oldest stamp that filled it has expired. -/
theorem room_of_expired {w : WindowLog} (hb : w.stamps.length ≤ w.window.limit)
    (hold : ∀ oldest rest, w.stamps = oldest :: rest → w.window.limit ≤ w.stamps.length → oldest + w.window.span ≤ later) :
    (expire id later w).stamps.length < (expire id later w).window.limit := by
  show (SlidingWindow.expire (later - w.window.span) w.stamps).length < w.window.limit
  rcases Nat.lt_or_ge w.stamps.length w.window.limit with hlt | hfull
  · exact (SlidingWindow.length_expire_le _ _).trans_lt hlt
  · cases hs : w.stamps with
    | nil =>
      rw [hs] at hfull
      exact absurd w.window.limit_pos (Nat.not_lt.mpr hfull)
    | cons oldest rest =>
      rw [hs, List.length_cons] at hb
      rw [SlidingWindow.expire_cons (le_sub_iff_add_le.mpr (hold oldest rest hs hfull))]
      exact (SlidingWindow.length_expire_le _ _).trans_lt (Nat.lt_of_succ_le hb)

theorem computeWait_of_cooldown (h : now < g.cooldownUntil q) : g.computeWait id q now = (g.cooldownUntil q - now, g) := by
  rw [computeWait]
  exact if_pos (sub_pos.mpr h)

theorem computeWait_of_clear (h : g.cooldownUntil q ≤ now) :
    g.computeWait id q now = (((g.history q).map (expire id now)).foldl (waitFor id now) 0,
      { g with history := Function.update g.history q ((g.history q).map (expire id now)) }) := by
  rw [computeWait]
  exact if_neg (not_lt.mpr (sub_nonpos.mpr h))

/-- After the wait that the windows told, every window has room. -/
theorem computeWait_after_windows (hb : (g.computeWait id q now).2.Bounded) (hclear : g.cooldownUntil q ≤ now)
    (hover : now + (g.computeWait id q now).1 ≤ later) : ((g.computeWait id q now).2.computeWait id q later).1 ≤ 0 := by
  have hnow : now ≤ later := (le_add_of_nonneg_right (computeWait_nonneg id g q now)).trans hover
  have hlater : (g.computeWait id q now).2.cooldownUntil q ≤ later := by
    rw [computeWait_cooldown]
    exact hclear.trans hnow
  rw [computeWait_of_clear hlater]
  refine le_of_eq (foldl_waitFor_of_room (fun w' hw' => ?_) 0)
  obtain ⟨w, hw, rfl⟩ := List.mem_map.mp hw'
  refine room_of_expired (hb q w hw) fun oldest rest hs hfull => ?_
  rw [computeWait_of_clear hclear] at hw hover
  dsimp only at hw hover
  rw [Function.update_self] at hw
  exact (sub_le_iff_le_add'.mp (le_foldl_of_full hw hs hfull)).trans hover

/-- Every wait that is over leaves fewer turns to go. -/
theorem turnsLeft_lt (hb : (g.computeWait id q now).2.Bounded) (hwait : ¬(g.computeWait id q now).1 ≤ 0)
    (hover : now + (g.computeWait id q now).1 ≤ later) :
    (g.computeWait id q now).2.turnsLeft q later < g.turnsLeft q now := by
  rw [turnsLeft, turnsLeft, if_neg hwait]
  rcases le_or_gt (g.cooldownUntil q) now with hclear | hcool
  · rw [if_pos (computeWait_after_windows hb hclear hover), if_pos hclear]
    exact Nat.lt_succ_self 1
  · rw [computeWait_of_cooldown hcool] at hover ⊢
    have hclear : g.cooldownUntil q ≤ later := by
      rw [add_sub_cancel] at hover
      exact hover
    rw [if_neg (not_le.mpr hcool), if_pos hclear]
    split
    · exact Nat.lt_of_sub_eq_succ rfl
    · exact Nat.lt_succ_self 2

theorem turnsLeft_le (g : BrokerRateGate) (q : Quota) (now : Rat) : g.turnsLeft q now ≤ 3 := by
  rw [turnsLeft]
  split
  · exact Nat.le_of_ble_eq_true rfl
  · split
    · exact Nat.le_of_ble_eq_true rfl
    · exact le_refl 3

theorem turnsLeft_pos (g : BrokerRateGate) (q : Quota) (now : Rat) : 0 < g.turnsLeft q now := by
  rw [turnsLeft]
  split
  · exact Nat.one_pos
  · split
    · exact Nat.two_pos
    · exact Nat.succ_pos 2

end Progress

section Bounds
open BrokerRateGate
variable {g : BrokerRateGate}

theorem length_le_of_expired {now : Rat} {w w' : WindowLog} (h : Expired id now w w') (hb : w.stamps.length ≤ w.window.limit) :
    w'.stamps.length ≤ w'.window.limit := by
  obtain ⟨hwin, expired, hs, -⟩ := h
  rw [hs, List.length_append] at hb
  rw [hwin]
  omega

theorem bounded_computeWait (h : g.Bounded) (q : Quota) (now : Rat) : (g.computeWait id q now).2.Bounded := by
  intro q' w' hw'
  obtain ⟨w, hw, hexp⟩ := mem_of_forall₂ (computeWait_expires q') w' hw'
  exact length_le_of_expired hexp (h q' w hw)

/-- A grant adds a stamp where there is room. -/
theorem bounded_stamp {q : Quota} (h : g.Bounded) (hroom : ∀ w ∈ g.history q, w.stamps.length < w.window.limit) (now : Rat) :
    (g.stamp q now).Bounded := by
  intro q' w' hw'
  by_cases hq : q' = q
  · subst hq
    rw [stamp] at hw'
    dsimp only at hw'
    rw [Function.update_self] at hw'
    obtain ⟨w, hw, rfl⟩ := List.mem_map.mp hw'
    dsimp only
    rw [List.length_append]
    exact hroom w hw
  · rw [stamp] at hw'
    dsimp only at hw'
    rw [Function.update_of_ne hq] at hw'
    exact h q' w' hw'

variable {κ : Type} [DecidableEq κ] {clock : Clock id} {s : GateWorld κ}

theorem bounded_look (h : s.gate.Bounded) (c : κ) (q : Quota) : (s.look clock c q).gate.Bounded := by
  have hlook := bounded_computeWait h q (clock.read s.reads)
  rw [GateWorld.look]
  dsimp only
  split
  · next hw =>
    have hroom := computeWait_free Binary64.rounding_exact (fun _ _ _ _ => rfl) (fun _ w _ => timely_exact _ w) hw
    exact bounded_stamp hlook hroom _
  · exact hlook

theorem bounded_step (h : s.gate.Bounded) (m : GateMove κ) : (s.step clock m).gate.Bounded := by
  cases m with
  | acquire c q =>
    rw [GateWorld.step]
    split
    · exact h
    · exact h
  | look c =>
    rw [GateWorld.step]
    split
    · exact bounded_look h c _
    · exact h
  | wake c =>
    rw [GateWorld.step]
    split
    · exact h
    · exact h
  | penalize q seconds => exact h

theorem bounded_run (h : s.gate.Bounded) (moves : List (GateMove κ)) : (s.run clock moves).gate.Bounded := by
  induction moves generalizing s with
  | nil => exact h
  | cons m moves ih => exact ih (bounded_step h m)

theorem bounded_session (clock : Clock id) (windows : Quota → Option (List Window)) (moves : List (GateMove κ)) :
    (GateWorld.session clock windows moves).gate.Bounded := by
  refine bounded_run (fun q w hw => ?_) moves
  obtain ⟨window, -, rfl⟩ := List.mem_map.mp hw
  exact Nat.zero_le _

end Bounds

def Returned {κ : Type} (c : κ) (q : Quota) (s s' : GateWorld κ) : Prop :=
  s'.phase c = .idle ∧ ∃ time, s'.log = s.log ++ [GateObs.granted c q time]

section Alone
variable {κ : Type} [DecidableEq κ] {clock : Clock id} {s : GateWorld κ} {c : κ} {q : Quota}

theorem returned_look (h : (s.gate.computeWait id q (clock.read s.reads)).1 ≤ 0) : Returned c q s (s.look clock c q) := by
  rw [GateWorld.look]
  dsimp only
  rw [if_pos h]
  exact ⟨Function.update_self _ _ _, _, rfl⟩

theorem look_told (h : ¬(s.gate.computeWait id q (clock.read s.reads)).1 ≤ 0) :
    s.look clock c q =
      { s with
        gate := (s.gate.computeWait id q (clock.read s.reads)).2
        reads := s.reads + 1
        phase := Function.update s.phase c (.sleeping q (s.gate.computeWait id q (clock.read s.reads)).1) } := by
  rw [GateWorld.look]
  dsimp only
  rw [if_neg h]

theorem step_look (h : s.phase c = .trying q) : s.step clock (.look c) = s.look clock c q := by
  rw [GateWorld.step]
  simp only [h]

theorem step_wake {wait : Rat} (h : s.phase c = .sleeping q wait) :
    s.step clock (.wake c) = { s with phase := Function.update s.phase c (.trying q) } := by
  rw [GateWorld.step]
  simp only [h]

/-- A caller that is back takes no more turns. -/
theorem run_turns_idle (h : s.phase c = .idle) (n : Nat) : s.run clock (turns c n) = s := by
  have hlook : s.step clock (.look c) = s := by
    rw [GateWorld.step]
    simp only [h]
  have hwake : s.step clock (.wake c) = s := by
    rw [GateWorld.step]
    simp only [h]
  induction n with
  | zero => rfl
  | succ n ih =>
    show ((s.step clock (.look c)).step clock (.wake c)).run clock (turns c n) = s
    rw [hlook, hwake]
    exact ih

/-- A caller comes back within as many turns as it may still need. -/
theorem returned_turns {n : Nat} (hb : s.gate.Bounded) (htrying : s.phase c = .trying q)
    (hleft : s.gate.turnsLeft q (clock.read s.reads) ≤ n)
    (hslept : ∀ pre, pre <+: turns c n → (s.run clock pre).Slept clock c) :
    Returned c q s (s.run clock (turns c n)) := by
  induction n generalizing s with
  | zero => exact absurd (turnsLeft_pos s.gate q (clock.read s.reads)) (Nat.not_lt.mpr hleft)
  | succ n ih =>
    show Returned c q s (((s.step clock (.look c)).step clock (.wake c)).run clock (turns c n))
    by_cases hwait : (s.gate.computeWait id q (clock.read s.reads)).1 ≤ 0
    · have hback : Returned c q s (s.look clock c q) := returned_look hwait
      have hwake : (s.look clock c q).step clock (.wake c) = s.look clock c q := by
        rw [GateWorld.step]
        simp only [hback.1]
      rw [step_look htrying, hwake, run_turns_idle hback.1]
      exact hback
    · have hlook : s.step clock (.look c) =
          { s with
            gate := (s.gate.computeWait id q (clock.read s.reads)).2
            reads := s.reads + 1
            phase := Function.update s.phase c (.sleeping q (s.gate.computeWait id q (clock.read s.reads)).1) } :=
        (step_look htrying).trans (look_told hwait)
      have hover : clock.read s.reads + (s.gate.computeWait id q (clock.read s.reads)).1 ≤ clock.read (s.reads + 1) := by
        have h := hslept [.look c] (List.prefix_append [GateMove.look c] (.wake c :: turns c n))
        rw [GateWorld.run, List.foldl_cons, List.foldl_nil, hlook] at h
        simpa [GateWorld.Slept, Phase.Over] using h
      have hturn : (s.step clock (.look c)).step clock (.wake c) =
          { s with
            gate := (s.gate.computeWait id q (clock.read s.reads)).2
            reads := s.reads + 1
            phase := Function.update s.phase c (.trying q) } := by
        rw [hlook, step_wake (Function.update_self _ _ _)]
        simp only [Function.update_idem]
      have htail : ∀ pre, pre <+: turns c n →
          (((s.step clock (.look c)).step clock (.wake c)).run clock pre).Slept clock c := fun pre hpre =>
        hslept (.look c :: .wake c :: pre) (List.cons_prefix_cons.mpr ⟨rfl, List.cons_prefix_cons.mpr ⟨rfl, hpre⟩⟩)
      rw [hturn] at htail ⊢
      have hb' := bounded_computeWait hb q (clock.read s.reads)
      have hfewer := turnsLeft_lt hb' hwait hover
      exact ih hb' (Function.update_self _ _ _) (Nat.le_of_lt_succ (hfewer.trans_le hleft)) htail

end Alone
end NTrade.Execution
