import NTrade.Lib.Trace
import Mathlib.Algebra.Order.Floor.Ring
import Mathlib.Algebra.Order.Ring.Rat
import Mathlib.Data.Rat.Floor

/-! The state machine of the chart's bar replay. The cursor and the total count ticks, a bar spans
`stepsPerBar` of them. The numbers of the browser are finite here and their arithmetic is exact. -/
namespace NTrade.Ui.ReplayReducer
open NTrade.Lib

inductive ReplayStatus where
  | idle | playing | paused | completed
  deriving DecidableEq, Repr

structure ReplayState where
  status : ReplayStatus
  cursor : Rat
  total : Rat
  stepsPerBar : Rat
  speed : Rat
  startIndex : Rat
  deriving DecidableEq, Repr

def SPEEDS : List Nat := [1, 2, 5, 10, 15, 20, 30, 60]

abbrev ReplaySpeed := {n : Nat // n ∈ SPEEDS}

inductive ReplayAction where
  | load (totalBars : Rat) (stepsPerBar : Option Rat)
  | play
  | pause
  | resume
  | tick
  | seek (index : Rat)
  | reset
  | jumpToLatest
  | setSpeed (speed : ReplaySpeed)
  deriving DecidableEq

def initialReplayState : ReplayState := ⟨ReplayStatus.idle, 0, 0, 1, 1, 0⟩

def clamp (index total : Rat) : Rat := max 0 (min index (max total 0))

def loadedSteps (stepsPerBar : Option Rat) : Rat := max 1 (⌊stepsPerBar.getD 1⌋ : Rat)

def loadedTotal (totalBars : Rat) (stepsPerBar : Option Rat) : Rat := max 0 totalBars * loadedSteps stepsPerBar

def replayReducer (state : ReplayState) : ReplayAction → ReplayState
  | ReplayAction.load totalBars steps =>
    let total := loadedTotal totalBars steps
    { state with
      total := total
      stepsPerBar := loadedSteps steps
      cursor := clamp state.cursor total
      startIndex := clamp state.startIndex total
      status := if total = 0 then ReplayStatus.idle else state.status }
  | ReplayAction.play =>
    if state.total = 0 then state
    else if state.total ≤ state.cursor then { state with status := ReplayStatus.completed }
    else { state with status := ReplayStatus.playing }
  | ReplayAction.pause =>
    if state.status = ReplayStatus.playing then { state with status := ReplayStatus.paused } else state
  | ReplayAction.resume =>
    if state.status = ReplayStatus.paused then { state with status := ReplayStatus.playing } else state
  | ReplayAction.tick =>
    if state.status ≠ ReplayStatus.playing then state
    else if state.total ≤ state.cursor + state.speed then
      { state with cursor := state.total, status := ReplayStatus.completed }
    else { state with cursor := state.cursor + state.speed }
  | ReplayAction.seek index =>
    let cursor := clamp index state.total
    { state with
      cursor := cursor
      status := if state.total ≤ cursor then ReplayStatus.completed
        else if state.status = ReplayStatus.completed then ReplayStatus.idle else state.status }
  | ReplayAction.reset => { state with cursor := state.startIndex, status := ReplayStatus.idle }
  | ReplayAction.jumpToLatest =>
    { state with
      cursor := state.total
      status := if 0 < state.total then ReplayStatus.completed else state.status }
  | ReplayAction.setSpeed speed => { state with speed := (speed.val : Rat) }

def run (actions : List ReplayAction) : ReplayState := actions.foldl replayReducer initialReplayState

@[simp] theorem run_nil : run [] = initialReplayState := rfl

@[simp] theorem run_concat (actions : List ReplayAction) (a : ReplayAction) :
    run (actions ++ [a]) = replayReducer (run actions) a := by
  simp [run]

theorem clamp_nonneg (index total : Rat) : 0 ≤ clamp index total := le_max_left _ _

theorem clamp_le (index : Rat) {total : Rat} (h : 0 ≤ total) : clamp index total ≤ total := by
  rw [clamp, max_eq_left h]
  exact max_le h (min_le_right _ _)

theorem clamp_of_le {index total : Rat} (h0 : 0 ≤ index) (h : index ≤ total) : clamp index total = index := by
  rw [clamp, max_eq_left (h0.trans h), min_eq_left h, max_eq_right h0]

theorem clamp_of_ge {index total : Rat} (h0 : 0 ≤ total) (h : total ≤ index) : clamp index total = total := by
  rw [clamp, max_eq_left h0, min_eq_right h, max_eq_right h0]

theorem loadedTotal_nonneg (totalBars : Rat) (steps : Option Rat) : 0 ≤ loadedTotal totalBars steps := by
  apply mul_nonneg (le_max_left _ _)
  exact zero_le_one.trans (le_max_left _ _)

/-- The cursor and the place where a replay starts stay within the dataset, whose length is no negative number. -/
structure Bounded (s : ReplayState) : Prop where
  total_nonneg : 0 ≤ s.total
  cursor_nonneg : 0 ≤ s.cursor
  cursor_le : s.cursor ≤ s.total
  start_nonneg : 0 ≤ s.startIndex
  start_le : s.startIndex ≤ s.total
  speed_nonneg : 0 ≤ s.speed

theorem bounded_initial : Bounded initialReplayState := by
  constructor <;> decide +kernel

/-- Every action, in any status, keeps the bounds. -/
theorem Bounded.step {s : ReplayState} (h : Bounded s) (a : ReplayAction) : Bounded (replayReducer s a) := by
  obtain ⟨ht, h0, hc, hs0, hs, hv⟩ := h
  cases a with
  | load totalBars steps =>
    have hl := loadedTotal_nonneg totalBars steps
    exact ⟨hl, clamp_nonneg _ _, clamp_le _ hl, clamp_nonneg _ _, clamp_le _ hl, hv⟩
  | play =>
    simp only [replayReducer]
    split_ifs <;> exact ⟨ht, h0, hc, hs0, hs, hv⟩
  | pause =>
    simp only [replayReducer]
    split_ifs <;> exact ⟨ht, h0, hc, hs0, hs, hv⟩
  | resume =>
    simp only [replayReducer]
    split_ifs <;> exact ⟨ht, h0, hc, hs0, hs, hv⟩
  | tick =>
    simp only [replayReducer]
    split_ifs with hp he
    · exact ⟨ht, h0, hc, hs0, hs, hv⟩
    · exact ⟨ht, ht, le_refl _, hs0, hs, hv⟩
    · exact ⟨ht, add_nonneg h0 hv, (not_le.mp he).le, hs0, hs, hv⟩
  | seek index => exact ⟨ht, clamp_nonneg _ _, clamp_le _ ht, hs0, hs, hv⟩
  | reset => exact ⟨ht, hs0, hs, hs0, hs, hv⟩
  | jumpToLatest => exact ⟨ht, ht, le_refl _, hs0, hs, hv⟩
  | setSpeed speed => exact ⟨ht, h0, hc, hs0, hs, Nat.cast_nonneg _⟩

theorem bounded_run (actions : List ReplayAction) : Bounded (run actions) := by
  induction actions using List.reverseRecOn with
  | nil => exact bounded_initial
  | append_singleton actions a ih =>
    rw [run_concat]
    exact ih.step a

/-- What the header of the reducer promises of each state: the cursor is within the dataset, a replay plays only
before its end and is completed only at its end, and a tick moves the cursor only while it plays. -/
structure Invariants (s : ReplayState) : Prop where
  cursor : 0 ≤ s.cursor ∧ s.cursor ≤ s.total
  playing : s.status = ReplayStatus.playing → s.cursor < s.total
  completed : s.status = ReplayStatus.completed → s.cursor = s.total
  tick : s.status ≠ ReplayStatus.playing → (replayReducer s ReplayAction.tick).cursor = s.cursor

/-- The actions that the status survives: a load while the replay plays leaves something to play, a load after its
end leaves nothing behind the cursor, and a replay resumes before its end only. -/
def Safe (s : ReplayState) : ReplayAction → Prop
  | ReplayAction.load totalBars steps =>
    (s.status = ReplayStatus.playing → loadedTotal totalBars steps = 0 ∨ s.cursor < loadedTotal totalBars steps) ∧
    (s.status = ReplayStatus.completed → loadedTotal totalBars steps ≤ s.cursor)
  | ReplayAction.resume => s.status = ReplayStatus.paused → s.cursor < s.total
  | _ => True

theorem tick_cursor {s : ReplayState} (h : s.status ≠ ReplayStatus.playing) :
    (replayReducer s ReplayAction.tick).cursor = s.cursor := by
  simp only [replayReducer]
  rw [if_pos h]

/-- Within the bounds only the two readings of the status are left to keep. -/
theorem invariants_iff {s : ReplayState} (h : Bounded s) :
    Invariants s ↔ (s.status = ReplayStatus.playing → s.cursor < s.total) ∧
      (s.status = ReplayStatus.completed → s.cursor = s.total) :=
  ⟨fun hi => ⟨hi.playing, hi.completed⟩, fun hi => ⟨⟨h.cursor_nonneg, h.cursor_le⟩, hi.1, hi.2, tick_cursor⟩⟩

theorem invariants_initial : Invariants initialReplayState := by
  apply (invariants_iff bounded_initial).mpr
  decide

/-- A load keeps the two readings exactly if it is safe. -/
private theorem load_iff {s : ReplayState} (hb : Bounded s) (totalBars : Rat) (steps : Option Rat) :
    Invariants (replayReducer s (ReplayAction.load totalBars steps)) ↔
      Safe s (ReplayAction.load totalBars steps) := by
  rw [invariants_iff (hb.step _)]
  simp only [replayReducer, Safe]
  have hl := loadedTotal_nonneg totalBars steps
  by_cases h0 : loadedTotal totalBars steps = 0
  · simp [h0, hb.cursor_nonneg]
  · rcases lt_or_ge s.cursor (loadedTotal totalBars steps) with hlt | hge
    · rw [clamp_of_le hb.cursor_nonneg hlt.le]
      simp [h0, hlt, hlt.ne, not_le.mpr hlt]
    · rw [clamp_of_ge hl hge]
      simp [h0, hge, not_lt.mpr hge]

/-- One action keeps the invariants exactly if it is safe in the state that it finds. -/
theorem invariants_step_iff {s : ReplayState} (hb : Bounded s) (hi : Invariants s) (a : ReplayAction) :
    Invariants (replayReducer s a) ↔ Safe s a := by
  cases a with
  | load totalBars steps => exact load_iff hb totalBars steps
  | resume =>
    rw [invariants_iff (hb.step _)]
    simp only [replayReducer, Safe]
    split_ifs with hp
    · simp [hp]
    · exact ⟨fun _ h => absurd h hp, fun _ => ⟨hi.playing, hi.completed⟩⟩
  | play =>
    rw [invariants_iff (hb.step _)]
    simp only [replayReducer, Safe, iff_true]
    split_ifs with h0 he
    · exact ⟨hi.playing, hi.completed⟩
    · exact ⟨by simp, fun _ => le_antisymm hb.cursor_le he⟩
    · exact ⟨fun _ => not_le.mp he, by simp⟩
  | pause =>
    rw [invariants_iff (hb.step _)]
    simp only [replayReducer, Safe, iff_true]
    split_ifs with hp
    · simp
    · exact ⟨hi.playing, hi.completed⟩
  | tick =>
    rw [invariants_iff (hb.step _)]
    simp only [replayReducer, Safe, iff_true]
    split_ifs with hp he
    · exact ⟨hi.playing, hi.completed⟩
    · simp
    · exact ⟨fun _ => not_le.mp he, fun hc => absurd (hc.symm.trans (not_not.mp hp)) (by decide)⟩
  | seek index =>
    rw [invariants_iff (hb.step _)]
    simp only [replayReducer, Safe, iff_true]
    have hle := clamp_le index hb.total_nonneg
    split_ifs with he hc
    · exact ⟨by simp, fun _ => le_antisymm hle he⟩
    · simp
    · exact ⟨fun _ => not_le.mp he, fun h => absurd h hc⟩
  | reset =>
    rw [invariants_iff (hb.step _)]
    simp [replayReducer, Safe]
  | jumpToLatest =>
    rw [invariants_iff (hb.step _)]
    simp only [replayReducer, Safe, iff_true]
    split_ifs with h0
    · simp
    · exact ⟨fun h => absurd (hb.cursor_nonneg.trans_lt (hi.playing h)) h0, fun _ => trivial⟩
  | setSpeed speed =>
    rw [invariants_iff (hb.step _)]
    simpa [replayReducer, Safe] using ⟨hi.playing, hi.completed⟩

/-- The invariants hold in every state that a list of actions passes through exactly if each of its actions is safe
in the state that it finds. -/
theorem replayReducer_invariants_iff (actions : List ReplayAction) :
    (∀ pre, pre <+: actions → Invariants (run pre)) ↔ Trace.Each (fun pre a => Safe (run pre) a) actions := by
  apply Trace.forall_prefix_iff invariants_initial
  intro pre a hi
  rw [run_concat]
  exact invariants_step_iff (bounded_run pre) hi a

def reloaded : List ReplayAction :=
  [ReplayAction.load 10 none, ReplayAction.play, ReplayAction.setSpeed ⟨5, by decide⟩, ReplayAction.tick,
    ReplayAction.load 3 none]

theorem playing_at_end : ¬ ∀ actions, Invariants (run actions) := by
  intro h
  have hp := (h reloaded).playing (by decide +kernel)
  exact absurd hp (by decide +kernel)

end NTrade.Ui.ReplayReducer
