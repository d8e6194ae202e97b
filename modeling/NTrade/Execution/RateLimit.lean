import NTrade.Lib.Binary64
import NTrade.Lib.SlidingWindow
import NTrade.Lib.Trace
import Mathlib.Logic.Function.Basic

/-! The rate gate that every request to the broker passes, and the callers that wait at it.
The lock makes each look at the gate one step; callers sleep outside of it. Times are added and subtracted as `fl`
rounds them: `Binary64.round` for floats, `id` for exact arithmetic. -/
namespace NTrade.Execution
open NTrade.Lib

inductive Quota where
  | quote | data | order | nonTrading
  deriving DecidableEq

structure Window where
  span : Rat
  limit : Nat
  span_pos : 0 < span
  limit_pos : 0 < limit

def DEFAULT_WINDOWS : Quota → List Window
  | .quote => [⟨1, 1, by decide, by decide⟩]
  | .data => [⟨1, 5, by decide, by decide⟩, ⟨86400, 100000, by decide, by decide⟩]
  | .order => [⟨1, 10, by decide, by decide⟩, ⟨60, 250, by decide, by decide⟩, ⟨3600, 1000, by decide, by decide⟩,
      ⟨86400, 7000, by decide, by decide⟩]
  | .nonTrading => [⟨1, 20, by decide, by decide⟩]

structure WindowLog where
  window : Window
  stamps : List Rat := []

structure BrokerRateGate where
  history : Quota → List WindowLog
  cooldownUntil : Quota → Rat

namespace BrokerRateGate
variable (fl : Rat → Rat)

def create (windows : Quota → Option (List Window)) : BrokerRateGate where
  history q := ((windows q).getD (DEFAULT_WINDOWS q)).map fun window => { window }
  cooldownUntil _ := 0

def windows (g : BrokerRateGate) (q : Quota) : List Window := (g.history q).map WindowLog.window

def expire (now : Rat) (w : WindowLog) : WindowLog :=
  { w with stamps := SlidingWindow.expire (fl (now - w.window.span)) w.stamps }

/-- The wait until a full window forgets its oldest stamp, if that is the longer one. -/
def waitFor (now wait : Rat) (w : WindowLog) : Rat :=
  match w.stamps with
  | [] => wait
  | oldest :: _ => if w.window.limit ≤ w.stamps.length then max wait (fl (fl (oldest + w.window.span) - now)) else wait

/-- `_compute_wait`: the seconds until a request of the class may go, with the stamps that have
expired dropped. -/
def computeWait (g : BrokerRateGate) (q : Quota) (now : Rat) : Rat × BrokerRateGate :=
  let cooldown := fl (g.cooldownUntil q - now)
  if 0 < cooldown then (cooldown, g)
  else
    let logs := (g.history q).map (expire fl now)
    (logs.foldl (waitFor fl now) 0, { g with history := Function.update g.history q logs })

def stamp (g : BrokerRateGate) (q : Quota) (now : Rat) : BrokerRateGate :=
  { g with
    history := Function.update g.history q ((g.history q).map fun w => { w with stamps := w.stamps ++ [now] }) }

def penalize (g : BrokerRateGate) (q : Quota) (seconds now : Rat) : BrokerRateGate :=
  { g with cooldownUntil := Function.update g.cooldownUntil q (max (g.cooldownUntil q) (fl (now + seconds))) }

end BrokerRateGate

/-- The successive readings of a clock that never goes back, which are not rounded any further. -/
structure Clock (fl : Rat → Rat) where
  read : Nat → Rat
  mono : Monotone read
  rounded : ∀ n, fl (read n) = read n

/-- Where a caller is: outside, about to look at the gate, or asleep after a look. -/
inductive Phase where
  | idle
  | trying (q : Quota)
  | sleeping (q : Quota) (wait : Rat)
  deriving DecidableEq

inductive GateObs (κ : Type) where
  | granted (caller : κ) (q : Quota) (time : Rat)
  /-- A cooldown was set, up to this time. -/
  | penalized (q : Quota) (ends : Rat)

structure GateWorld (κ : Type) where
  gate : BrokerRateGate
  reads : Nat := 0
  phase : κ → Phase := fun _ => .idle
  log : List (GateObs κ) := []

inductive GateMove (κ : Type) where
  | acquire (caller : κ) (q : Quota)
  /-- A caller takes the lock and looks at the gate. -/
  | look (caller : κ)
  | wake (caller : κ)
  | penalize (q : Quota) (seconds : Rat)

namespace GateWorld
variable {κ : Type} [DecidableEq κ] {fl : Rat → Rat} (clock : Clock fl)

/-- One turn of the loop of `acquire`, under the lock: the clock is read to tell the wait, and
once more for the stamp. -/
def look (s : GateWorld κ) (c : κ) (q : Quota) : GateWorld κ :=
  let (wait, gate) := s.gate.computeWait fl q (clock.read s.reads)
  if wait ≤ 0 then
    let now := clock.read (s.reads + 1)
    { gate := gate.stamp q now
      reads := s.reads + 2
      phase := Function.update s.phase c .idle
      log := s.log ++ [.granted c q now] }
  else { s with gate, reads := s.reads + 1, phase := Function.update s.phase c (.sleeping q wait) }

def step (s : GateWorld κ) : GateMove κ → GateWorld κ
  | .acquire c q =>
    match s.phase c with
    | .idle => { s with phase := Function.update s.phase c (.trying q) }
    | _ => s
  | .look c =>
    match s.phase c with
    | .trying q => s.look clock c q
    | _ => s
  | .wake c =>
    match s.phase c with
    | .sleeping q _ => { s with phase := Function.update s.phase c (.trying q) }
    | _ => s
  | .penalize q seconds =>
    let now := clock.read s.reads
    { s with
      gate := s.gate.penalize fl q seconds now
      reads := s.reads + 1
      log := s.log ++ [.penalized q (fl (now + seconds))] }

def run (moves : List (GateMove κ)) (s : GateWorld κ) : GateWorld κ := moves.foldl (step clock) s

def session (windows : Quota → Option (List Window)) (moves : List (GateMove κ)) : GateWorld κ :=
  run clock moves { gate := BrokerRateGate.create windows }

end GateWorld

def GateObs.grant {κ : Type} (q : Quota) : GateObs κ → Option Rat
  | .granted _ q' t => if q' = q then some t else none
  | .penalized _ _ => none

def grants {κ : Type} (q : Quota) (log : List (GateObs κ)) : List Rat := log.filterMap (GateObs.grant q)

/-- A grant comes after every cooldown that was set for its class. -/
def AfterCooldowns {κ : Type} (pre : List (GateObs κ)) (o : GateObs κ) : Prop :=
  ∀ c q t, o = .granted c q t → ∀ u, .penalized q u ∈ pre → u ≤ t

/-- No stamp of a window seems to be a span old before it is one: neither one that would be dropped, nor one of a full
window whose wait would be over. -/
def WindowLog.Timely (fl : Rat → Rat) (now : Rat) (w : WindowLog) : Prop :=
  ∀ t ∈ w.stamps,
    t ≤ fl (now - w.window.span) ∨ w.window.limit ≤ w.stamps.length ∧ fl (t + w.window.span) ≤ now →
      t + w.window.span ≤ now

instance (fl : Rat → Rat) (now : Rat) (w : WindowLog) : Decidable (w.Timely fl now) :=
  inferInstanceAs (Decidable (∀ t ∈ w.stamps,
    t ≤ fl (now - w.window.span) ∨ w.window.limit ≤ w.stamps.length ∧ fl (t + w.window.span) ≤ now →
      t + w.window.span ≤ now))

/-- A caller that is about to look at the gate comes in a cooldown of its class, or finds the windows of the class as
they are in exact arithmetic. -/
def Phase.Timely (fl : Rat → Rat) (g : BrokerRateGate) (now : Rat) : Phase → Prop
  | .trying q => g.cooldownUntil q ≤ now → ∀ w ∈ g.history q, w.Timely fl now
  | .idle | .sleeping _ _ => True

instance (fl : Rat → Rat) (g : BrokerRateGate) (now : Rat) : (phase : Phase) → Decidable (phase.Timely fl g now)
  | .trying q => inferInstanceAs (Decidable (g.cooldownUntil q ≤ now → ∀ w ∈ g.history q, w.Timely fl now))
  | .idle | .sleeping _ _ => isTrue trivial

/-- Rounding misleads no look. -/
def GateWorld.Timely {κ : Type} {fl : Rat → Rat} (clock : Clock fl) (s : GateWorld κ) : GateMove κ → Prop
  | .look c => (s.phase c).Timely fl s.gate (clock.read s.reads)
  | .acquire _ _ | .wake _ | .penalize _ _ => True

instance {κ : Type} {fl : Rat → Rat} (clock : Clock fl) (s : GateWorld κ) : (m : GateMove κ) → Decidable (s.Timely clock m)
  | .look c => inferInstanceAs (Decidable ((s.phase c).Timely fl s.gate (clock.read s.reads)))
  | .acquire _ _ | .wake _ | .penalize _ _ => isTrue trivial

/-- A window after some of its oldest stamps have expired. -/
def Expired (fl : Rat → Rat) (now : Rat) (w w' : WindowLog) : Prop :=
  w'.window = w.window ∧ ∃ expired, w.stamps = expired ++ w'.stamps ∧ ∀ t ∈ expired, t ≤ fl (now - w.window.span)

section Wait
variable {fl : Rat → Rat} {g : BrokerRateGate} {q : Quota} {now : Rat}

theorem le_waitFor (fl : Rat → Rat) (now wait : Rat) (w : WindowLog) : wait ≤ BrokerRateGate.waitFor fl now wait w := by
  rw [BrokerRateGate.waitFor.eq_def]
  split
  · exact le_refl _
  · split
    · exact le_max_left _ _
    · exact le_refl _

theorem le_foldl_waitFor (fl : Rat → Rat) (now : Rat) (logs : List WindowLog) (wait : Rat) :
    wait ≤ logs.foldl (BrokerRateGate.waitFor fl now) wait := by
  induction logs generalizing wait with
  | nil => exact le_refl _
  | cons w logs ih => exact (le_waitFor fl now wait w).trans (ih _)

/-- In exact arithmetic no stamp seems older than it is. -/
theorem timely_exact (now : Rat) (w : WindowLog) : w.Timely id now := by
  rintro t - (h | ⟨-, h⟩)
  · exact le_sub_iff_add_le.mp h
  · exact h

/-- A window that is full makes a caller wait. -/
private theorem lt_limit_of_waitFor (hfl : Binary64.Rounding fl) {wait : Rat} {w : WindowLog}
    (hrounded : ∀ t ∈ w.stamps, fl t = t) (htimely : w.Timely fl now)
    (h : BrokerRateGate.waitFor fl now wait (BrokerRateGate.expire fl now w) ≤ 0) :
    (BrokerRateGate.expire fl now w).stamps.length < (BrokerRateGate.expire fl now w).window.limit := by
  rw [BrokerRateGate.waitFor.eq_def] at h
  split at h
  · next hs =>
    rw [hs]
    exact w.window.limit_pos
  · next oldest rest hs =>
    split at h
    · next hfull =>
      have hmem : oldest ∈ w.stamps := by
        have hkept : oldest ∈ (BrokerRateGate.expire fl now w).stamps := by
          rw [hs]
          exact List.mem_cons_self
        exact (List.dropWhile_suffix _).subset hkept
      have hover : fl (oldest + w.window.span) ≤ now := by
        have hle : fl (fl (oldest + w.window.span) - now) ≤ 0 := (le_max_right _ _).trans h
        by_contra hlt
        exact absurd ((hfl.pos_iff _).mpr (sub_pos.mpr (not_le.mp hlt))) (not_lt.mpr hle)
      have hfull' : w.window.limit ≤ w.stamps.length := hfull.trans (SlidingWindow.length_expire_le _ _)
      have hold : oldest ≤ now - w.window.span := le_sub_iff_add_le.mpr (htimely oldest hmem (.inr ⟨hfull', hover⟩))
      -- such a stamp would have been dropped
      have hdrop := hfl.mono hold
      rw [hrounded oldest hmem] at hdrop
      exact absurd hdrop (not_le.mpr (SlidingWindow.lt_of_head_expire hs))
    · next hl => exact not_le.mp hl

private theorem lt_limit_of_wait (hfl : Binary64.Rounding fl) (logs : List WindowLog) (wait : Rat)
    (hrounded : ∀ w ∈ logs, ∀ t ∈ w.stamps, fl t = t) (htimely : ∀ w ∈ logs, w.Timely fl now)
    (h : (logs.map (BrokerRateGate.expire fl now)).foldl (BrokerRateGate.waitFor fl now) wait ≤ 0) :
    ∀ w ∈ logs.map (BrokerRateGate.expire fl now), w.stamps.length < w.window.limit := by
  induction logs generalizing wait with
  | nil => exact fun w hw => nomatch hw
  | cons v logs ih =>
    intro w hw
    rcases List.mem_cons.mp hw with rfl | hw
    · exact lt_limit_of_waitFor hfl (hrounded v List.mem_cons_self) (htimely v List.mem_cons_self)
        ((le_foldl_waitFor _ _ _ _).trans h)
    · exact ih _ (fun w hw => hrounded w (List.mem_cons_of_mem v hw)) (fun w hw => htimely w (List.mem_cons_of_mem v hw))
        h w hw

theorem expired_refl (w : WindowLog) : Expired fl now w w := ⟨rfl, [], rfl, fun _ ht => nomatch ht⟩

theorem expired_expire (w : WindowLog) : Expired fl now w (BrokerRateGate.expire fl now w) :=
  ⟨rfl, SlidingWindow.exists_expired (fl (now - w.window.span)) w.stamps⟩

/-- What a look at the gate drops, which is nothing in a cooldown. -/
theorem computeWait_expires (q' : Quota) :
    List.Forall₂ (Expired fl now) (g.history q') ((g.computeWait fl q now).2.history q') := by
  have hrefl : List.Forall₂ (Expired fl now) (g.history q') (g.history q') :=
    List.forall₂_same.mpr fun w _ => expired_refl w
  unfold BrokerRateGate.computeWait
  dsimp only
  split
  · exact hrefl
  · by_cases hq : q' = q
    · subst hq
      dsimp only
      rw [Function.update_self, List.forall₂_map_right_iff]
      exact List.forall₂_same.mpr fun w _ => expired_expire w
    · dsimp only
      rw [Function.update_of_ne hq]
      exact hrefl

/-- Only the windows of the class are looked at, and only outside its cooldowns. -/
theorem computeWait_history {q' : Quota} (hfl : Binary64.Rounding fl) (h : q' ≠ q ∨ now < g.cooldownUntil q) :
    (g.computeWait fl q now).2.history q' = g.history q' := by
  unfold BrokerRateGate.computeWait
  dsimp only
  split
  · rfl
  · next hclear =>
    rcases h with hq | hcool
    · exact Function.update_of_ne hq _ _
    · exact absurd ((hfl.pos_iff _).mpr (sub_pos.mpr hcool)) hclear

theorem computeWait_cooldown : (g.computeWait fl q now).2.cooldownUntil = g.cooldownUntil := by
  unfold BrokerRateGate.computeWait
  dsimp only
  split
  · rfl
  · rfl

/-- A caller that need not wait finds no cooldown. -/
theorem computeWait_clear (hfl : Binary64.Rounding fl) (h : (g.computeWait fl q now).1 ≤ 0) : g.cooldownUntil q ≤ now := by
  by_contra hlt
  have hpos := (hfl.pos_iff _).mpr (sub_pos.mpr (not_le.mp hlt))
  rw [BrokerRateGate.computeWait] at h
  dsimp only at h
  rw [if_pos hpos] at h
  exact absurd hpos (not_lt.mpr h)

/-- A caller that need not wait and is not misled finds room in every window. -/
theorem computeWait_free (hfl : Binary64.Rounding fl) (hrounded : ∀ w ∈ g.history q, ∀ t ∈ w.stamps, fl t = t)
    (htimely : g.cooldownUntil q ≤ now → ∀ w ∈ g.history q, w.Timely fl now) (h : (g.computeWait fl q now).1 ≤ 0) :
    ∀ w ∈ (g.computeWait fl q now).2.history q, w.stamps.length < w.window.limit := by
  have hclear := computeWait_clear hfl h
  have hcool : ¬0 < fl (g.cooldownUntil q - now) := by
    rw [hfl.pos_iff]
    exact not_lt.mpr (sub_nonpos.mpr hclear)
  rw [BrokerRateGate.computeWait] at h ⊢
  dsimp only at h ⊢
  rw [if_neg hcool] at h ⊢
  dsimp only
  rw [Function.update_self]
  exact lt_limit_of_wait hfl _ 0 hrounded (htimely hclear) h

end Wait

section Cooldowns
variable {κ : Type} {fl : Rat → Rat} {clock : Clock fl} {s : GateWorld κ}

/-- The gate knows every cooldown that was set, and no grant came before the end of one. -/
structure Cooled (s : GateWorld κ) : Prop where
  cooled : ∀ q u, .penalized q u ∈ s.log → u ≤ s.gate.cooldownUntil q
  after : Trace.Each AfterCooldowns s.log

variable [DecidableEq κ]

theorem Cooled.look (hfl : Binary64.Rounding fl) (h : Cooled s) (c : κ) (q : Quota) : Cooled (s.look clock c q) := by
  rw [GateWorld.look]
  dsimp only
  split
  · next hwait =>
    have hclear : s.gate.cooldownUntil q ≤ clock.read (s.reads + 1) :=
      (computeWait_clear hfl hwait).trans (clock.mono (Nat.le_succ _))
    refine ⟨fun q' u hu => ?_, Trace.each_concat.mpr ⟨h.after, ?_⟩⟩
    · show u ≤ (s.gate.computeWait fl q (clock.read s.reads)).2.cooldownUntil q'
      rw [computeWait_cooldown]
      rcases List.mem_append.mp hu with hu | hu
      · exact h.cooled q' u hu
      · exact nomatch List.mem_singleton.mp hu
    · intro c' q' t ho u hu
      cases ho
      exact (h.cooled q u hu).trans hclear
  · refine ⟨fun q' u hu => ?_, h.after⟩
    show u ≤ (s.gate.computeWait fl q (clock.read s.reads)).2.cooldownUntil q'
    rw [computeWait_cooldown]
    exact h.cooled q' u hu

theorem Cooled.step (hfl : Binary64.Rounding fl) (h : Cooled s) (m : GateMove κ) : Cooled (s.step clock m) := by
  cases m with
  | acquire c q =>
    rw [GateWorld.step]
    split
    · exact ⟨h.cooled, h.after⟩
    · exact h
  | look c =>
    rw [GateWorld.step]
    split
    · exact h.look hfl c _
    · exact h
  | wake c =>
    rw [GateWorld.step]
    split
    · exact ⟨h.cooled, h.after⟩
    · exact h
  | penalize q seconds =>
    refine ⟨fun q' u hu => ?_, Trace.each_concat.mpr ⟨h.after, fun c q t ho => nomatch ho⟩⟩
    show u ≤ Function.update s.gate.cooldownUntil q _ q'
    rcases List.mem_append.mp hu with hu | hu
    · have hle := h.cooled q' u hu
      by_cases hq : q' = q
      · subst hq
        rw [Function.update_self]
        exact hle.trans (le_max_left _ _)
      · rw [Function.update_of_ne hq]
        exact hle
    · cases List.mem_singleton.mp hu
      rw [Function.update_self]
      exact le_max_right _ _

theorem cooled_session (hfl : Binary64.Rounding fl) (clock : Clock fl) (windows : Quota → Option (List Window))
    (moves : List (GateMove κ)) : Cooled (GateWorld.session clock windows moves) := by
  have hrun (s : GateWorld κ) (h : Cooled s) : Cooled (s.run clock moves) := by
    induction moves generalizing s with
    | nil => exact h
    | cons m moves ih => exact ih _ (h.step hfl m)
  exact hrun _ ⟨fun _ _ hu => absurd hu List.not_mem_nil, Trace.Each.nil _⟩

end Cooldowns

structure Gated {κ : Type} {fl : Rat → Rat} (clock : Clock fl) (windows : Quota → List Window) (s : GateWorld κ) : Prop where
  windows : ∀ q, s.gate.windows q = windows q
  rounded : ∀ q, ∀ w ∈ s.gate.history q, ∀ t ∈ w.stamps, fl t = t
  /-- A window has forgotten only what can no longer count. -/
  kept : ∀ q, ∀ w ∈ s.gate.history q, ∃ gone, grants q s.log = gone ++ w.stamps ∧
    ∀ t ∈ gone, ∀ n, s.reads ≤ n → t + w.window.span ≤ clock.read n
  within : ∀ q, ∀ w ∈ s.gate.history q, SlidingWindow.Within w.window.span w.window.limit (grants q s.log)

section Steps
variable {κ : Type} {fl : Rat → Rat} {clock : Clock fl} {windows : Quota → List Window} {s : GateWorld κ}

theorem mem_of_forall₂ {α β : Type} {R : α → β → Prop} {as : List α} {bs : List β} (h : List.Forall₂ R as bs) :
    ∀ b ∈ bs, ∃ a ∈ as, R a b := by
  induction h with
  | nil => exact fun b hb => nomatch hb
  | cons hab _ ih =>
    intro b hb
    rcases List.mem_cons.mp hb with rfl | hb
    · exact ⟨_, List.mem_cons_self, hab⟩
    · obtain ⟨a, ha, hr⟩ := ih b hb
      exact ⟨a, List.mem_cons_of_mem _ ha, hr⟩

private theorem windows_of_forall₂ {now : Rat} {ws ws' : List WindowLog} (h : List.Forall₂ (Expired fl now) ws ws') :
    ws'.map WindowLog.window = ws.map WindowLog.window := by
  induction h with
  | nil => rfl
  | cons hw _ ih => rw [List.map_cons, List.map_cons, hw.1, ih]

/-- A look that drops expired stamps forgets nothing that counts. -/
private theorem Gated.look (gate : BrokerRateGate) (phase : κ → Phase) (h : Gated clock windows s)
    (hw : ∀ q, List.Forall₂ (Expired fl (clock.read s.reads)) (s.gate.history q) (gate.history q))
    (ht : ∀ q, gate.history q = s.gate.history q ∨ ∀ w ∈ s.gate.history q, w.Timely fl (clock.read s.reads)) :
    Gated clock windows { s with gate, reads := s.reads + 1, phase } := by
  refine ⟨fun q => ?_, fun q w' hw' t ht' => ?_, fun q w' hw' => ?_, fun q w' hw' => ?_⟩
  · rw [← h.windows q]
    exact windows_of_forall₂ (hw q)
  · obtain ⟨w, hm, -, expired, hs, -⟩ := mem_of_forall₂ (hw q) w' hw'
    exact h.rounded q w hm t (hs ▸ List.mem_append_right _ ht')
  · have hlater (w : WindowLog) (gone : List Rat) (t : Rat) (ht : t ∈ gone)
        (hold : ∀ t ∈ gone, ∀ n, s.reads ≤ n → t + w.window.span ≤ clock.read n) (n : Nat) (hn : s.reads + 1 ≤ n) :
        t + w.window.span ≤ clock.read n := hold t ht n ((Nat.le_succ _).trans hn)
    rcases ht q with hsame | htimely
    · dsimp only at hw'
      rw [hsame] at hw'
      obtain ⟨gone, hg, hold⟩ := h.kept q w' hw'
      exact ⟨gone, hg, fun t ht n hn => hlater w' gone t ht hold n hn⟩
    · obtain ⟨w, hm, hwin, expired, hs, he⟩ := mem_of_forall₂ (hw q) w' hw'
      obtain ⟨gone, hg, hold⟩ := h.kept q w hm
      refine ⟨gone ++ expired, ?_, fun t ht n hn => ?_⟩
      · rw [List.append_assoc, ← hs]
        exact hg
      · rw [hwin]
        rcases List.mem_append.mp ht with ht | ht
        · exact hlater w gone t ht hold n hn
        · have hspan := htimely w hm t (hs ▸ List.mem_append_left _ ht) (.inl (he t ht))
          exact hspan.trans (clock.mono ((Nat.le_succ _).trans hn))
  · obtain ⟨w, hm, hwin, -⟩ := mem_of_forall₂ (hw q) w' hw'
    rw [hwin]
    exact h.within q w hm

private theorem grants_concat (q : Quota) (log : List (GateObs κ)) (o : GateObs κ) :
    grants q (log ++ [o]) = grants q log ++ (o.grant q).toList := by
  rw [grants, List.filterMap_append]
  cases ho : o.grant q <;> simp [grants, ho]

/-- A grant where every window of the class has room. -/
private theorem Gated.grant {c : κ} {q : Quota} {phase : κ → Phase} (h : Gated clock windows s)
    (hroom : ∀ w ∈ s.gate.history q, w.stamps.length < w.window.limit) :
    Gated clock windows
      { gate := s.gate.stamp q (clock.read s.reads), reads := s.reads + 1, phase
        log := s.log ++ [GateObs.granted c q (clock.read s.reads)] } := by
  have hself : grants q (s.log ++ [GateObs.granted c q (clock.read s.reads)]) = grants q s.log ++ [clock.read s.reads] := by
    rw [grants_concat, GateObs.grant, if_pos rfl]
    rfl
  have hother : ∀ q', q' ≠ q → grants q' (s.log ++ [GateObs.granted c q (clock.read s.reads)]) = grants q' s.log := by
    intro q' hq
    rw [grants_concat, GateObs.grant, if_neg (Ne.symm hq)]
    exact List.append_nil _
  have hhist : ∀ q', q' ≠ q → (s.gate.stamp q (clock.read s.reads)).history q' = s.gate.history q' :=
    fun q' hq => Function.update_of_ne hq _ _
  have hnew : (s.gate.stamp q (clock.read s.reads)).history q =
      (s.gate.history q).map fun w => { w with stamps := w.stamps ++ [clock.read s.reads] } := Function.update_self _ _ _
  refine ⟨fun q' => ?_, fun q' w' hw' t ht => ?_, fun q' w' hw' => ?_, fun q' w' hw' => ?_⟩
  · rw [← h.windows q', BrokerRateGate.windows]
    by_cases hq : q' = q
    · subst hq
      rw [hnew, List.map_map]
      rfl
    · rw [hhist q' hq]
      rfl
  · by_cases hq : q' = q
    · subst hq
      dsimp only at hw'
      rw [hnew] at hw'
      obtain ⟨w, hw, rfl⟩ := List.mem_map.mp hw'
      rcases List.mem_append.mp ht with ht | ht
      · exact h.rounded q' w hw t ht
      · rw [List.mem_singleton.mp ht]
        exact clock.rounded _
    · dsimp only at hw'
      rw [hhist q' hq] at hw'
      exact h.rounded q' w' hw' t ht
  · by_cases hq : q' = q
    · subst hq
      dsimp only at hw'
      rw [hnew] at hw'
      obtain ⟨w, hw, rfl⟩ := List.mem_map.mp hw'
      obtain ⟨gone, hg, hold⟩ := h.kept q' w hw
      refine ⟨gone, ?_, fun t ht n hn => hold t ht n ((Nat.le_succ _).trans hn)⟩
      rw [hself, hg, List.append_assoc]
    · dsimp only at hw'
      rw [hhist q' hq] at hw'
      obtain ⟨gone, hg, hold⟩ := h.kept q' w' hw'
      exact ⟨gone, (hother q' hq).trans hg, fun t ht n hn => hold t ht n ((Nat.le_succ _).trans hn)⟩
  · by_cases hq : q' = q
    · subst hq
      dsimp only at hw'
      rw [hnew] at hw'
      obtain ⟨w, hw, rfl⟩ := List.mem_map.mp hw'
      obtain ⟨gone, hg, hold⟩ := h.kept q' w hw
      have hwithin := h.within q' w hw
      dsimp only
      rw [hself, hg]
      rw [hg] at hwithin
      exact hwithin.concat (fun t ht => hold t ht _ le_rfl) (hroom w hw)
    · dsimp only at hw'
      rw [hhist q' hq] at hw'
      rw [hother q' hq]
      exact h.within q' w' hw'

theorem Gated.create (clock : Clock fl) (windows : Quota → Option (List Window)) :
    Gated clock (BrokerRateGate.create windows).windows
      ({ gate := BrokerRateGate.create windows } : GateWorld κ) where
  windows _ := rfl
  rounded q w hw t ht := by
    obtain ⟨window, -, rfl⟩ := List.mem_map.mp hw
    exact nomatch ht
  kept q w hw := by
    obtain ⟨window, -, rfl⟩ := List.mem_map.mp hw
    exact ⟨[], rfl, fun t ht => nomatch ht⟩
  within _ _ _ := SlidingWindow.Within.nil

variable [DecidableEq κ]

theorem Gated.step (hfl : Binary64.Rounding fl) (h : Gated clock windows s) (m : GateMove κ) (htimely : s.Timely clock m) :
    Gated clock windows (s.step clock m) := by
  have hphase (phase : κ → Phase) : Gated clock windows { s with phase } := ⟨h.windows, h.rounded, h.kept, h.within⟩
  cases m with
  | acquire c q =>
    rw [GateWorld.step]
    split
    · exact hphase _
    · exact h
  | look c =>
    rw [GateWorld.step]
    rw [GateWorld.Timely] at htimely
    split
    · next q htrying =>
      rw [htrying, Phase.Timely] at htimely
      have hclass (q' : Quota) : (s.gate.computeWait fl q (clock.read s.reads)).2.history q' = s.gate.history q' ∨
          ∀ w ∈ s.gate.history q', w.Timely fl (clock.read s.reads) := by
        by_cases hq : q' = q
        · subst hq
          rcases le_or_gt (s.gate.cooldownUntil q') (clock.read s.reads) with hclear | hcool
          · exact .inr (htimely hclear)
          · exact .inl (computeWait_history hfl (.inr hcool))
        · exact .inl (computeWait_history hfl (.inl hq))
      have hlook (phase : κ → Phase) := h.look (s.gate.computeWait fl q (clock.read s.reads)).2 phase
        (fun q' => computeWait_expires q') hclass
      rw [GateWorld.look]
      dsimp only
      split
      · next hw => exact (hlook s.phase).grant (computeWait_free hfl (h.rounded q) htimely hw)
      · exact hlook _
    · exact h
  | wake c =>
    rw [GateWorld.step]
    split
    · exact hphase _
    · exact h
  | penalize q seconds =>
    have hg (q' : Quota) : grants q' (s.log ++ [GateObs.penalized q (fl (clock.read s.reads + seconds))]) = grants q' s.log := by
      rw [grants_concat, GateObs.grant]
      exact List.append_nil _
    refine ⟨h.windows, h.rounded, fun q' w hw => ?_, fun q' w hw => ?_⟩
    · obtain ⟨gone, hgone, hold⟩ := h.kept q' w hw
      exact ⟨gone, (hg q').trans hgone, fun t ht n hn => hold t ht n ((Nat.le_succ _).trans hn)⟩
    · show SlidingWindow.Within _ _ (grants q' (s.log ++ _))
      rw [hg]
      exact h.within q' w hw

theorem gated_session (hfl : Binary64.Rounding fl) (clock : Clock fl) (windows : Quota → Option (List Window))
    (moves : List (GateMove κ))
    (h : Trace.Each (fun pre m => (GateWorld.session clock windows pre).Timely clock m) moves) :
    Gated clock (BrokerRateGate.create windows).windows (GateWorld.session clock windows moves) := by
  induction moves using List.reverseRecOn with
  | nil => exact Gated.create clock windows
  | append_singleton moves m ih =>
    obtain ⟨hmoves, hm⟩ := Trace.each_concat.mp h
    rw [GateWorld.session, GateWorld.run, List.foldl_append]
    exact (ih hmoves).step hfl m hm

/-- Whatever the callers do and whenever they look, no request goes before the end of a cooldown that was set for its
class, and every window of a class holds at every time as long as rounding misleads no look. -/
theorem grants_within_windows (clock : Clock Binary64.round) (windows : Quota → Option (List Window))
    (moves : List (GateMove κ)) :
    Trace.Each AfterCooldowns (GateWorld.session clock windows moves).log ∧
      (Trace.Each (fun pre m => (GateWorld.session clock windows pre).Timely clock m) moves →
        ∀ q, ∀ w ∈ (BrokerRateGate.create windows).windows q,
          SlidingWindow.Within w.span w.limit (grants q (GateWorld.session clock windows moves).log)) := by
  refine ⟨(cooled_session Binary64.rounding_round clock windows moves).after, fun htimely q window hw => ?_⟩
  have h := gated_session Binary64.rounding_round clock windows moves htimely
  rw [← h.windows q] at hw
  obtain ⟨w, hm, rfl⟩ := List.mem_map.mp hw
  exact h.within q w hm

def twoTimes (t t' : Rat) (h : t ≤ t') : Clock Binary64.round where
  read n := if n < 2 then Binary64.round t else Binary64.round t'
  mono := by
    intro m n hmn
    dsimp only
    split_ifs
    · exact le_refl _
    · exact Binary64.round_mono h
    · omega
    · exact le_refl _
  rounded n := by
    split_ifs
    · exact Binary64.round_round t
    · exact Binary64.round_round t'

def threeQuotes : List (GateMove (Fin 3)) :=
  [.acquire 0 .quote, .look 0, .acquire 1 .quote, .look 1, .acquire 2 .quote, .look 2]

/-- At 0 and at 1 a quote is granted, and the third caller has to wait. -/
theorem grants_within_windows_quotes :
    let s := GateWorld.session (twoTimes 0 1 zero_le_one) (fun _ => none) threeQuotes
    grants .quote s.log = [0, 1] ∧ SlidingWindow.Within 1 1 (grants .quote s.log) := by
  have htimely : Trace.Each (fun pre m =>
      (GateWorld.session (twoTimes 0 1 zero_le_one) (fun _ => none) pre).Timely (twoTimes 0 1 zero_le_one) m) threeQuotes := by
    decide +kernel
  exact ⟨by decide +kernel, (grants_within_windows (twoTimes 0 1 zero_le_one) (fun _ => none) threeQuotes).2 htimely .quote
    ⟨1, 1, by decide, by decide⟩ List.mem_cons_self⟩

/-- The grant of 0.4 is not dropped at 1.4, from which it is less than 1 away, but 0.4 + 1 is 1.4 in floats: every quote
that is wanted at that time is granted. -/
theorem quotes_granted_at_once :
    let s := GateWorld.session (twoTimes (2 / 5) (7 / 5) (by decide +kernel)) (fun _ => none) threeQuotes
    ¬∀ q, ∀ w ∈ (BrokerRateGate.create fun _ => none).windows q, SlidingWindow.Within w.span w.limit (grants q s.log) := by
  intro s h
  have hgrants : grants .quote s.log = [Binary64.round (2 / 5), Binary64.round (7 / 5), Binary64.round (7 / 5)] := by
    decide +kernel
  have hwithin := (h .quote ⟨1, 1, by decide, by decide⟩ List.mem_cons_self (Binary64.round (7 / 5))).1
  rw [hgrants] at hwithin
  revert hwithin
  decide +kernel

end Steps

end NTrade.Execution
