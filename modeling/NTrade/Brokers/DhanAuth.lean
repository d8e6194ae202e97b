import NTrade.Execution.TotpCooldown
import Mathlib.Tactic.Linarith

/-! Logins of any number of processes that share one cooldown file. The check of the cooldown, the
attempt and its record are separate steps, and other processes may come between them. -/
namespace NTrade.Brokers
open NTrade.Execution

def TOTP_ATTEMPT_COOLDOWN_S : Rat := SEBI_TOTP_COOLDOWN_S

/-- How the files answer a process: as they should, with no guard to be had, or with errors. -/
inductive FileAccess where
  | ok | noGuard | broken
  deriving DecidableEq

def totpGuard (file : CooldownFile) : TotpCooldownGuard := .new (some TOTP_ATTEMPT_COOLDOWN_S) file

def lastAttempt (file : CooldownFile) : Option Rat := (totpGuard file).lastAttemptAt

/-- Whether the cooldown keeps a login from the broker. Where the file cannot be used it does not. -/
def cooldownActive (access : FileAccess) (file : CooldownFile) (now : Rat) : Bool :=
  match access with
  | .ok =>
    match (totpGuard file).checkAllowed file now with
    | .ok _ => false
    | .error _ => true
  | .noGuard | .broken => false

/-- The file after a failed attempt; one that finds the cooldown active is not recorded. -/
def armCooldown (access : FileAccess) (file : CooldownFile) (now reservedAt : Rat) : CooldownFile :=
  match access with
  | .ok =>
    match (totpGuard file).acquireAttempt file now reservedAt with
    | .ok file => file
    | .error _ => file
  | .noGuard => { lastAttemptAt := some now, lastSuccessAt := some (file.lastSuccessAt.getD 0) }
  | .broken => file

/-- The file after a login that worked; errors are swallowed. -/
def persistShared (access : FileAccess) (file : CooldownFile) (now : Rat) : CooldownFile :=
  match access with
  | .ok => (totpGuard file).recordSuccess file now
  | .noGuard => { lastAttemptAt := some now, lastSuccessAt := some now }
  | .broken => file

section File
variable {file : CooldownFile} {access : FileAccess} {now : Rat}

theorem cooldownActive_ok :
    cooldownActive .ok file now = true ↔ ∃ last, lastAttempt file = some last ∧ now < last + TOTP_ATTEMPT_COOLDOWN_S := by
  have hguard : (totpGuard file).loadState file = totpGuard file := rfl
  have hseconds : (totpGuard file).cooldownSeconds = TOTP_ATTEMPT_COOLDOWN_S := rfl
  rw [cooldownActive, TotpCooldownGuard.checkAllowed, hguard, TotpCooldownGuard.remaining, hseconds, lastAttempt]
  cases (totpGuard file).lastAttemptAt with
  | none => exact iff_of_false nofun fun ⟨last, h, _⟩ => nomatch h
  | some last =>
    by_cases hlt : now < last + TOTP_ATTEMPT_COOLDOWN_S
    · have hpos : 0 < max 0 (TOTP_ATTEMPT_COOLDOWN_S - (now - last)) := lt_max_of_lt_right (by linarith)
      dsimp only
      rw [if_pos hpos]
      exact iff_of_true rfl ⟨last, rfl, hlt⟩
    · have hzero : ¬ 0 < max 0 (TOTP_ATTEMPT_COOLDOWN_S - (now - last)) :=
        not_lt.mpr (max_le le_rfl (by linarith))
      dsimp only
      rw [if_neg hzero]
      exact iff_of_false nofun fun ⟨_, h, h'⟩ => hlt (Option.some.inj h ▸ h')

private theorem lastAttempt_of_set {t : Rat} (h : file.lastAttemptAt = some t) (ht : 1000000000 ≤ t) :
    lastAttempt file = some t := by
  have hcoerce : TotpCooldownGuard.coerceWallClock (some t) = some t := by
    rw [TotpCooldownGuard.coerceWallClock, Option.filter_some, if_pos (by simpa using ht)]
  rw [lastAttempt, totpGuard, TotpCooldownGuard.new, TotpCooldownGuard.loadState, h, hcoerce, Option.some_or]

/-- A login that works is the last attempt from then on. -/
theorem lastAttempt_persistShared (ha : access ≠ .broken) (hnow : 1000000000 ≤ now) :
    lastAttempt (persistShared access file now) = some now := by
  cases access with
  | ok => exact lastAttempt_of_set rfl hnow
  | noGuard => exact lastAttempt_of_set rfl hnow
  | broken => exact absurd rfl ha

/-- A failed one is, or an attempt that the cooldown still counts. -/
theorem lastAttempt_armCooldown (file : CooldownFile) {reservedAt : Rat} (ha : access ≠ .broken) (hnow : 1000000000 ≤ now)
    (hle : now ≤ reservedAt) :
    (∃ last, lastAttempt (armCooldown access file now reservedAt) = some last ∧ now ≤ last) ∨
      (access = .ok ∧ cooldownActive .ok file now = true ∧ armCooldown access file now reservedAt = file) := by
  cases access with
  | ok =>
    rw [cooldownActive, armCooldown, TotpCooldownGuard.checkAllowed, TotpCooldownGuard.acquireAttempt]
    by_cases hr : 0 < ((totpGuard file).loadState file).remaining now
    · rw [if_pos hr, if_pos hr]
      exact .inr ⟨rfl, rfl, rfl⟩
    · rw [if_neg hr]
      exact .inl ⟨reservedAt, lastAttempt_of_set rfl (hnow.trans hle), hle⟩
  | noGuard => exact .inl ⟨now, lastAttempt_of_set rfl hnow, le_rfl⟩
  | broken => exact absurd rfl ha

end File

inductive Phase where
  | idle
  /-- The cooldown let it pass. -/
  | allowed
  /-- Its attempt is at the broker since `t`, and not on record yet. -/
  | sent (t : Rat)
  deriving DecidableEq

structure Logins where
  file : CooldownFile := {}
  phase : Nat → Phase := fun _ => .idle
  mints : List Rat := []

inductive LoginMove where
  /-- A token from the store or the environment works and is promoted; nothing is sent. -/
  | promote (p : Nat) (access : FileAccess) (now : Rat)
  | check (p : Nat) (access : FileAccess) (now : Rat)
  | mint (p : Nat) (now : Rat)
  /-- The attempt raised, or its session is dead. -/
  | failed (p : Nat) (access : FileAccess) (now reservedAt : Rat)
  | succeeded (p : Nat) (access : FileAccess) (now : Rat)
  | crash (p : Nat)

def LoginMove.readings : LoginMove → List Rat
  | .promote _ _ now | .check _ _ now | .mint _ now | .succeeded _ _ now => [now]
  | .failed _ _ now reservedAt => [now, reservedAt]
  | .crash _ => []

def LoginMove.process : LoginMove → Nat
  | .promote p _ _ | .check p _ _ | .mint p _ | .failed p _ _ _ | .succeeded p _ _ | .crash p => p

namespace Logins

def enter (p : Nat) (phase : Phase) (s : Logins) : Logins := { s with phase := Function.update s.phase p phase }

/-- One step of `get_tradehull` in one process; a step that is not its next one does nothing. -/
def step (s : Logins) : LoginMove → Logins
  | .promote p access now =>
    if s.phase p = .idle then { s with file := persistShared access s.file now } else s
  | .check p access now =>
    if s.phase p = .idle ∧ cooldownActive access s.file now = false then s.enter p .allowed else s
  | .mint p now =>
    if s.phase p = .allowed then { s with mints := s.mints ++ [now] }.enter p (.sent now) else s
  | .failed p access now reservedAt =>
    match s.phase p with
    | .sent _ => { s with file := armCooldown access s.file now reservedAt }.enter p .idle
    | _ => s
  | .succeeded p access now =>
    match s.phase p with
    | .sent _ => { s with file := persistShared access s.file now }.enter p .idle
    | _ => s
  | .crash p => s.enter p .idle

def run (s : Logins) (moves : List LoginMove) : Logins := moves.foldl step s

/-- The move neither lets a second process pass nor loses an attempt: a process passes the check
while no other is in a login and the cooldown is over, and an attempt that was sent is recorded
before its process ends, not left to an older record that is still active. -/
def Orderly (s : Logins) : LoginMove → Prop
  | .promote _ _ _ | .mint _ _ => True
  | .check p access now => s.phase p = .idle → cooldownActive access s.file now = false →
    (∀ q, s.phase q = .idle) ∧ cooldownActive .ok s.file now = false
  | .failed p access now _ => ∀ t, s.phase p = .sent t → access ≠ .broken ∧
    (access = .ok → cooldownActive .ok s.file now = true → ∃ last, lastAttempt s.file = some last ∧ t ≤ last)
  | .succeeded p access _ => ∀ t, s.phase p = .sent t → access ≠ .broken
  | .crash p => ∀ t, s.phase p ≠ .sent t

def OrderlyRun : Logins → List LoginMove → Prop
  | _, [] => True
  | s, m :: moves => s.Orderly m ∧ OrderlyRun (s.step m) moves

end Logins

/-- The readings of a wall clock that does not go back, none from before it was set. -/
structure WallClock (readings : List Rat) : Prop where
  monotone : readings.Pairwise (· ≤ ·)
  set : ∀ t ∈ readings, 1000000000 ≤ t

/-- The attempts are pairwise a cooldown apart. -/
def Spaced (mints : List Rat) : Prop := mints.Pairwise fun a b => a + TOTP_ATTEMPT_COOLDOWN_S ≤ b

namespace Logins
variable {s : Logins} {later rest : List Rat}

/-- Attempts are spaced and on record, apart from that of the one process that is in a login;
`later` are the readings that the clock is still to give. -/
private structure Guarded (s : Logins) (later : List Rat) : Prop where
  spaced : Spaced s.mints
  alone : ∀ p q, s.phase p ≠ .idle → s.phase q ≠ .idle → p = q
  past : ∀ m ∈ s.mints, ∀ t ∈ later, m ≤ t
  allowed : ∀ p, s.phase p = .allowed → ∀ m ∈ s.mints, ∀ t ∈ later, m + TOTP_ATTEMPT_COOLDOWN_S ≤ t
  sent : ∀ p t, s.phase p = .sent t → ∀ m ∈ s.mints, m ≤ t
  recorded : (∀ p t, s.phase p ≠ .sent t) → ∀ m ∈ s.mints, ∃ last, lastAttempt s.file = some last ∧ m ≤ last

private theorem Guarded.mono (h : Guarded s later) (hsub : ∀ t ∈ rest, t ∈ later) : Guarded s rest :=
  { h with
    past := fun m hm t ht => h.past m hm t (hsub t ht)
    allowed := fun p hp m hm t ht => h.allowed p hp m hm t (hsub t ht) }

private theorem phase_enter (p q : Nat) (phase : Phase) (s : Logins) :
    (s.enter p phase).phase q = if q = p then phase else s.phase q := Function.update_apply ..

/-- A process moves alone. -/
theorem phase_step_of_ne (m : LoginMove) {q : Nat} (h : q ≠ m.process) : (s.step m).phase q = s.phase q := by
  have henter (phase : Phase) (s : Logins) : (s.enter m.process phase).phase q = s.phase q := by
    rw [phase_enter, if_neg h]
  cases m with
  | promote p access now =>
    rw [Logins.step]
    split <;> rfl
  | check p access now =>
    rw [Logins.step]
    split
    · exact henter _ _
    · rfl
  | mint p now =>
    rw [Logins.step]
    split
    · exact henter _ _
    · rfl
  | failed p access now reservedAt =>
    rw [Logins.step]
    split
    · exact henter _ _
    · rfl
  | succeeded p access now =>
    rw [Logins.step]
    split
    · exact henter _ _
    · rfl
  | crash p => exact henter _ _

/-- A process is back from its login, and every attempt is on record. -/
private theorem Guarded.leave (h : Guarded s later) {p : Nat} {file : CooldownFile}
    (hr : ∀ m ∈ s.mints, ∃ last, lastAttempt file = some last ∧ m ≤ last) :
    Guarded ({ s with file }.enter p .idle) later := by
  have hphase (q : Nat) (hq : ({ s with file }.enter p .idle).phase q ≠ .idle) :
      ({ s with file }.enter p .idle).phase q = s.phase q := by
    rw [phase_enter] at hq ⊢
    split
    · next he => exact absurd (if_pos he) hq
    · rfl
  refine ⟨h.spaced, fun q r hq hr => ?_, h.past, fun q hq => ?_, fun q t hq => ?_, fun _ => hr⟩
  · exact h.alone q r (hphase q hq ▸ hq) (hphase r hr ▸ hr)
  · exact h.allowed q ((hphase q (hq ▸ nofun)).symm.trans hq)
  · exact h.sent q t ((hphase q (hq ▸ nofun)).symm.trans hq)

/-- The file takes a later record. -/
private theorem Guarded.record (h : Guarded s later) {file : CooldownFile}
    (hr : ∀ m ∈ s.mints, ∃ last, lastAttempt file = some last ∧ m ≤ last) : Guarded { s with file } later :=
  ⟨h.spaced, h.alone, h.past, h.allowed, h.sent, fun _ => hr⟩

private theorem Guarded.check (h : Guarded s later) {p : Nat} {now : Rat} (hidle : ∀ q, s.phase q = .idle)
    (hover : cooldownActive .ok s.file now = false) (hnow : ∀ t ∈ later, now ≤ t) : Guarded (s.enter p .allowed) later := by
  refine ⟨h.spaced, fun q r hq hr => ?_, h.past, fun q _ m hm t ht => ?_, fun q t hq => ?_, fun _ => ?_⟩
  · rw [phase_enter, hidle] at hq hr
    exact (of_not_not fun hn => hq (if_neg hn)).trans (of_not_not fun hn => hr (if_neg hn)).symm
  · obtain ⟨last, hlast, hle⟩ := h.recorded (fun q t hq => by cases (hidle q).symm.trans hq) m hm
    have hcool : ¬ now < last + TOTP_ATTEMPT_COOLDOWN_S := by
      intro hlt
      rw [cooldownActive_ok.mpr ⟨last, hlast, hlt⟩] at hover
      cases hover
    have := hnow t ht
    linarith
  · rw [phase_enter, hidle] at hq
    split at hq
    · cases hq
    · cases hq
  · exact h.recorded fun q t hq => by cases (hidle q).symm.trans hq

private theorem Guarded.mint {now : Rat} (h : Guarded s (now :: later)) {p : Nat} (hp : s.phase p = .allowed)
    (hnow : ∀ t ∈ later, now ≤ t) : Guarded ({ s with mints := s.mints ++ [now] }.enter p (.sent now)) later := by
  have honly (q : Nat) (hq : ({ s with mints := s.mints ++ [now] }.enter p (.sent now)).phase q ≠ .idle) : q = p := by
    rw [phase_enter] at hq
    by_contra hn
    rw [if_neg hn] at hq
    exact hn (h.alone q p hq (hp ▸ nofun))
  have hself : ({ s with mints := s.mints ++ [now] }.enter p (.sent now)).phase p = .sent now := by
    rw [phase_enter, if_pos rfl]
  have hle : ∀ m ∈ s.mints ++ [now], m ≤ now := by
    refine List.forall_mem_append.mpr ⟨fun m hm => h.past m hm now List.mem_cons_self, ?_⟩
    exact List.forall_mem_singleton.mpr le_rfl
  refine ⟨?_, fun q r hq hr => (honly q hq).trans (honly r hr).symm, fun m hm t ht => (hle m hm).trans (hnow t ht), ?_, ?_, ?_⟩
  · refine List.pairwise_append.mpr ⟨h.spaced, List.pairwise_singleton _ _, fun m hm t ht => ?_⟩
    rw [List.mem_singleton.mp ht]
    exact h.allowed p hp m hm now List.mem_cons_self
  · intro q hq
    obtain rfl := honly q (hq ▸ nofun)
    cases hself.symm.trans hq
  · intro q t hq
    obtain rfl := honly q (hq ▸ nofun)
    cases hself.symm.trans hq
    exact hle
  · exact fun hnone => absurd hself (hnone p now)

/-- One orderly move. -/
private theorem Guarded.step {m : LoginMove} (h : Guarded s (m.readings ++ rest)) (hm : s.Orderly m)
    (hclock : WallClock (m.readings ++ rest)) : Guarded (s.step m) rest := by
  have hrest : Guarded s rest := h.mono fun t ht => List.mem_append_right _ ht
  cases m with
  | promote p access now =>
    obtain ⟨hnow, -⟩ := List.forall_mem_cons.mp hclock.set
    rw [Logins.step]
    split
    · by_cases hb : access = .broken
      · rw [hb]
        exact hrest
      · exact hrest.record fun m hm =>
          ⟨now, lastAttempt_persistShared hb hnow, h.past m hm now List.mem_cons_self⟩
    · exact hrest
  | check p access now =>
    rw [Logins.step]
    split
    · next hp =>
      obtain ⟨hidle, hover⟩ := hm hp.1 hp.2
      exact hrest.check hidle hover (List.pairwise_cons.mp hclock.monotone).1
    · exact hrest
  | mint p now =>
    rw [Logins.step]
    split
    · next hp => exact h.mint hp (List.pairwise_cons.mp hclock.monotone).1
    · exact hrest
  | failed p access now reservedAt =>
    rw [Logins.step]
    split
    · next t hp =>
      obtain ⟨ha, hold⟩ := hm t hp
      obtain ⟨hnow, -⟩ := List.forall_mem_cons.mp hclock.set
      have hle := (List.pairwise_cons.mp hclock.monotone).1 reservedAt List.mem_cons_self
      refine hrest.leave fun m hmem => ?_
      rcases lastAttempt_armCooldown s.file ha hnow hle with ⟨last, hlast, hge⟩ | ⟨hok, hactive, hfile⟩
      · exact ⟨last, hlast, (h.past m hmem now List.mem_cons_self).trans hge⟩
      · obtain ⟨last, hlast, hge⟩ := hold hok hactive
        rw [hfile]
        exact ⟨last, hlast, (h.sent p t hp m hmem).trans hge⟩
    · exact hrest
  | succeeded p access now =>
    rw [Logins.step]
    split
    · next t hp =>
      obtain ⟨hnow, -⟩ := List.forall_mem_cons.mp hclock.set
      exact hrest.leave fun m hmem =>
        ⟨now, lastAttempt_persistShared (hm t hp) hnow, h.past m hmem now List.mem_cons_self⟩
    · exact hrest
  | crash p =>
    rw [Logins.step]
    cases hp : s.phase p with
    | idle =>
      have hsame : s.enter p .idle = s := by rw [enter, ← hp, Function.update_eq_self]
      rw [hsame]
      exact hrest
    | allowed =>
      have hnone (q : Nat) (t : Rat) : s.phase q ≠ .sent t := by
        intro hq
        obtain rfl := h.alone p q (hp ▸ nofun) (hq ▸ nofun)
        cases hp.symm.trans hq
      exact hrest.leave (hrest.recorded hnone)
    | sent t => exact absurd hp (hm t)

private theorem Guarded.run (moves : List LoginMove) (h : Guarded s (moves.flatMap LoginMove.readings))
    (hm : s.OrderlyRun moves) (hclock : WallClock (moves.flatMap LoginMove.readings)) : Spaced (s.run moves).mints := by
  induction moves generalizing s with
  | nil => exact h.spaced
  | cons m moves ih =>
    rw [List.flatMap_cons] at h hclock
    refine ih (h.step hm.1 hclock) hm.2 ⟨?_, fun t ht => hclock.set t (List.mem_append_right _ ht)⟩
    exact (List.pairwise_append.mp hclock.monotone).2.1

end Logins

/-- Where every move is orderly, any two attempts sent to the broker are a cooldown apart. -/
theorem mints_spaced (file : CooldownFile) (moves : List LoginMove)
    (hclock : WallClock (moves.flatMap LoginMove.readings)) (hm : Logins.OrderlyRun { file } moves) :
    Spaced (Logins.run { file } moves).mints := by
  refine Logins.Guarded.run moves ⟨List.Pairwise.nil, ?_, nofun, nofun, nofun, nofun⟩ hm hclock
  exact fun p q hp => absurd rfl hp

def waitsItsTurn : List LoginMove :=
  [.check 0 .ok 1700000000, .mint 0 1700000001, .failed 0 .ok 1700000002 1700000002, .check 1 .ok 1700000060,
    .check 1 .ok 1700000122, .mint 1 1700000123, .succeeded 1 .ok 1700000124]

theorem waitsItsTurn_spaced : Spaced (Logins.run {} waitsItsTurn).mints := by
  have hclock : WallClock (waitsItsTurn.flatMap LoginMove.readings) := ⟨by decide +kernel, by decide +kernel⟩
  have hfirst : cooldownActive .ok {} 1700000000 = false := by decide +kernel
  refine mints_spaced {} waitsItsTurn hclock ⟨fun _ _ => ⟨fun _ => rfl, hfirst⟩, trivial, fun t _ => ⟨nofun, fun _ h => ?_⟩,
    fun _ h => ?_, fun _ _ => ⟨fun q => ?_, by decide +kernel⟩, trivial, fun t _ => nofun, trivial⟩
  · exact absurd h (by decide +kernel)
  · exact absurd h (by decide +kernel)
  · match q with
    | 0 => decide +kernel
    | 1 => decide +kernel
    | q + 2 =>
      rw [Logins.phase_step_of_ne, Logins.phase_step_of_ne, Logins.phase_step_of_ne, Logins.phase_step_of_ne]
      all_goals simp [LoginMove.process]

def bothPass : List LoginMove :=
  [.check 0 .ok 1700000000, .check 1 .ok 1700000000, .mint 0 1700000000, .mint 1 1700000000]

theorem bothPass_not_spaced :
    ¬(WallClock (bothPass.flatMap LoginMove.readings) → Spaced (Logins.run {} bothPass).mints) := by
  intro h
  have hs := h ⟨by decide +kernel, by decide +kernel⟩
  have hm : (Logins.run {} bothPass).mints = [1700000000, 1700000000] := by decide +kernel
  rw [hm, Spaced] at hs
  revert hs
  decide +kernel

end NTrade.Brokers
