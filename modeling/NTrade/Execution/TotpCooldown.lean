import NTrade.Domain.Order

/-! The cooldown between logins with a one-time password. Its state is a file that all processes
share; each operation of the guard holds the file's lock. -/
namespace NTrade.Execution
open NTrade.Domain

def SEBI_TOTP_COOLDOWN_S : Rat := 120

structure CooldownFile where
  lastAttemptAt : Option Rat := none
  lastSuccessAt : Option Rat := none
  rateLimitedAt : Option Rat := none
  deriving DecidableEq

structure TotpCooldownGuard where
  cooldownSeconds : Rat
  lastAttemptAt : Option Rat := none
  lastSuccessAt : Option Rat := none

/-- The error of a refused attempt, with the seconds to wait. -/
structure TotpRateLimitError where
  remainingSeconds : Rat

namespace TotpCooldownGuard

def coerceWallClock (value : Option Rat) : Option Rat := value.filter (1000000000 ≤ ·)

def loadState (file : CooldownFile) (g : TotpCooldownGuard) : TotpCooldownGuard :=
  { g with
    lastAttemptAt := (coerceWallClock file.lastAttemptAt).or (coerceWallClock file.rateLimitedAt)
    lastSuccessAt := coerceWallClock file.lastSuccessAt }

def persistState (g : TotpCooldownGuard) : CooldownFile where
  lastAttemptAt := g.lastAttemptAt
  lastSuccessAt := g.lastSuccessAt

def remaining (now : Rat) (g : TotpCooldownGuard) : Rat :=
  match g.lastAttemptAt with
  | none => 0
  | some attempt => max 0 (g.cooldownSeconds - (now - attempt))

def new (cooldownSeconds : Option Rat) (file : CooldownFile) : TotpCooldownGuard :=
  loadState file { cooldownSeconds := orElse (cooldownSeconds.getD 0) SEBI_TOTP_COOLDOWN_S }

def checkAllowed (file : CooldownFile) (now : Rat) (g : TotpCooldownGuard) : Except TotpRateLimitError Unit :=
  let remaining := (g.loadState file).remaining now
  if 0 < remaining then .error ⟨remaining⟩ else .ok ()

/-- Check the cooldown and reserve the next attempt; the clock is read twice. -/
def acquireAttempt (file : CooldownFile) (now reservedAt : Rat) (g : TotpCooldownGuard) :
    Except TotpRateLimitError CooldownFile :=
  let g := g.loadState file
  let remaining := g.remaining now
  if 0 < remaining then .error ⟨remaining⟩ else .ok { g with lastAttemptAt := some reservedAt }.persistState

def recordSuccess (file : CooldownFile) (now : Rat) (g : TotpCooldownGuard) : CooldownFile :=
  { g.loadState file with lastAttemptAt := some now, lastSuccessAt := some now }.persistState

end TotpCooldownGuard

end NTrade.Execution
