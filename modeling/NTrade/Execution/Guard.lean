import NTrade.Lib.Dict
import Mathlib.Algebra.Order.Ring.Rat

/-! The idempotency guard in front of order placement and the circuit breaker in front
of the broker. Readings of the monotonic clock are arguments. -/
namespace NTrade.Execution
open NTrade.Lib

structure MemoryIdempotencyGuard (κ ρ : Type*) where
  reserved : List κ := []
  completed : Dict κ ρ := Dict.empty
  insertionOrder : List κ := []
  maxEntries : Nat := 50000

namespace MemoryIdempotencyGuard
variable {κ ρ : Type*} [DecidableEq κ]

def checkAndReserve (g : MemoryIdempotencyGuard κ ρ) (key : κ) :
    Except String (Option ρ × MemoryIdempotencyGuard κ ρ) :=
  match g.completed.get key with
  | some result => .ok (some result, g)
  | none =>
    if key ∈ g.reserved then .error "idempotency key is already reserved"
    else .ok (none, { g with reserved := key :: g.reserved })

def evictIfOverCap (g : MemoryIdempotencyGuard κ ρ) : MemoryIdempotencyGuard κ ρ :=
  let surplus := g.insertionOrder.length - g.maxEntries
  { g with
    insertionOrder := g.insertionOrder.drop surplus
    completed := (g.insertionOrder.take surplus).foldl Dict.pop g.completed }

def recordResult (g : MemoryIdempotencyGuard κ ρ) (key : κ) (result : ρ) : MemoryIdempotencyGuard κ ρ :=
  let g :=
    if key ∈ g.completed.keys then g
    else { g with completed := g.completed.set key result, insertionOrder := g.insertionOrder ++ [key] }
  { g with reserved := g.reserved.filter (· ≠ key) }.evictIfOverCap

def release (g : MemoryIdempotencyGuard κ ρ) (key : κ) : MemoryIdempotencyGuard κ ρ :=
  { g with reserved := g.reserved.filter (· ≠ key) }

@[simp] theorem release_completed (g : MemoryIdempotencyGuard κ ρ) (key : κ) :
    (g.release key).completed = g.completed := rfl

theorem recordResult_reserved (g : MemoryIdempotencyGuard κ ρ) (key : κ) (result : ρ) :
    (g.recordResult key result).reserved = g.reserved.filter (· ≠ key) := by
  unfold recordResult
  split <;> rfl

/-- With nothing in flight the guard answers without an error. -/
theorem checkAndReserve_of_idle {g : MemoryIdempotencyGuard κ ρ} (h : g.reserved = []) (key : κ) :
    g.checkAndReserve key =
      match g.completed.get key with
      | some result => .ok (some result, g)
      | none => .ok (none, { g with reserved := [key] }) := by
  unfold checkAndReserve
  cases g.completed.get key <;> simp [h]

end MemoryIdempotencyGuard

inductive CircuitState where
  | closed | open | halfOpen
  deriving DecidableEq, Repr

structure CircuitBreakerConfig where
  failureThreshold : Nat := 15
  cooldownSeconds : Rat := 30
  halfOpenMax : Nat := 1

/-- Consecutive failures open the circuit; the kill latch holds it out of `closed`. -/
structure CircuitBreaker where
  config : CircuitBreakerConfig := {}
  state : CircuitState := .closed
  failures : Nat := 0
  openedAt : Rat := 0
  halfOpenProbes : Nat := 0
  killed : Bool := false

namespace CircuitBreaker
variable (b : CircuitBreaker) (now : Rat)

def shouldAttemptReset : Bool := b.config.cooldownSeconds ≤ now - b.openedAt

/-- Whether a probe is allowed, and the breaker afterwards. -/
def maybeReset : Bool × CircuitBreaker :=
  if b.state = .open ∧ b.shouldAttemptReset now then
    (true, { b with state := .halfOpen, halfOpenProbes := 0 })
  else (false, b)

def onSuccess : CircuitBreaker :=
  if b.killed then b else { b with state := .closed, failures := 0, halfOpenProbes := 0 }

def onFailure : CircuitBreaker :=
  let b := { b with failures := b.failures + 1 }
  if b.config.failureThreshold ≤ b.failures then { b with state := .open, openedAt := now } else b

def tripKill : CircuitBreaker :=
  { b with killed := true, state := .open, openedAt := now, failures := b.config.failureThreshold }

def releaseKill : CircuitBreaker := { b with killed := false }

/-- The latch is set and the circuit is not closed. -/
def Latched : Prop := b.killed = true ∧ b.state ≠ .closed

theorem tripKill_latched : (b.tripKill now).Latched := ⟨rfl, by simp [tripKill]⟩

variable {b}

theorem Latched.onSuccess (h : b.Latched) : b.onSuccess = b := by
  simp only [CircuitBreaker.onSuccess, h.1, if_true]

theorem Latched.onFailure (h : b.Latched) : (b.onFailure now).Latched := by
  unfold CircuitBreaker.onFailure
  dsimp only
  split
  · exact ⟨h.1, by simp⟩
  · exact h

theorem Latched.maybeReset (h : b.Latched) : (b.maybeReset now).2.Latched := by
  unfold CircuitBreaker.maybeReset
  split
  · exact ⟨h.1, by simp⟩
  · exact h

end CircuitBreaker
end NTrade.Execution
