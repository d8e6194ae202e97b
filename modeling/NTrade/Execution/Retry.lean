import Mathlib.Algebra.Order.Ring.Rat
import Mathlib.Tactic.Linarith

/-! The retry policy of the calls to the broker: a call that fails is made again after a pause that doubles, unless
its failure is one that must not be tried again. -/
namespace NTrade.Execution

structure RetryPolicy (ε : Type) where
  maxRetries : Nat := 3
  baseDelay : Rat := 1 / 5
  maxDelay : Rat := 5
  multiplier : Rat := 2
  jitter : Rat := 1 / 10
  noRetryOn : Option (ε → Bool) := none

inductive RetryAct (κ : Type) where
  | call (a : κ)
  | sleep (seconds : Rat)
  deriving DecidableEq

namespace RetryPolicy
variable {ε κ α : Type}

/-- `_is_no_retry`, where `isRateLimited` is the guard that a policy has by default. -/
def isNoRetry (p : RetryPolicy ε) (isRateLimited : ε → Bool) (e : ε) : Bool :=
  match p.noRetryOn with
  | some noRetryOn => noRetryOn e
  | none => isRateLimited e

/-- The delay after a try, for the draw that `random.uniform` makes of the jitter. -/
def delay (p : RetryPolicy ε) (i : Nat) (draw : Rat) : Rat :=
  max 0 (min (p.baseDelay * p.multiplier ^ i) p.maxDelay + draw)

/-- The turns of the loop from a try on; `fn` tells of each try what it does and how it ends. -/
def loop (p : RetryPolicy ε) (isRateLimited : ε → Bool) (fn : Nat → List κ × Except ε α) (draw : Nat → Rat) :
    Nat → Nat → Option ε → List (RetryAct κ) × Except (Option ε) α
  | _, 0, lastExc => ([], .error lastExc)
  | attempt, left + 1, _ =>
    match fn attempt with
    | (acts, .ok a) => (acts.map .call, .ok a)
    | (acts, .error e) =>
      if p.isNoRetry isRateLimited e then (acts.map .call, .error (some e))
      else
        let pause := if attempt + 1 < p.maxRetries then [.sleep (p.delay attempt (draw attempt))] else []
        let (rest, result) := loop p isRateLimited fn draw (attempt + 1) left (some e)
        (acts.map .call ++ pause ++ rest, result)

/-- `execute`; where there is no try there is no exception to raise, which raises one of its own. -/
def execute (p : RetryPolicy ε) (isRateLimited : ε → Bool) (fn : Nat → List κ × Except ε α) (draw : Nat → Rat) :
    List (RetryAct κ) × Except (Option ε) α :=
  loop p isRateLimited fn draw 0 p.maxRetries none

section Settled
variable {p : RetryPolicy ε} {isRateLimited : ε → Bool} {fn : Nat → List κ × Except ε α} {draw : Nat → Rat}

/-- A try that fails and may be made again. -/
def Retried (p : RetryPolicy ε) (isRateLimited : ε → Bool) (fn : Nat → List κ × Except ε α) (i : Nat) : Prop :=
  ∃ e, (fn i).2 = .error e ∧ p.isNoRetry isRateLimited e = false

def actsOf (p : RetryPolicy ε) (fn : Nat → List κ × Except ε α) (draw : Nat → Rat) (i : Nat) : List (RetryAct κ) :=
  (fn i).1.map .call ++ [.sleep (p.delay i (draw i))]

/-- A try that is the last, since it succeeds, must not be made again or exhausts the policy. -/
structure Settles (p : RetryPolicy ε) (isRateLimited : ε → Bool) (fn : Nat → List κ × Except ε α) (draw : Nat → Rat)
    (k : Nat) : Prop where
  lt : k < p.maxRetries
  before : ∀ i, i < k → Retried p isRateLimited fn i
  last : k + 1 < p.maxRetries → ¬ Retried p isRateLimited fn k
  acts : (execute p isRateLimited fn draw).1 =
    ((List.range k).flatMap fun i => actsOf p fn draw i) ++ (fn k).1.map .call
  result : (execute p isRateLimited fn draw).2 = (fn k).2.mapError some

private theorem loop_spec (p : RetryPolicy ε) (isRateLimited : ε → Bool) (fn : Nat → List κ × Except ε α)
    (draw : Nat → Rat) (left attempt : Nat) (lastExc : Option ε) (hleft : attempt + (left + 1) = p.maxRetries) :
    ∃ n, n ≤ left ∧ (∀ i, i < n → Retried p isRateLimited fn (attempt + i)) ∧
      (n < left → ¬ Retried p isRateLimited fn (attempt + n)) ∧
      (loop p isRateLimited fn draw attempt (left + 1) lastExc).1 =
        ((List.range n).flatMap fun i => actsOf p fn draw (attempt + i)) ++ (fn (attempt + n)).1.map .call ∧
      (loop p isRateLimited fn draw attempt (left + 1) lastExc).2 = (fn (attempt + n)).2.mapError some := by
  induction left generalizing attempt lastExc with
  | zero =>
    refine ⟨0, le_rfl, fun i hi => absurd hi (Nat.not_lt_zero i), fun h => absurd h (Nat.lt_irrefl 0), ?_⟩
    rw [loop, Nat.add_zero]
    rcases fn attempt with ⟨acts, e | a⟩
    · have hlast : ¬ attempt + 1 < p.maxRetries := by omega
      by_cases hretry : p.isNoRetry isRateLimited e <;> simp [hretry, hlast, loop, Except.mapError]
    · simp [Except.mapError]
  | succ left ih =>
    rw [loop]
    rcases hfn : fn attempt with ⟨acts, e | a⟩
    · by_cases hretry : p.isNoRetry isRateLimited e
      · refine ⟨0, Nat.zero_le _, fun i hi => absurd hi (Nat.not_lt_zero i), fun _ => ?_, ?_⟩
        · rintro ⟨e', he', hno⟩
          rw [Nat.add_zero, hfn] at he'
          rw [← Except.error.inj he', hretry] at hno
          cases hno
        · simp [hretry, hfn, Except.mapError]
      · obtain ⟨n, hn, hbefore, hlast, hacts, hresult⟩ := ih (attempt + 1) (some e) (by omega)
        have hshift (i : Nat) : attempt + 1 + i = attempt + (i + 1) := by omega
        have hpause : attempt + 1 < p.maxRetries := by omega
        refine ⟨n + 1, Nat.succ_le_succ hn, fun i hi => ?_, fun h => ?_, ?_, ?_⟩
        · cases i with
          | zero => exact ⟨e, by rw [Nat.add_zero, hfn], by simpa using hretry⟩
          | succ i => exact hshift i ▸ hbefore i (Nat.lt_of_succ_lt_succ hi)
        · exact hshift n ▸ hlast (Nat.lt_of_succ_lt_succ h)
        · have hfirst : actsOf p fn draw (attempt + 0) = acts.map .call ++ [.sleep (p.delay attempt (draw attempt))] := by
            rw [Nat.add_zero, actsOf, hfn]
          simp only [hretry, hpause, if_true, Bool.false_eq_true, if_false, hacts]
          rw [List.range_succ_eq_map, List.flatMap_cons, List.flatMap_map, hfirst, hshift n, List.append_assoc _ _ (List.map _ _)]
          simp only [hshift, Nat.succ_eq_add_one]
        · simp only [hretry, Bool.false_eq_true, if_false, hresult, hshift n]
    · refine ⟨0, Nat.zero_le _, fun i hi => absurd hi (Nat.not_lt_zero i), fun _ => ?_, ?_⟩
      · rintro ⟨e', he', -⟩
        rw [Nat.add_zero, hfn] at he'
        cases he'
      · simp [hfn, Except.mapError]

/-- A policy with a try settles at one. -/
theorem exists_settles (hn : 0 < p.maxRetries) (isRateLimited : ε → Bool) (fn : Nat → List κ × Except ε α)
    (draw : Nat → Rat) : ∃ k, Settles p isRateLimited fn draw k := by
  obtain ⟨left, hleft⟩ := Nat.exists_eq_add_one.mpr hn
  obtain ⟨k, hk, hbefore, hlast, hacts, hresult⟩ := loop_spec p isRateLimited fn draw left 0 none (by omega)
  simp only [Nat.zero_add, ← hleft] at hbefore hlast hacts hresult
  exact ⟨k, by omega, hbefore, fun h => hlast (by omega), hacts, hresult⟩

end Settled
end RetryPolicy
end NTrade.Execution
