import NTrade.Domain.MarketHours
import NTrade.Lib.Trace

/-! The history of an instrument with its cache: the frame that was fetched last is served again while it is fresh,
if it is of the timeframe that is asked for. -/
namespace NTrade.Domain.History
open NTrade.Lib

structure Request where
  timeframe : String
  days : Option Int
  start : Option Int
  stop : Option Int
  deriving DecidableEq, Repr

abbrev Broker (ρ : Type) := Request → Option (List ρ)

structure HistoricalSeries (ρ : Type) where
  timeframe : String
  df : List ρ
  dfTimeframe : Option String
  cached : Bool
  lastFetchedAt : Option Int := none
  deriving DecidableEq, Repr

def HistoricalSeries.init {ρ : Type} (df : Option (List ρ)) (timeframe : String) : HistoricalSeries ρ :=
  { timeframe, df := df.getD [], dfTimeframe := df.map fun _ => timeframe, cached := df.isSome }

structure FetchCall where
  timeframe : Option String := none
  days : Option Int := none
  start : Option Int := none
  stop : Option Int := none
  force : Bool := false
  checkedAt : Int
  fetchedAt : Int
  answers : Bool := true
  deriving DecidableEq, Repr

inductive Outcome where
  | served
  | fetched
  /-- The broker raises, or there is none. -/
  | raised
  deriving DecidableEq, Repr

/-- `HISTORY_MAX_AGE_MIN`. -/
def HISTORY_MAX_AGE_MIN : Int := 5

section Fetch
variable {ρ : Type}

def isFresh (s : HistoricalSeries ρ) (now : Int) : Bool :=
  s.lastFetchedAt.any fun last => now - last < HISTORY_MAX_AGE_MIN * 60 * MICROS

/-- The timeframe of a call is that of the series unless it names one. -/
def FetchCall.effective (c : FetchCall) (s : HistoricalSeries ρ) : String :=
  match c.timeframe with
  | some timeframe => if timeframe = "" then s.timeframe else timeframe
  | none => s.timeframe

def FetchCall.request (c : FetchCall) (s : HistoricalSeries ρ) : Request :=
  { timeframe := c.effective s, days := c.days, start := c.start, stop := c.stop }

def usesCache (c : FetchCall) (s : HistoricalSeries ρ) : Bool :=
  !c.force && s.cached && (s.dfTimeframe = some (c.effective s)) && isFresh s c.checkedAt

def fetch (broker : Broker ρ) (c : FetchCall) (s : HistoricalSeries ρ) : HistoricalSeries ρ × Outcome :=
  let s' := { s with timeframe := c.effective s }
  if usesCache c s then (s', .served)
  else if c.answers then
    let df := (broker (c.request s)).getD []
    ({ s' with df, dfTimeframe := some s'.timeframe, cached := !df.isEmpty, lastFetchedAt := some c.fetchedAt }, .fetched)
  else (s', .raised)

structure Tracked (ρ : Type) where
  series : HistoricalSeries ρ
  answered : Option (Request × Int) := none

def Tracked.step (broker : Broker ρ) (x : Tracked ρ) (c : FetchCall) : Tracked ρ where
  series := (fetch broker c x.series).1
  answered := if (fetch broker c x.series).2 = .fetched then some (c.request x.series, c.fetchedAt) else x.answered

def Tracked.run (broker : Broker ρ) (x : Tracked ρ) (calls : List FetchCall) : Tracked ρ := calls.foldl (Tracked.step broker) x

/-- A call that returns gives what the broker answered last, and that was this very request, in the window; one that
raises leaves the series as it was. -/
structure Coherent (broker : Broker ρ) (x : Tracked ρ) (c : FetchCall) : Prop where
  served : (fetch broker c x.series).2 ≠ .raised → ∃ last,
    (x.step broker c).answered = some (c.request x.series, last) ∧
      (fetch broker c x.series).1.df = (broker (c.request x.series)).getD [] ∧
        ((fetch broker c x.series).2 = .served → c.checkedAt - last < HISTORY_MAX_AGE_MIN * 60 * MICROS)
  restored : (fetch broker c x.series).2 = .raised → (fetch broker c x.series).1 = x.series

/-- A call that is served from the cache asks for what was answered last, and one that the broker does not answer
names no other timeframe. -/
def Keyed (x : Tracked ρ) (c : FetchCall) : Prop :=
  if usesCache c x.series then x.answered.map Prod.fst = some (c.request x.series)
  else c.answers = false → c.effective x.series = x.series.timeframe

end Fetch

section Runs
variable {ρ : Type} {broker : Broker ρ} {x : Tracked ρ} {c : FetchCall}

@[simp] theorem run_concat (broker : Broker ρ) (x : Tracked ρ) (calls : List FetchCall) (c : FetchCall) :
    x.run broker (calls ++ [c]) = (x.run broker calls).step broker c := by
  simp [Tracked.run]

def Answered (broker : Broker ρ) (x : Tracked ρ) : Prop :=
  ∀ last, x.series.lastFetchedAt = some last →
    ∃ request, x.answered = some (request, last) ∧ x.series.df = (broker request).getD []

private theorem fetch_cached (h : usesCache c x.series = true) :
    fetch broker c x.series = ({ x.series with timeframe := c.effective x.series }, .served) := if_pos h

private theorem fetch_answered (h : usesCache c x.series = false) (hanswers : c.answers = true) :
    fetch broker c x.series =
      ({ timeframe := c.effective x.series, df := (broker (c.request x.series)).getD [],
         dfTimeframe := some (c.effective x.series), cached := !((broker (c.request x.series)).getD []).isEmpty,
         lastFetchedAt := some c.fetchedAt }, .fetched) := by
  rw [fetch, h, hanswers]
  rfl

private theorem fetch_raised (h : usesCache c x.series = false) (hanswers : c.answers = false) :
    fetch broker c x.series = ({ x.series with timeframe := c.effective x.series }, .raised) := by
  rw [fetch, h, hanswers]
  rfl

private theorem answered_step (h : Answered broker x) (c : FetchCall) : Answered broker (x.step broker c) := by
  intro last hlast
  rw [Tracked.step] at hlast ⊢
  cases hcache : usesCache c x.series with
  | true =>
    rw [fetch_cached hcache] at hlast ⊢
    exact h last hlast
  | false =>
    cases hanswers : c.answers with
    | true =>
      rw [fetch_answered hcache hanswers] at hlast ⊢
      obtain rfl := Option.some.inj hlast
      exact ⟨_, rfl, rfl⟩
    | false =>
      rw [fetch_raised hcache hanswers] at hlast ⊢
      exact h last hlast

private theorem answered_run (df : Option (List ρ)) (timeframe : String) (calls : List FetchCall) :
    Answered broker (Tracked.run broker { series := .init df timeframe } calls) := by
  induction calls using List.reverseRecOn with
  | nil =>
    intro last hlast
    cases hlast
  | append_singleton calls c ih =>
    rw [run_concat]
    exact answered_step ih c

/-- A call is coherent exactly if it is keyed. -/
private theorem coherent_iff (h : Answered broker x) (c : FetchCall) : Coherent broker x c ↔ Keyed x c := by
  rw [Keyed]
  cases hcache : usesCache c x.series with
  | true =>
    have hfetch : fetch broker c x.series = _ := fetch_cached hcache
    have hstep : (x.step broker c).answered = x.answered := by
      rw [Tracked.step, hfetch]
      rfl
    have hfresh : isFresh x.series c.checkedAt = true := (Bool.and_eq_true_iff.mp hcache).2
    obtain ⟨last, hlast, hage⟩ := (Option.any_eq_true _ _).mp hfresh
    obtain ⟨request, hanswered, hdf⟩ := h last hlast
    rw [if_pos rfl, hanswered, Option.map_some, Option.some.injEq]
    constructor
    · intro hcoherent
      obtain ⟨last', hanswered', -⟩ := hcoherent.served (by rw [hfetch]; exact Outcome.noConfusion)
      rw [hstep, hanswered] at hanswered'
      exact (Prod.mk.inj (Option.some.inj hanswered')).1
    · intro hrequest
      dsimp only at hrequest
      rw [hrequest] at hanswered hdf
      refine ⟨fun _ => ⟨last, hstep.trans hanswered, ?_, fun _ => of_decide_eq_true hage⟩, fun hraised => ?_⟩
      · rw [hfetch]
        exact hdf
      · rw [hfetch] at hraised
        cases hraised
  | false =>
    rw [if_neg (by decide)]
    cases hanswers : c.answers with
    | true =>
      have hfetch : fetch broker c x.series = _ := fetch_answered hcache hanswers
      refine iff_of_true ⟨fun _ => ⟨c.fetchedAt, ?_, ?_, fun hserved => ?_⟩, fun hraised => ?_⟩ fun h => nomatch h
      · rw [Tracked.step, hfetch]
        rfl
      · rw [hfetch]
      · rw [hfetch] at hserved
        cases hserved
      · rw [hfetch] at hraised
        cases hraised
    | false =>
      have hfetch : fetch broker c x.series = _ := fetch_raised hcache hanswers
      constructor
      · intro hcoherent _
        have hrestored := hcoherent.restored (by rw [hfetch])
        rw [hfetch] at hrestored
        exact congrArg HistoricalSeries.timeframe hrestored
      · intro hkeyed
        refine ⟨fun hraised => absurd (by rw [hfetch]) hraised, fun _ => ?_⟩
        rw [hfetch, hkeyed rfl]

/-- In every run of fetches, each call is coherent exactly if each is keyed. -/
theorem fetch_coherent_iff (broker : Broker ρ) (df : Option (List ρ)) (timeframe : String) (calls : List FetchCall) :
    Trace.Each (fun pre c => Coherent broker (Tracked.run broker { series := .init df timeframe } pre) c) calls ↔
      Trace.Each (fun pre c => Keyed (Tracked.run broker { series := .init df timeframe } pre) c) calls := by
  simp only [Trace.Each, coherent_iff (answered_run df timeframe _)]

end Runs
private def dailyBars : Broker Nat := fun request => some (List.range (request.days.getD 1).toNat)

private def fiveDays : FetchCall := { days := some 5, checkedAt := 0, fetchedAt := 1 }

private def twentyDays : FetchCall := { days := some 20, checkedAt := 2, fetchedAt := 3 }

/-- Twenty days are asked for, and the five of the call before are served. -/
theorem days_not_in_key :
    ¬ Trace.Each (fun pre c => Coherent dailyBars (Tracked.run dailyBars { series := .init none "5m" } pre) c)
      [fiveDays, twentyDays] := by
  intro h
  have hcoherent := h [fiveDays] twentyDays [] rfl
  obtain ⟨last, -, hdf, -⟩ := hcoherent.served (by decide +kernel)
  revert hdf
  decide +kernel

end NTrade.Domain.History
