import NTrade.Brokers.Dhan
import NTrade.Execution.Retry

/-! The transport's price and quote requests. Each passes the rate gate and is made again while it fails, and each
failure is told apart by what it says. -/
namespace NTrade.Brokers
open NTrade.Domain NTrade.Execution NTrade.Lib

inductive Reply (α : Type) where
  | value (a : α)
  | rateLimited (retryAfter : Option Rat) (message : String)
  | raised (message : String)

inductive LtpData where
  | dict (data : WireRecord) (printed : String)
  | other (printed : String)

inductive GateCall where
  | acquire
  | fetch
  | penalize (seconds : Rat)
  deriving DecidableEq

def Fault.isRateLimited : Fault → Bool
  | .rateLimited _ => true
  | .other message => Brokers.isRateLimited message

namespace DhanTransport

/-- `retry_after or 1.0` -/
def backOff (retryAfter : Option Rat) : Rat := if retryAfter.getD 0 = 0 then 1 else retryAfter.getD 0

def penalty {α : Type} : Reply α → Option Rat
  | .value _ => none
  | .rateLimited retryAfter _ => some (backOff retryAfter)
  | .raised message => if isRateLimited message then some 1 else none

/-- `_invoke` with a gate: what is done there, and what the call returns or raises. -/
def invokeGated {α : Type} (reply : Reply α) : List GateCall × Except Fault α :=
  (.acquire :: .fetch :: ((penalty reply).map GateCall.penalize).toList,
    match reply with
    | .value a => .ok a
    | .rateLimited _ message => .error (.rateLimited message)
    | .raised message => .error (if isRateLimited message then .rateLimited message else .other message))

def priceIn (symbol : String) : LtpData → Except Fault Rat
  | .other printed => .error (.other ("LTP response missing symbol " ++ symbol ++ ": " ++ printed))
  | .dict data printed =>
    if Literal.lower ((data.getD "status" (.text "")).str) = "failure" then .error (.other ("LTP fetch failed: " ++ printed))
    else
      match data.get symbol with
      | none => .error (.other ("LTP response missing symbol " ++ symbol ++ ": " ++ printed))
      | some v =>
        match if v.isFalse then .ok 0 else v.toPrice with
        | .error message => .error (.other message)
        | .ok candidate => if 0 < candidate then .ok candidate else .error (.other "LTP is 0")

def tryLtp (symbol : String) (reply : Reply LtpData) : List GateCall × Except Fault Rat :=
  ((invokeGated reply).1, (invokeGated reply).2.bind (priceIn symbol))

def surfaced (symbol : String) : Option Fault → Fault
  | some (.rateLimited message) => .rateLimited message
  | some (.other message) => .other ("LTP fetch failed for " ++ symbol ++ " after retries: " ++ message)
  | none => .other ("LTP fetch failed for " ++ symbol ++ " after retries: exceptions must derive from BaseException")

def getLtp (policy : RetryPolicy Fault) (symbol : String) (replies : Nat → Reply LtpData) (draw : Nat → Rat) :
    List (RetryAct GateCall) × Except Fault Rat :=
  let (acts, result) := policy.execute Fault.isRateLimited (fun i => tryLtp symbol (replies i)) draw
  (acts, result.mapError (surfaced symbol))

section Quote
variable {τ : Type}

/-- A quote, with its time stamp; a field that is not a number is `none`. -/
structure FullQuote (τ : Type) where
  ltp : Rat
  bid : Rat
  ask : Rat
  high : Option Rat := some 0
  low : Option Rat := some 0
  openPrice : Option Rat := some 0
  prevClose : Option Rat := some 0
  volume : Int := 0
  oi : Int := 0
  timestamp : τ
  deriving DecidableEq

/-- `_f(qd.get(key))` -/
def figure (qd : WireRecord) (key : String) : Option Rat :=
  match qd.get key with
  | some .nan => none
  | v => some (toFloat (v.bind Cell.wire))

/-- `int(qd.get(key) or 0)` -/
def count (qd : WireRecord) (key : String) : Except String Int :=
  match qd.get key with
  | none => .ok 0
  | some v => if v.isFalse then .ok 0 else v.toInteger

def enrich (quote : FullQuote τ) (qd : WireRecord) : Except String (FullQuote τ) := do
  let volume ← count qd "volume"
  let oi ← count qd "open_interest"
  return {
    quote with
    high := figure qd "high"
    low := figure qd "low"
    openPrice := figure qd "open"
    prevClose := figure qd "close_price"
    volume
    oi }

/-- `get_quote`, for the replies that the prices get and the one that the other fields get, of which it takes the
record under the symbol; a reply without one has no `get`. -/
def getQuote (policy : RetryPolicy Fault) (symbol : String) (now : τ) (replies : Nat → Reply LtpData) (draw : Nat → Rat)
    (fields : Reply (Option WireRecord)) : List (RetryAct GateCall) × Except Fault (FullQuote τ) :=
  match getLtp policy symbol replies draw with
  | (acts, .error e) => (acts, .error e)
  | (acts, .ok ltp) =>
    let quote : FullQuote τ := { ltp, bid := ltp, ask := ltp, timestamp := now }
    let (more, answer) := invokeGated fields
    (acts ++ more.map .call,
      match answer with
      | .error (.rateLimited message) => .error (.rateLimited message)
      | .error (.other _) => .ok quote
      | .ok none => .ok quote
      | .ok (some qd) =>
        match enrich quote qd with
        | .error _ => .ok quote
        | .ok quote => .ok quote)

end Quote

section Runs
variable {policy : RetryPolicy Fault} {symbol : String} {replies : Nat → Reply LtpData} {draw : Nat → Rat}

def Transient (symbol : String) (reply : Reply LtpData) : Prop :=
  ∃ message, (tryLtp symbol reply).2 = .error (.other message) ∧ isRateLimited message = false

theorem retried_iff (hguard : policy.noRetryOn = none) (i : Nat) :
    policy.Retried Fault.isRateLimited (fun i => tryLtp symbol (replies i)) i ↔ Transient symbol (replies i) := by
  have hno (e : Fault) : policy.isNoRetry Fault.isRateLimited e = e.isRateLimited := by
    rw [RetryPolicy.isNoRetry, hguard]
  constructor
  · rintro ⟨e, he, hretry⟩
    rw [hno] at hretry
    cases e with
    | rateLimited message => cases hretry
    | other message => exact ⟨message, he, hretry⟩
  · rintro ⟨message, he, hretry⟩
    exact ⟨_, he, (hno _).trans hretry⟩

/-- A reply that is a price, or fails without a word of a rate limit, brings no penalty. -/
theorem penalty_eq_none_iff (symbol : String) (reply : Reply LtpData) :
    penalty reply = none ↔ ∀ message, (tryLtp symbol reply).2 ≠ .error (.rateLimited message) := by
  cases reply with
  | value data =>
    refine iff_of_true (Eq.refl _) fun message h => ?_
    have hprice : priceIn symbol data = .error (.rateLimited message) := h
    cases data with
    | other printed => cases hprice
    | dict d printed =>
      rw [priceIn] at hprice
      split at hprice
      · cases hprice
      · split at hprice
        · cases hprice
        · split at hprice
          · cases hprice
          · split at hprice <;> cases hprice
  | rateLimited retryAfter message =>
    exact iff_of_false (by simp [penalty]) fun h => h message (Eq.refl _)
  | raised message =>
    by_cases hlimited : isRateLimited message
    · exact iff_of_false (by simp [penalty, hlimited]) fun h => h message (by simp [tryLtp, invokeGated, hlimited, Except.bind])
    · refine iff_of_true (by simp [penalty, hlimited]) fun message' h => ?_
      simp [tryLtp, invokeGated, hlimited, Except.bind] at h

variable {k : Nat}

/-- What a request does that ends with a try: the tries before it pass the gate without a penalty. -/
theorem log_of_settles (hguard : policy.noRetryOn = none)
    (hk : policy.Settles Fault.isRateLimited (fun i => tryLtp symbol (replies i)) draw k) :
    (getLtp policy symbol replies draw).1 =
      ((List.range k).flatMap fun i => [.call .acquire, .call .fetch, .sleep (policy.delay i (draw i))]) ++
        ([.call .acquire, .call .fetch] ++ ((penalty (replies k)).map fun s => RetryAct.call (.penalize s)).toList) := by
  have hacts (i : Nat) : (tryLtp symbol (replies i)).1.map RetryAct.call =
      [.call .acquire, .call .fetch] ++ ((penalty (replies i)).map fun s => RetryAct.call (.penalize s)).toList := by
    have hgate : (tryLtp symbol (replies i)).1 = .acquire :: .fetch :: ((penalty (replies i)).map GateCall.penalize).toList := rfl
    rw [hgate]
    cases penalty (replies i) <;> rfl
  have hlog : (getLtp policy symbol replies draw).1 =
      (policy.execute Fault.isRateLimited (fun i => tryLtp symbol (replies i)) draw).1 := rfl
  rw [hlog, hk.acts, hacts]
  congr 1
  apply List.flatMap_congr
  intro i hi
  obtain ⟨message, he, -⟩ := (retried_iff hguard i).mp (hk.before i (List.mem_range.mp hi))
  have hnone := (penalty_eq_none_iff symbol (replies i)).mpr fun m hm => by
    rw [he] at hm
    cases hm
  rw [RetryPolicy.actsOf, hacts, hnone]
  rfl

theorem result_of_settles (hk : policy.Settles Fault.isRateLimited (fun i => tryLtp symbol (replies i)) draw k) :
    (getLtp policy symbol replies draw).2 = (tryLtp symbol (replies k)).2.mapError fun e => surfaced symbol (some e) := by
  have hresult : (getLtp policy symbol replies draw).2 =
      (policy.execute Fault.isRateLimited (fun i => tryLtp symbol (replies i)) draw).2.mapError (surfaced symbol) := rfl
  rw [hresult, hk.result]
  cases (tryLtp symbol (replies k)).2 <;> rfl

/-- A price is asked for once more after each reply that fails without a word of a rate limit, while there are tries
left: every request passes the gate first, the pauses are those of the policy, and the last reply decides. One that
names a rate limit ends the tries; it is raised as one, and held against the class, only if the library raised it. -/
theorem getLtp_run (hguard : policy.noRetryOn = none) (hn : 0 < policy.maxRetries) (symbol : String)
    (replies : Nat → Reply LtpData) (draw : Nat → Rat) :
    ∃ k, k < policy.maxRetries ∧ (∀ i, i < k → Transient symbol (replies i)) ∧
      (k + 1 < policy.maxRetries → ¬ Transient symbol (replies k)) ∧
      (getLtp policy symbol replies draw).1 =
        ((List.range k).flatMap fun i => [.call .acquire, .call .fetch, .sleep (policy.delay i (draw i))]) ++
          ([.call .acquire, .call .fetch] ++ ((penalty (replies k)).map fun s => RetryAct.call (.penalize s)).toList) ∧
      (getLtp policy symbol replies draw).2 = (tryLtp symbol (replies k)).2.mapError fun e => surfaced symbol (some e) := by
  obtain ⟨k, hk⟩ := policy.exists_settles hn Fault.isRateLimited (fun i => tryLtp symbol (replies i)) draw
  exact ⟨k, hk.lt, fun i hi => (retried_iff hguard i).mp (hk.before i hi),
    fun h => mt (retried_iff hguard k).mpr (hk.last h), log_of_settles hguard hk, result_of_settles hk⟩

def throttled : Reply LtpData :=
  .value (.dict (Dict.empty.set "status" (.text "failure")) "\x7b'status': 'failure', 'remarks': 'DH-904', 'data': ''\x7d")

/-- The library's own word of a rate limit ends the tries, but is neither raised as one nor held against the class. -/
theorem getLtp_run_throttled :
    let policy : RetryPolicy Fault := {}
    let price := getLtp policy "NIFTY" (fun _ => throttled) fun _ => 0
    (∃ k, k < policy.maxRetries ∧ price.1 =
      ((List.range k).flatMap fun i => [.call .acquire, .call .fetch, .sleep (policy.delay i 0)]) ++
        ([.call .acquire, .call .fetch] ++ ((penalty throttled).map fun s => RetryAct.call (.penalize s)).toList)) ∧
      price.1 = [.call .acquire, .call .fetch] := by
  intro policy price
  have hguard : policy.noRetryOn = none := rfl
  obtain ⟨k, hk, -, -, hlog, -⟩ := getLtp_run hguard (by decide) "NIFTY" (fun _ => throttled) fun _ => 0
  exact ⟨⟨k, hk, hlog⟩, by decide +kernel⟩

/-- A request for a price holds a penalty against its class exactly if it ends in a rate limit. -/
theorem getLtp_penalized_iff (hguard : policy.noRetryOn = none) (hn : 0 < policy.maxRetries) (symbol : String)
    (replies : Nat → Reply LtpData) (draw : Nat → Rat) :
    (∃ s, .call (.penalize s) ∈ (getLtp policy symbol replies draw).1) ↔
      ∃ message, (getLtp policy symbol replies draw).2 = .error (.rateLimited message) := by
  obtain ⟨k, hk⟩ := policy.exists_settles hn Fault.isRateLimited (fun i => tryLtp symbol (replies i)) draw
  have hleft : (∃ s, .call (.penalize s) ∈ (getLtp policy symbol replies draw).1) ↔ penalty (replies k) ≠ none := by
    rw [log_of_settles hguard hk]
    cases penalty (replies k) <;> simp
  rw [hleft, result_of_settles hk, Ne, penalty_eq_none_iff symbol]
  push Not
  apply exists_congr
  intro message
  cases (tryLtp symbol (replies k)).2 with
  | ok p => exact iff_of_false (fun h => by cases h) fun h => by cases h
  | error e =>
    cases e with
    | rateLimited m => rfl
    | other m => exact iff_of_false (fun h => by cases h) fun h => by cases h

theorem priceIn_pos {data : LtpData} {price : Rat} (h : priceIn symbol data = .ok price) : 0 < price := by
  cases data with
  | other printed => cases h
  | dict d printed =>
    rw [priceIn] at h
    split at h
    · cases h
    · split at h
      · cases h
      · split at h
        · cases h
        · split at h
          · next hpos =>
            obtain rfl := Except.ok.inj h
            exact hpos
          · cases h

theorem getLtp_pos (hn : 0 < policy.maxRetries) {price : Rat}
    (h : (getLtp policy symbol replies draw).2 = .ok price) : 0 < price := by
  obtain ⟨k, hk⟩ := policy.exists_settles hn Fault.isRateLimited (fun i => tryLtp symbol (replies i)) draw
  rw [result_of_settles hk, tryLtp] at h
  cases hinvoke : (invokeGated (replies k)).2 with
  | error e =>
    rw [hinvoke] at h
    cases h
  | ok data =>
    rw [hinvoke] at h
    cases hprice : priceIn symbol data with
    | error e =>
      rw [Except.bind, hprice] at h
      cases h
    | ok p =>
      rw [Except.bind, hprice] at h
      obtain rfl := Except.ok.inj h
      exact priceIn_pos hprice

variable {τ : Type}

def bare (price : Rat) (now : τ) : FullQuote τ := { ltp := price, bid := price, ask := price, timestamp := now }

/-- The reply for the other fields limits the request, or leaves the price with all of them or with none. -/
private theorem fields_cases (price : Rat) (now : τ) (acts : List (RetryAct GateCall)) (fields : Reply (Option WireRecord))
    (hacts : ∀ s, .call (.penalize s) ∉ acts) (hprice : getLtp policy symbol replies draw = (acts, .ok price)) :
    ((∃ s, .call (.penalize s) ∈ (getQuote policy symbol now replies draw fields).1) ↔
        ∃ message, (getQuote policy symbol now replies draw fields).2 = .error (.rateLimited message)) ∧
      ∀ quote, (getQuote policy symbol now replies draw fields).2 = .ok quote →
        quote = bare price now ∨ ∃ qd, fields = .value (some qd) ∧ enrich (bare price now) qd = .ok quote := by
  rw [getQuote, hprice]
  cases fields with
  | value qd =>
    cases qd with
    | none => exact ⟨by simp [invokeGated, penalty, hacts], fun quote hq => .inl (Except.ok.inj hq).symm⟩
    | some qd =>
      cases henrich : enrich (bare price now) qd with
      | error message =>
        rw [bare] at henrich
        exact ⟨by simp [invokeGated, penalty, hacts, henrich], fun quote hq => .inl (by simpa [invokeGated, henrich, bare] using hq.symm)⟩
      | ok full =>
        rw [bare] at henrich
        refine ⟨by simp [invokeGated, penalty, hacts, henrich], fun quote hq => .inr ⟨qd, rfl, ?_⟩⟩
        rw [bare, henrich]
        simpa [invokeGated, henrich] using hq
  | rateLimited retryAfter message => exact ⟨by simp [invokeGated, penalty, hacts], fun quote hq => by cases hq⟩
  | raised message =>
    by_cases hlimited : isRateLimited message
    · exact ⟨by simp [invokeGated, penalty, hacts, hlimited], fun quote hq => by simp [invokeGated, hlimited] at hq⟩
    · exact ⟨by simp [invokeGated, penalty, hacts, hlimited],
        fun quote hq => .inl (by simpa [invokeGated, hlimited, bare] using hq.symm)⟩

/-- A quote has the price that was asked for first, and all of the other fields of one record or none of them. The
request holds a penalty against its class exactly if it ends in a rate limit, on whichever of its calls. -/
theorem getQuote_spec (hguard : policy.noRetryOn = none) (hn : 0 < policy.maxRetries) (symbol : String) (now : τ)
    (replies : Nat → Reply LtpData) (draw : Nat → Rat) (fields : Reply (Option WireRecord)) :
    ((∃ s, .call (.penalize s) ∈ (getQuote policy symbol now replies draw fields).1) ↔
        ∃ message, (getQuote policy symbol now replies draw fields).2 = .error (.rateLimited message)) ∧
      ∀ quote, (getQuote policy symbol now replies draw fields).2 = .ok quote →
        ∃ price, 0 < price ∧ (getLtp policy symbol replies draw).2 = .ok price ∧
          (quote = bare price now ∨ ∃ qd, fields = .value (some qd) ∧ enrich (bare price now) qd = .ok quote) := by
  have hiff := getLtp_penalized_iff hguard hn symbol replies draw
  rcases hprice : getLtp policy symbol replies draw with ⟨acts, e | price⟩
  · rw [hprice] at hiff
    refine ⟨?_, fun quote hq => ?_⟩
    · rw [getQuote, hprice]
      simpa using hiff
    · rw [getQuote, hprice] at hq
      cases hq
  · rw [hprice] at hiff
    have hacts (s : Rat) : RetryAct.call (.penalize s) ∉ acts := fun hs => by
      obtain ⟨message, hm⟩ := hiff.mp ⟨s, hs⟩
      cases hm
    obtain ⟨hpen, hquote⟩ := fields_cases price now acts fields hacts hprice
    have hpos := getLtp_pos hn (show (getLtp policy symbol replies draw).2 = .ok price by rw [hprice])
    exact ⟨hpen, fun quote hq => ⟨price, hpos, rfl, hquote quote hq⟩⟩

/-- A price of 24800 whose other fields cannot be read. -/
theorem getQuote_spec_bare :
    let fields : Reply (Option WireRecord) := .value (some (Dict.empty.set "volume" (.text "n/a")))
    let quote := getQuote (τ := Unit) {} "NIFTY" () (fun _ => .value (.dict (Dict.empty.set "NIFTY" (.int 24800)) "")) (fun _ => 0) fields
    ((∃ s, .call (.penalize s) ∈ quote.1) ↔ ∃ message, quote.2 = .error (.rateLimited message)) ∧
      quote.2 = .ok (bare 24800 ()) := by
  intro fields quote
  exact ⟨(getQuote_spec rfl (by decide) "NIFTY" () _ _ fields).1, by decide +kernel⟩

end Runs
end DhanTransport
end NTrade.Brokers
