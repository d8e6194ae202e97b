import NTrade.Domain.Order
import NTrade.Engines.FloatCandles
import NTrade.Lib.Literal
import Mathlib.Order.WithBot
import Mathlib.Algebra.Order.Group.Abs
import Mathlib.Algebra.Order.Ring.Rat

/-! The live feed of the broker: payloads of its websocket become events, ticks that come twice are dropped, and the
rest reach the candle engine. Floats are exact between the bounds at which they overflow or vanish. -/
namespace NTrade.Sources
open NTrade.Domain NTrade.Lib NTrade.Engines Unordered

abbrev Extended := WithBot (WithTop Rat)

def number (q : Rat) : Extended := ((q : WithTop Rat) : WithBot (WithTop Rat))

/-- A float; `none` is the one that is not a number. -/
abbrev Double := Option Extended

def zero : Double := some (number 0)

def finite : Double → Option Rat
  | none => none
  | some x => x.recBotCoe none (fun y => y.recTopCoe none some)

/-- From here on a number rounds to an infinity. -/
def OVERFLOW : Rat := 2 ^ 1024 - 2 ^ 970

/-- Up to here a number rounds to 0. -/
def UNDERFLOW : Rat := 1 / 2 ^ 1075

def rounded (q : Rat) : Double :=
  if OVERFLOW ≤ q then some ⊤
  else if q ≤ -OVERFLOW then some ⊥
  else if |q| ≤ UNDERFLOW then zero
  else some (number q)

/-- A value in a payload. A float carries the text it prints as, and any other object is one that is not a number and
cannot be a key, as a list. -/
inductive Field where
  | none
  | bool (b : Bool)
  | int (n : Int)
  | float (x : Double) (printed : String)
  | text (s : String)
  | other (printed : String)
  deriving DecidableEq

inductive Raised where
  | typeError
  | valueError
  | overflowError
  deriving DecidableEq, Repr

def parse (s : String) : Option Double :=
  let (sign, cs) := Literal.signOf (Literal.strip s.toList)
  let word := Literal.lower (String.ofList cs)
  if word = "nan" then some none
  else if word = "inf" ∨ word = "infinity" then some (if sign = 1 then some ⊤ else some ⊥)
  else (Literal.float s).map rounded

example : parse " -Infinity" = some (some ⊥) := by decide +kernel
example : parse "1e400" = some (some ⊤) := by decide +kernel

namespace Field

/-- `str(v)`. -/
def str : Field → String
  | .none => "None"
  | .bool b => if b then "True" else "False"
  | .int n => toString n
  | .float _ printed => printed
  | .text s => s
  | .other printed => printed

/-- `float(v)`. -/
def double : Field → Except Raised Double
  | .none => .error .typeError
  | .bool b => .ok (some (number (if b then 1 else 0)))
  | .int n => if OVERFLOW ≤ |(n : Rat)| then .error .overflowError else .ok (some (number n))
  | .float x _ => .ok x
  | .text s =>
    match parse s with
    | some x => .ok x
    | Option.none => .error .valueError
  | .other _ => .error .typeError

/-- `to_float`, which lets an overflow through. -/
def toFloat (v : Field) : Except Raised Double :=
  match v.double with
  | .error .overflowError => .error .overflowError
  | .error _ => .ok zero
  | .ok x => .ok x

/-- `to_int`, which lets an overflow through; an infinity has no integer part. -/
def toInt (v : Field) : Except Raised Int :=
  match v.double with
  | .error .overflowError => .error .overflowError
  | .error _ => .ok 0
  | .ok Option.none => .ok 0
  | .ok x =>
    match finite x with
    | some q => .ok (Domain.toInt (some q))
    | Option.none => .error .overflowError

end Field

/-- What equal keys of a mapping have in common. -/
inductive Key where
  | none
  | number (q : Rat)
  | text (s : String)
  deriving DecidableEq

def Field.key : Field → Except Raised (Option Key)
  | .none => .ok (some .none)
  | .bool b => .ok (some (.number (if b then 1 else 0)))
  | .int n => .ok (some (.number n))
  | .float x _ => .ok ((finite x).map Key.number)
  | .text s => .ok (some (.text s))
  | .other _ => .error .typeError

abbrev SymbolMap := Dict Key (String × String)

/-- The mapping of a security, by its id as it is or as text. -/
def lookup (symbolMap : SymbolMap) (id : Field) : Except Raised (Option (String × String)) := do
  let key ← id.key
  return (key.bind symbolMap.get).or (symbolMap.get (.text id.str))

/-- The depth of a payload: missing or empty, a value that cannot be iterated, or levels, of which some are no
dictionaries. -/
inductive DepthField where
  | empty
  | scalar
  | levels (levels : List (Option (Dict String Field)))

structure Packet where
  fields : Dict String Field
  depth : DepthField := .empty

inductive Payload where
  | packet (p : Packet)
  | other

structure FeedQuote where
  symbol : String
  exchange : String
  ltp : Double
  open_ : Double
  high : Double
  low : Double
  prevClose : Double
  volume : Int
  oi : Int
  ts : Timestamp
  deriving DecidableEq

structure FeedDepth where
  symbol : String
  exchange : String
  bids : List (Double × Int × Int)
  asks : List (Double × Int × Int)
  ts : Timestamp
  deriving DecidableEq

inductive FeedEvent where
  | tick (t : FloatTick Extended)
  | quote (q : FeedQuote)
  | depth (d : FeedDepth)
  deriving DecidableEq

def get (fields : Dict String Field) (key : String) : Field := fields.getD key .none

namespace Packet
variable (p : Packet)

def ptype : String :=
  Literal.lower (match p.fields.get "type" with
    | none => ""
    | some v => v.str)

/-- The last traded price; without one it is 0. -/
def ltp : Except Raised Double :=
  match p.fields.get "LTP" with
  | none => .ok zero
  | some v => v.double

def TICK_TYPES : List String := ["ticker data", "quote data", "full data", "market depth"]

def ticks (symbol exchange : String) (ltp : Double) (ts : Timestamp) : Except Raised (List FeedEvent) :=
  if p.ptype ∈ TICK_TYPES then do
    let quantity ← (get p.fields "LTQ").toInt
    return [.tick { symbol, exchange, price := ltp, quantity, ts }]
  else .ok []

def quotes (symbol exchange : String) (ltp : Double) (ts : Timestamp) : Except Raised (List FeedEvent) :=
  if p.ptype ∈ ["quote data", "full data"] then do
    let open_ ← (get p.fields "open").toFloat
    let high ← (get p.fields "high").toFloat
    let low ← (get p.fields "low").toFloat
    let prevClose ← (get p.fields "close").toFloat
    let volume ← (get p.fields "volume").toInt
    let oi ← (get p.fields "OI").toInt
    return [.quote { symbol, exchange, ltp, open_, high, low, prevClose, volume, oi, ts }]
  else .ok []

end Packet

def sideOf (level : Dict String Field) (price : Double) (quantity orders : String) :
    Except Raised (List (Double × Int × Int)) :=
  if Lt zero price then do
    let quantity ← (get level quantity).toInt
    let orders ← (get level orders).toInt
    return [(price, quantity, orders)]
  else .ok []

def levelsOf : List (Option (Dict String Field)) → Except Raised (List (Double × Int × Int) × List (Double × Int × Int))
  | [] => .ok ([], [])
  | none :: levels => levelsOf levels
  | some level :: levels => do
    let bidPx ← (get level "bid_price").toFloat
    let askPx ← (get level "ask_price").toFloat
    let bid ← sideOf level bidPx "bid_quantity" "bid_orders"
    let ask ← sideOf level askPx "ask_quantity" "ask_orders"
    let (bids, asks) ← levelsOf levels
    return (bid ++ bids, ask ++ asks)

def Packet.depths (p : Packet) (symbol exchange : String) (ts : Timestamp) : Except Raised (List FeedEvent) :=
  match p.depth with
  | .empty => .ok []
  | .scalar => .error .typeError
  | .levels levels => do
    let (bids, asks) ← levelsOf levels
    return if bids ≠ [] ∨ asks ≠ [] then [.depth { symbol, exchange, bids, asks, ts }] else []

def dhanPayloadToEvents (symbolMap : SymbolMap) (payload : Payload) (ts : Timestamp) : Except Raised (List FeedEvent) :=
  match payload with
  | .other => .ok []
  | .packet p => do
    match ← lookup symbolMap (get p.fields "security_id") with
    | none => return []
    | some (symbol, exchange) =>
      match p.ltp with
      | .error .overflowError => .error .overflowError
      | .error _ => return []
      | .ok ltp =>
        let ticks ← p.ticks symbol exchange ltp ts
        let quotes ← p.quotes symbol exchange ltp ts
        let depths ← p.depths symbol exchange ts
        return ticks ++ quotes ++ depths

/-- The feed and the candle engine behind it. What the market engine makes of ticks, quotes and depth does not reach
the candles. -/
structure DhanMarketFeedSource where
  symbolMap : SymbolMap
  /-- In microseconds. -/
  dedupTtl : Int := 1000000
  /-- Time, price and quantity of the last tick of a symbol and exchange. -/
  dedupWindow : Dict (String × String) (Int × Double × Int) := Dict.empty
  payloadsIngested : Nat := 0
  /-- The ticks that were published. -/
  published : List (FloatTick Extended) := []
  engine : FloatEngine Extended

namespace DhanMarketFeedSource

/-- What is not a number equals nothing. -/
def sameDouble (x y : Double) : Bool := x = y ∧ x ≠ none

def isDuplicate (t : FloatTick Extended) (s : DhanMarketFeedSource) : Bool :=
  (s.dedupWindow.get (t.symbol, t.exchange)).any fun (ts, price, quantity) =>
    t.ts.micros - ts < s.dedupTtl ∧ sameDouble price t.price ∧ quantity = t.quantity

def dedupeTicks : List FeedEvent → DhanMarketFeedSource → List FeedEvent × DhanMarketFeedSource
  | [], s => ([], s)
  | .tick t :: events, s =>
    if s.isDuplicate t then dedupeTicks events s
    else
      let s := { s with dedupWindow := s.dedupWindow.set (t.symbol, t.exchange) (t.ts.micros, t.price, t.quantity) }
      let (out, s) := dedupeTicks events s
      (.tick t :: out, s)
  | event :: events, s =>
    let (out, s) := dedupeTicks events s
    (event :: out, s)

def publish (s : DhanMarketFeedSource) : FeedEvent → DhanMarketFeedSource
  | .tick t => { s with published := s.published ++ [t], engine := s.engine.onTick t }
  | _ => s

/-- `_on_message`; what the mapping raises ends it. -/
def onMessage (payload : Payload) (now : Timestamp) (s : DhanMarketFeedSource) : DhanMarketFeedSource :=
  match dhanPayloadToEvents s.symbolMap payload now with
  | .error _ => s
  | .ok events =>
    let (events, s) := s.dedupeTicks events
    let s := events.foldl publish s
    { s with payloadsIngested := s.payloadsIngested + 1 }

inductive Act where
  | message (payload : Payload) (now : Timestamp)
  | flush (symbol : Option String)

def step (s : DhanMarketFeedSource) : Act → DhanMarketFeedSource
  | .message payload now => s.onMessage payload now
  | .flush symbol => { s with engine := s.engine.flush symbol }

def run (s : DhanMarketFeedSource) (acts : List Act) : DhanMarketFeedSource := acts.foldl step s

def start (symbolMap : SymbolMap) (timeframe : String) (seconds : Nat) : DhanMarketFeedSource where
  symbolMap := symbolMap
  engine := { timeframe, seconds }

end DhanMarketFeedSource

section Clean

/-- A value satisfies the condition, unless computing it has raised. -/
def Holds {ε α : Type} (P : α → Prop) : Except ε α → Prop
  | .ok a => P a
  | .error _ => True

instance decidableHolds {ε α : Type} {P : α → Prop} [DecidablePred P] : DecidablePred (Holds (ε := ε) P)
  | .ok a => inferInstanceAs (Decidable (P a))
  | .error _ => isTrue trivial

def Packet.Clean (p : Packet) : Prop :=
  Holds (fun price => Lt zero price ∧ Holds (0 ≤ ·) (get p.fields "LTQ").toInt) p.ltp

instance decidableClean (p : Packet) : Decidable p.Clean := inferInstanceAs (Decidable (Holds _ _))

def Payload.Clean (symbolMap : SymbolMap) : Payload → Prop
  | .other => True
  | .packet p => Holds (fun mapping => mapping ≠ none → p.ptype ∈ Packet.TICK_TYPES → p.Clean)
      (lookup symbolMap (get p.fields "security_id"))

instance decidableCleanPayload (symbolMap : SymbolMap) : DecidablePred (Payload.Clean symbolMap)
  | .other => isTrue trivial
  | .packet _ => inferInstanceAs (Decidable (Holds _ _))

def Positive (t : FloatTick Extended) : Prop := Lt zero t.price ∧ 0 ≤ t.quantity

variable {p : Packet} {symbol exchange : String} {ltp : Double} {ts : Timestamp} {events : List FeedEvent}

private theorem tick_quotes (h : p.quotes symbol exchange ltp ts = .ok events) (t : FloatTick Extended) :
    .tick t ∉ events := by
  rw [Packet.quotes] at h
  split at h
  · obtain ⟨_, -, h⟩ := bind_eq_ok h
    obtain ⟨_, -, h⟩ := bind_eq_ok h
    obtain ⟨_, -, h⟩ := bind_eq_ok h
    obtain ⟨_, -, h⟩ := bind_eq_ok h
    obtain ⟨_, -, h⟩ := bind_eq_ok h
    obtain ⟨_, -, h⟩ := bind_eq_ok h
    obtain rfl := Except.ok.inj h
    simp
  · obtain rfl := Except.ok.inj h
    exact List.not_mem_nil

private theorem tick_depths (h : p.depths symbol exchange ts = .ok events) (t : FloatTick Extended) :
    .tick t ∉ events := by
  rw [Packet.depths] at h
  split at h
  · obtain rfl := Except.ok.inj h
    exact List.not_mem_nil
  · cases h
  · obtain ⟨_, -, h⟩ := bind_eq_ok h
    obtain rfl := Except.ok.inj h
    split_ifs <;> simp

/-- The ticks of a payload that has a price. -/
private theorem tick_ticks (h : p.ticks symbol exchange ltp ts = .ok events) :
    (∀ t, .tick t ∈ events → Positive t) ↔
      (p.ptype ∈ Packet.TICK_TYPES → Lt zero ltp ∧ Holds (0 ≤ ·) (get p.fields "LTQ").toInt) := by
  rw [Packet.ticks] at h
  split at h
  · next htype =>
    obtain ⟨quantity, hq, h⟩ := bind_eq_ok h
    obtain rfl := Except.ok.inj h
    rw [hq]
    simp [htype, Positive, Holds]
  · next htype =>
    obtain rfl := Except.ok.inj h
    simp [htype]

/-- A payload that raises nothing gives ticks of positive prices and no negative quantity exactly if it is clean. -/
theorem clean_iff {symbolMap : SymbolMap} {payload : Payload} (h : dhanPayloadToEvents symbolMap payload ts = .ok events) :
    payload.Clean symbolMap ↔ ∀ t, .tick t ∈ events → Positive t := by
  cases payload with
  | other =>
    obtain rfl := Except.ok.inj h
    simp [Payload.Clean]
  | packet p =>
    obtain ⟨mapping, hmap, h⟩ := bind_eq_ok h
    rw [Payload.Clean, hmap, Holds]
    cases mapping with
    | none =>
      obtain rfl := Except.ok.inj h
      simp
    | some mapping =>
      obtain ⟨symbol, exchange⟩ := mapping
      rw [Packet.Clean]
      cases hl : p.ltp with
      | error e =>
        rw [hl] at h
        cases e with
        | overflowError => cases h
        | _ =>
          obtain rfl := Except.ok.inj h
          simp [Holds]
      | ok ltp =>
        rw [hl] at h
        obtain ⟨ticks, ht, h⟩ := bind_eq_ok h
        obtain ⟨quotes, hq, h⟩ := bind_eq_ok h
        obtain ⟨depths, hd, h⟩ := bind_eq_ok h
        obtain rfl := Except.ok.inj h
        simp only [List.mem_append, tick_quotes hq, tick_depths hd, or_false]
        rw [tick_ticks ht]
        simp [Holds]

end Clean

namespace DhanMarketFeedSource
variable {s : DhanMarketFeedSource} {events : List FeedEvent}

/-- Dropping ticks that came twice touches the window alone. -/
private theorem dedupeTicks_frame (events : List FeedEvent) (s : DhanMarketFeedSource) :
    (s.dedupeTicks events).2.symbolMap = s.symbolMap ∧ (s.dedupeTicks events).2.published = s.published ∧
      (s.dedupeTicks events).2.engine = s.engine := by
  induction events generalizing s with
  | nil => exact ⟨rfl, rfl, rfl⟩
  | cons event events ih =>
    cases event with
    | tick t =>
      rw [dedupeTicks]
      split
      · exact ih s
      · exact ih { s with dedupWindow := s.dedupWindow.set (t.symbol, t.exchange) (t.ts.micros, t.price, t.quantity) }
    | _ => exact ih s

private theorem mem_of_mem_dedupeTicks {event : FeedEvent} (h : event ∈ (s.dedupeTicks events).1) : event ∈ events := by
  induction events generalizing s with
  | nil => exact h
  | cons first events ih =>
    cases first with
    | tick t =>
      rw [dedupeTicks] at h
      split at h
      · exact List.mem_cons_of_mem _ (ih h)
      · rcases List.mem_cons.mp h with rfl | h
        · exact List.mem_cons_self
        · exact List.mem_cons_of_mem _ (ih h)
    | _ =>
      rcases List.mem_cons.mp h with rfl | h
      · exact List.mem_cons_self
      · exact List.mem_cons_of_mem _ (ih h)

structure Safe (s : DhanMarketFeedSource) : Prop where
  published : ∀ t ∈ s.published, Lt zero t.price
  engine : s.engine.Sound (number 0)

theorem safe_start (symbolMap : SymbolMap) (timeframe : String) (seconds : Nat) :
    (start symbolMap timeframe seconds).Safe := by
  refine ⟨fun t ht => ?_, fun symbol c hc => ?_, fun c hc => ?_⟩
  · cases ht
  · cases hc
  · cases hc

private theorem safe_publish (h : s.Safe) {event : FeedEvent} (ht : ∀ t, event = .tick t → Positive t) :
    (s.publish event).Safe := by
  cases event with
  | tick t =>
    obtain ⟨hp, hq⟩ := ht t rfl
    refine ⟨fun u hu => ?_, FloatEngine.sound_onTick h.engine hp hq⟩
    rcases List.mem_append.mp hu with hu | hu
    · exact h.published u hu
    · rw [List.mem_singleton.mp hu]
      exact hp
  | _ => exact h

private theorem safe_publishAll (h : s.Safe) (ht : ∀ t, .tick t ∈ events → Positive t) :
    (events.foldl publish s).Safe := by
  induction events generalizing s with
  | nil => exact h
  | cons event events ih =>
    apply ih
    · exact safe_publish h fun t he => ht t (he ▸ List.mem_cons_self)
    · exact fun t hmem => ht t (List.mem_cons_of_mem _ hmem)

/-- A clean payload keeps the candles safe. -/
theorem safe_onMessage (h : s.Safe) {payload : Payload} (hc : payload.Clean s.symbolMap) (now : Timestamp) :
    (s.onMessage payload now).Safe := by
  rw [onMessage]
  cases he : dhanPayloadToEvents s.symbolMap payload now with
  | error e => exact h
  | ok events =>
    obtain ⟨-, hpub, heng⟩ := dedupeTicks_frame events s
    have hs : (s.dedupeTicks events).2.Safe := ⟨hpub ▸ h.published, heng ▸ h.engine⟩
    have hall : ∀ t, .tick t ∈ (s.dedupeTicks events).1 → Positive t :=
      fun t ht => (clean_iff he).mp hc t (mem_of_mem_dedupeTicks ht)
    obtain ⟨hp, heng⟩ := safe_publishAll hs hall
    exact ⟨hp, heng⟩

private theorem symbolMap_publishAll (events : List FeedEvent) (s : DhanMarketFeedSource) :
    (events.foldl publish s).symbolMap = s.symbolMap := by
  induction events generalizing s with
  | nil => rfl
  | cons event events ih =>
    rw [List.foldl_cons, ih]
    cases event <;> rfl

theorem symbolMap_step (s : DhanMarketFeedSource) (a : Act) : (s.step a).symbolMap = s.symbolMap := by
  cases a with
  | message payload now =>
    rw [step, onMessage]
    cases dhanPayloadToEvents s.symbolMap payload now with
    | error e => rfl
    | ok events => exact (symbolMap_publishAll _ _).trans (dedupeTicks_frame events s).1
  | flush symbol => rfl

def Act.Clean (symbolMap : SymbolMap) : Act → Prop
  | .message payload _ => payload.Clean symbolMap
  | .flush _ => True

instance decidableCleanAct (symbolMap : SymbolMap) : DecidablePred (Act.Clean symbolMap)
  | .message payload _ => inferInstanceAs (Decidable (payload.Clean symbolMap))
  | .flush _ => isTrue trivial

private theorem safe_run (h : s.Safe) {acts : List Act} (hc : ∀ a ∈ acts, a.Clean s.symbolMap) : (s.run acts).Safe := by
  induction acts generalizing s with
  | nil => exact h
  | cons a acts ih =>
    have hstep : (s.step a).Safe := by
      cases a with
      | message payload now => exact safe_onMessage h (hc _ List.mem_cons_self) now
      | flush symbol => exact ⟨h.published, FloatEngine.sound_flush h.engine symbol⟩
    apply ih hstep
    rw [symbolMap_step]
    exact fun b hb => hc b (List.mem_cons_of_mem _ hb)

/-- Over clean payloads every tick has a positive price, and every candle that closes has its prices in order above 0
and no negative volume. -/
theorem clean_payloads_keep_candles (symbolMap : SymbolMap) (timeframe : String) (seconds : Nat) (acts : List Act)
    (h : ∀ a ∈ acts, a.Clean symbolMap) :
    (∀ t ∈ ((start symbolMap timeframe seconds).run acts).published, Lt zero t.price) ∧
      ∀ c ∈ ((start symbolMap timeframe seconds).run acts).engine.published, c.Sound (number 0) := by
  obtain ⟨hpub, heng⟩ := safe_run (safe_start symbolMap timeframe seconds) h
  exact ⟨hpub, heng.published⟩

def listed : SymbolMap := Dict.empty.set (.number 2885) ("RELIANCE", "NSE")

def payloadOf (ptype : String) (fields : List (String × Field)) : Payload :=
  let named := (Dict.empty.set "type" (.text ptype)).set "security_id" (.int 2885)
  .packet { fields := fields.foldl (fun d f => d.set f.1 f.2) named }

def trades : List Act := [
  .message (payloadOf "Ticker Data" [("LTP", .text "2450.00")]) (.aware 0),
  .message (payloadOf "Ticker Data" [("LTP", .text "2450.00")]) (.aware 500000),
  .message (payloadOf "Quote Data" [("LTP", .text "2451.50"), ("LTQ", .int 10)]) (.aware 60000000)]

theorem trades_keep_candles :
    (∀ a ∈ trades, a.Clean listed) ∧ (((start listed "1m" 60).run trades).published.map FloatTick.quantity = [0, 10]) ∧
      (∀ t ∈ ((start listed "1m" 60).run trades).published, Lt zero t.price) ∧
        ∀ c ∈ ((start listed "1m" 60).run trades).engine.published, c.Sound (number 0) := by
  have h : ∀ a ∈ trades, a.Clean listed := by decide +kernel
  refine ⟨h, by decide +kernel, clean_payloads_keep_candles listed "1m" 60 trades h⟩

/-- A quote without a last traded price is published as a tick of price 0, and the candle opens and has its low there. -/
theorem missing_price_opens_at_zero :
    let s := (start listed "1m" 60).run [
      .message (payloadOf "Quote Data" [("LTQ", .int 10)]) (.aware 0),
      .message (payloadOf "Quote Data" [("LTP", .text "2451.50"), ("LTQ", .int 10)]) (.aware 1000000),
      .flush none]
    (¬ ∀ t ∈ s.published, Lt zero t.price) ∧ (¬ ∀ c ∈ s.engine.published, Lt zero c.low) ∧
      s.engine.published.map (fun c => (c.open_, c.low, c.close)) = [(zero, zero, some (number (4903 / 2)))] := by
  decide +kernel

end DhanMarketFeedSource
end NTrade.Sources
