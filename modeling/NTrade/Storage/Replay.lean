import NTrade.Engines.PortfolioEngine
import NTrade.Lib.RankedSort

/-! Recovery of the ledger. The store hears of an event after every other handler, so what a
handler publishes is recorded before the event it reacts to, while the portfolio engine takes a
fill where its own turn comes. -/
namespace NTrade.Storage
open NTrade.Domain NTrade.Events NTrade.Engines NTrade.Lib

inductive StoreEvent where
  /-- A tick, a quote or a depth. -/
  | market (name : String) (ts : Rat)
  | filled (e : OrderFilled)
  | position (e : PositionUpdated)
  | balance (e : BalanceChanged)
  /-- A signal, an order, a candle, the lifecycle. -/
  | other (name : String) (ts : Rat)

namespace StoreEvent

def ts : StoreEvent → Rat
  | market _ ts => ts
  | filled e => e.ts
  | position e => e.ts
  | balance e => e.ts
  | other _ ts => ts

def recovers : StoreEvent → Bool
  | market _ _ => true
  | filled _ => true
  | _ => false

/-- Market data goes ahead of fills of the same time. -/
def key (e : StoreEvent) : Rat ×ₗ Nat :=
  match e with
  | market _ ts => toLex (ts, 0)
  | e => toLex (e.ts, 1)

def fill : StoreEvent → Option OrderFilled
  | filled e => some e
  | _ => none

end StoreEvent

/-- A call of `publish`, with the calls that its handlers make. The handlers of a fill come
before the portfolio engine, hear of the position and the balance it publishes, or come after
it. -/
inductive Publication where
  | market (name : String) (ts : Rat) (handlers : List Publication)
  | other (name : String) (ts : Rat) (handlers : List Publication)
  | fill (e : OrderFilled) (ahead onPosition onBalance behind : List Publication)

/-- What recovery is about: the ledger and the store of a kernel. -/
structure Ledger where
  ctx : TradingContext
  store : List StoreEvent := []

namespace Ledger

def fresh (cash : Rat) : Ledger where
  ctx := { balance := cash }

/-- `_record`, the last handler of every event. -/
def record (e : StoreEvent) (k : Ledger) : Ledger := { k with store := k.store ++ [e] }

mutual
/-- `EventBus.publish`, with the portfolio engine and the store on the bus. -/
def publish : Publication → Ledger → Ledger
  | .market name ts handlers, k => (publishAll handlers k).record (.market name ts)
  | .other name ts handlers, k => (publishAll handlers k).record (.other name ts)
  | .fill e ahead onPosition onBalance behind, k =>
    let k := publishAll ahead k
    let k := { k with ctx := onFilled e k.ctx }
    let position := (announce e k.ctx).1
    let k := (publishAll onPosition k).record (.position position)
    let balance := (announce e k.ctx).2
    let k := (publishAll onBalance k).record (.balance balance)
    (publishAll behind k).record (.filled e)
def publishAll : List Publication → Ledger → Ledger
  | [], k => k
  | p :: ps, k => publishAll ps (publish p k)
end

end Ledger

/-- `recovery_events`: sorted by time, market data first, then by the place in the store. -/
def recoveryEvents (events : List StoreEvent) : List StoreEvent :=
  (RankedSort.sort StoreEvent.key (events.zipIdx.filter fun p => p.1.recovers)).map Prod.fst

/-- A recorded event, published to a kernel without strategies. What the market, candle and
indicator engines derive from it submits no order. -/
def replayed (derived : StoreEvent → List (String × Rat)) (e : StoreEvent) : Publication :=
  match e with
  | .filled e => .fill e [] [] [] []
  | .market name ts => .market name ts ((derived e).map fun d => .other d.1 d.2 [])
  | e => .other "" e.ts []

def runReplay (derived : StoreEvent → List (String × Rat)) (events : List StoreEvent) (k : Ledger) : Ledger :=
  k.publishAll (events.map (replayed derived))

namespace Publication

mutual
/-- The fills in the order the portfolio engine takes them. -/
def applied : Publication → List OrderFilled
  | .market _ _ handlers => appliedAll handlers
  | .other _ _ handlers => appliedAll handlers
  | .fill e ahead onPosition onBalance behind =>
    appliedAll ahead ++ e :: (appliedAll onPosition ++ appliedAll onBalance ++ appliedAll behind)
def appliedAll : List Publication → List OrderFilled
  | [] => []
  | p :: ps => applied p ++ appliedAll ps
end

mutual
/-- While a fill that is in the ledger is in dispatch, no other fill of its time is published. -/
def Settles : Publication → Prop
  | .market _ _ handlers => SettlesAll handlers
  | .other _ _ handlers => SettlesAll handlers
  | .fill e ahead onPosition onBalance behind =>
    SettlesAll ahead ∧ SettlesAll onPosition ∧ SettlesAll onBalance ∧ SettlesAll behind ∧
      ∀ f ∈ appliedAll onPosition ++ appliedAll onBalance ++ appliedAll behind, f.ts ≠ e.ts
def SettlesAll : List Publication → Prop
  | [] => True
  | p :: ps => Settles p ∧ SettlesAll ps
end

mutual
/-- The fills in the order the store records them. -/
def stored : Publication → List OrderFilled
  | .market _ _ handlers => storedAll handlers
  | .other _ _ handlers => storedAll handlers
  | .fill e ahead onPosition onBalance behind =>
    storedAll ahead ++ (storedAll onPosition ++ (storedAll onBalance ++ (storedAll behind ++ [e])))
def storedAll : List Publication → List OrderFilled
  | [] => []
  | p :: ps => stored p ++ storedAll ps
end

end Publication

section Run
open Publication Ledger

private theorem afterFills_append (fills more : List OrderFilled) (ctx : TradingContext) :
    afterFills (fills ++ more) ctx = afterFills more (afterFills fills ctx) := List.foldl_append

private theorem afterFills_cons (e : OrderFilled) (fills : List OrderFilled) (ctx : TradingContext) :
    afterFills (e :: fills) ctx = afterFills fills (onFilled e ctx) := rfl

mutual
/-- The ledger takes the fills in the order of application. -/
theorem ctx_publish : ∀ (p : Publication) (k : Ledger), (k.publish p).ctx = afterFills p.applied k.ctx
  | .market _ _ handlers, k => ctx_publishAll handlers k
  | .other _ _ handlers, k => ctx_publishAll handlers k
  | .fill e ahead onPosition onBalance behind, k => by
    simp only [publish, record, ctx_publishAll, applied, afterFills_append, afterFills_cons]
theorem ctx_publishAll : ∀ (ps : List Publication) (k : Ledger),
    (k.publishAll ps).ctx = afterFills (appliedAll ps) k.ctx
  | [], _ => rfl
  | p :: ps, k => by rw [publishAll, ctx_publishAll ps, ctx_publish p, appliedAll, afterFills_append]
end

def fills (events : List StoreEvent) : List OrderFilled := events.filterMap StoreEvent.fill

private theorem fills_append (events more : List StoreEvent) : fills (events ++ more) = fills events ++ fills more :=
  List.filterMap_append

mutual
/-- The store takes them in the order in which they end. -/
theorem store_publish : ∀ (p : Publication) (k : Ledger), fills (k.publish p).store = fills k.store ++ p.stored
  | .market _ _ handlers, k => by
    simp only [publish, record, fills_append, store_publishAll handlers k, stored]
    exact List.append_nil _
  | .other _ _ handlers, k => by
    simp only [publish, record, fills_append, store_publishAll handlers k, stored]
    exact List.append_nil _
  | .fill e ahead onPosition onBalance behind, k => by
    have hposition (e : PositionUpdated) : fills [.position e] = [] := rfl
    have hbalance (e : BalanceChanged) : fills [.balance e] = [] := rfl
    simp only [publish, record, fills_append, store_publishAll, hposition, hbalance, List.append_nil, stored,
      List.append_assoc]
    rfl
theorem store_publishAll : ∀ (ps : List Publication) (k : Ledger),
    fills (k.publishAll ps).store = fills k.store ++ storedAll ps
  | [], _ => (List.append_nil _).symm
  | p :: ps, k => by rw [publishAll, store_publishAll ps, store_publish p, storedAll, List.append_assoc]
end

mutual
/-- Fills of one time are recorded in the order in which they are applied, if each settles. -/
theorem filter_stored (t : Rat) : ∀ p : Publication, p.Settles →
    p.stored.filter (fun e => e.ts = t) = p.applied.filter fun e => e.ts = t
  | .market _ _ handlers, h => filter_storedAll t handlers h
  | .other _ _ handlers, h => filter_storedAll t handlers h
  | .fill e ahead onPosition onBalance behind, h => by
    obtain ⟨ha, hp, hb, hc, hne⟩ := h
    simp only [stored, applied, List.filter_append, List.filter_cons, List.filter_nil,
      filter_storedAll t ahead ha, filter_storedAll t onPosition hp, filter_storedAll t onBalance hb,
      filter_storedAll t behind hc]
    by_cases het : e.ts = t
    · have hnil : (appliedAll onPosition ++ appliedAll onBalance ++ appliedAll behind).filter (fun e => e.ts = t) = [] := by
        refine List.filter_eq_nil_iff.mpr fun f hf => ?_
        rw [decide_eq_true_eq, ← het]
        exact hne f hf
      simp only [List.filter_append, List.append_eq_nil_iff] at hnil
      simp [het, hnil.1.1, hnil.1.2, hnil.2]
    · simp [het]
theorem filter_storedAll (t : Rat) : ∀ ps : List Publication, SettlesAll ps →
    (storedAll ps).filter (fun e => e.ts = t) = (appliedAll ps).filter fun e => e.ts = t
  | [], _ => rfl
  | p :: ps, h => by
    rw [storedAll, appliedAll, List.filter_append, List.filter_append, filter_stored t p h.1,
      filter_storedAll t ps h.2]
end

end Run

section Recovery
open Publication Ledger

private theorem fills_key (l : List (StoreEvent × Nat)) (t : Rat) :
    (fills (l.map Prod.fst)).filter (fun e => e.ts = t) =
      fills ((l.filter fun p => p.1.key = toLex (t, 1)).map Prod.fst) := by
  induction l with
  | nil => rfl
  | cons p l ih =>
    obtain ⟨e, i⟩ := p
    have hcons (rest : List StoreEvent) : fills (e :: rest) = e.fill.toList ++ fills rest := by
      cases e <;> rfl
    rw [List.map_cons, hcons, List.filter_append, ih, List.filter_cons]
    by_cases hk : e.key = toLex (t, 1)
    · rw [if_pos (by simpa using hk), List.map_cons, hcons]
      congr 1
      cases e with
      | filled f =>
        have hts : f.ts = t := (Prod.mk.inj (toLex.injective hk)).1
        simp [StoreEvent.fill, hts]
      | _ => rfl
    · rw [if_neg (by simpa using hk)]
      cases e with
      | filled f =>
        have hts : f.ts ≠ t := by
          rintro rfl
          exact hk rfl
        simp [StoreEvent.fill, hts]
      | _ => rfl

private theorem fills_recovers (events : List StoreEvent) (n : Nat) :
    fills (((events.zipIdx n).filter fun p => p.1.recovers).map Prod.fst) = fills events := by
  induction events generalizing n with
  | nil => rfl
  | cons e events ih =>
    rw [List.zipIdx_cons, List.filter_cons]
    cases e with
    | market name ts => exact ih (n + 1)
    | filled f => exact congrArg (f :: ·) (ih (n + 1))
    | _ => exact ih (n + 1)

private theorem pairwise_fills {l : List StoreEvent} (h : l.Pairwise fun a b => a.key ≤ b.key) :
    (fills l).Pairwise fun a b => a.ts ≤ b.ts := by
  refine List.pairwise_filterMap.mpr (h.imp ?_)
  intro a b hab e he f hf
  cases a with
  | filled a =>
    cases b with
    | filled b =>
      cases he
      cases hf
      rcases Prod.Lex.le_iff.mp hab with h | h
      · exact h.le
      · exact h.1.le
    | _ => cases hf
  | _ => cases he

/-- The fills that recovery replays, by their times, in the order of the store. -/
theorem fills_recoveryEvents {events : List StoreEvent} {applied : List OrderFilled}
    (ha : applied.Pairwise fun e f => e.ts ≤ f.ts)
    (hf : ∀ t, (fills events).filter (fun e => e.ts = t) = applied.filter fun e => e.ts = t) :
    fills (recoveryEvents events) = applied := by
  have hnum : (events.zipIdx.filter fun p => p.1.recovers).Pairwise fun p q => p.2 < q.2 :=
    List.Pairwise.filter _ (List.pairwise_iff_getElem.mpr fun i j hi hj hij => by simpa using hij)
  refine RankedSort.eq_of_filter_eq OrderFilled.ts ?_ ha ?_
  · exact pairwise_fills (List.pairwise_map.mpr (RankedSort.pairwise_key_sort StoreEvent.key _))
  · intro t
    rw [← hf t, recoveryEvents, fills_key, RankedSort.filter_sort StoreEvent.key hnum, ← fills_key, fills_recovers]

private theorem appliedAll_others (ds : List (String × Rat)) : appliedAll (ds.map fun d => .other d.1 d.2 []) = [] := by
  induction ds with
  | nil => rfl
  | cons d ds ih => exact ih

private theorem appliedAll_replayed (derived : StoreEvent → List (String × Rat)) (events : List StoreEvent) :
    appliedAll (events.map (replayed derived)) = fills events := by
  induction events with
  | nil => rfl
  | cons e events ih =>
    rw [List.map_cons, appliedAll, ih]
    cases e with
    | market name ts =>
      rw [replayed, applied, appliedAll_others]
      rfl
    | _ => rfl

/-- A replay applies the fills in the order of its events. -/
theorem ctx_runReplay (derived : StoreEvent → List (String × Rat)) (events : List StoreEvent) (k : Ledger) :
    (runReplay derived events k).ctx = afterFills (fills events) k.ctx := by
  rw [runReplay, ctx_publishAll, appliedAll_replayed]

def books (ctx : TradingContext) : List (String × Int × Rat) × Rat :=
  (ctx.positions.map fun p => (p.symbol, p.quantity, p.avgPrice), ctx.balance)

/-- Recovery rebuilds the ledger of every run in which the fills enter it in the order of their
times, each of them settled before the next one of its time is published. -/
theorem replay_recovers_ledger (derived : StoreEvent → List (String × Rat)) (cash : Rat) (run : List Publication)
    (hs : SettlesAll run) (hm : (appliedAll run).Pairwise fun e f => e.ts ≤ f.ts) :
    books (runReplay derived (recoveryEvents ((fresh cash).publishAll run).store) (fresh cash)).ctx =
      books ((fresh cash).publishAll run).ctx := by
  have hstore : fills ((fresh cash).publishAll run).store = storedAll run := store_publishAll run (fresh cash)
  have hf (t : Rat) : (fills ((fresh cash).publishAll run).store).filter (fun e => e.ts = t) =
      (appliedAll run).filter fun e => e.ts = t := by
    rw [hstore]
    exact filter_storedAll t run hs
  rw [ctx_runReplay, ctx_publishAll, fills_recoveryEvents hm hf]

def ordered (ts : Rat) (fill : Publication) : Publication :=
  .other "SignalGeneratedEvent" ts [.other "SignalApprovedEvent" ts [.other "OrderIntentEvent" ts [],
    .other "OrderAcceptedEvent" ts [], fill]]

def trade (orderId : String) (ts : Rat) (side : String) (quantity : Int) (price : Rat) : OrderFilled :=
  { orderId, symbol := "TCS", exchange := "NSE", side, quantity, fillPrice := price, ts }

def twoBuys (second : Publication) : List Publication :=
  [.market "TickEvent" 1 [.other "QuoteUpdatedEvent" 1 [], ordered 1 (.fill (trade "SIM-000001" 1 "BUY" 10 100) [] [] [] [])],
    .market "TickEvent" 2 [.other "QuoteUpdatedEvent" 2 [], ordered 2 second]]

def soldAhead : Publication :=
  .fill (trade "SIM-000002" 2 "BUY" 10 120) [ordered 2 (.fill (trade "SIM-000003" 2 "SELL" 5 120) [] [] [] [])] [] [] []

def soldBehind : Publication :=
  .fill (trade "SIM-000002" 2 "BUY" 10 120) [] [ordered 2 (.fill (trade "SIM-000003" 2 "SELL" 5 120) [] [] [] [])] [] []

/-- A sale before the position is there is recovered. -/
theorem sale_ahead_is_recovered :
    books (runReplay (fun _ => []) (recoveryEvents ((fresh 10000).publishAll (twoBuys soldAhead)).store) (fresh 10000)).ctx =
      books ((fresh 10000).publishAll (twoBuys soldAhead)).ctx := by
  refine replay_recovers_ledger _ _ _ ?_ ?_
  · simp [twoBuys, soldAhead, ordered, SettlesAll, Settles, appliedAll]
  · simp [twoBuys, soldAhead, ordered, applied, appliedAll, trade]

/-- A sale behind it is not: it is recorded before the buy that it reacts to, and replayed against
the position before that. -/
theorem sale_behind_is_replayed_early :
    books (runReplay (fun _ => []) (recoveryEvents ((fresh 10000).publishAll (twoBuys soldBehind)).store) (fresh 10000)).ctx ≠
      books ((fresh 10000).publishAll (twoBuys soldBehind)).ctx := by
  decide +kernel

end Recovery

end NTrade.Storage
