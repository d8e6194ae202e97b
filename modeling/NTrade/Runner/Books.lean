import NTrade.Engines.PortfolioEngine
import NTrade.Engines.PositionSync
import NTrade.Execution.Refinement
import Mathlib.Algebra.Group.Submonoid.BigOperators

/-! The books of the kernel and of the broker. A fill at the venue reaches the kernel twice:
as an event of the executor that reports it, and in the account that a sync imports. -/
namespace NTrade.Runner
open NTrade.Domain NTrade.Events NTrade.Engines NTrade.Execution NTrade.Lib

structure Venue where
  symbol : String → String
  buys : String → Bool
  charge : String → Int → Rat → Rat

structure BrokerAccount where
  shares : Dict String Int := Dict.empty
  cash : Rat := 0

def Venue.shares (v : Venue) (symbol : String) : Obs → Int
  | .executed orderId quantity _ =>
    if v.symbol orderId = symbol then if v.buys orderId then quantity else -quantity else 0
  | _ => 0

def Venue.money (v : Venue) : Obs → Rat
  | .executed orderId quantity price =>
    (if v.buys orderId then -(quantity * price) else quantity * price) - v.charge orderId quantity price
  | _ => 0

def BrokerAccount.book (v : Venue) (account : BrokerAccount) (o : Obs) : BrokerAccount :=
  match o with
  | .executed orderId _ _ =>
    { shares := account.shares.set (v.symbol orderId)
        (account.shares.getD (v.symbol orderId) 0 + v.shares (v.symbol orderId) o)
      cash := account.cash + v.money o }
  | _ => account

def fillIn : Obs → Option OrderFilled
  | .event ⟨_, .filled e⟩ => some e
  | _ => none

def fillShares (symbol : String) (o : Obs) : Int :=
  ((fillIn o).map fun e => if e.symbol = symbol then e.signedQuantity else 0).getD 0

def fillMoney (o : Obs) : Rat := ((fillIn o).map fun e => proceeds e - charges e).getD 0

def bookFill (ctx : TradingContext) (o : Obs) : TradingContext :=
  match fillIn o with
  | none => ctx
  | some e => onFilled e ctx

/-- How the broker answers a sync: which requests fail, whether flat symbols are listed,
and the columns of a row besides its symbol and quantity. -/
structure SyncAnswers where
  positions : Bool := true
  balance : Bool := true
  reportsCash : Bool := true
  listsFlat : Bool := true
  columns : String → BrokerPosition
  now : Rat := 0

def BrokerAccount.report (account : BrokerAccount) (a : SyncAnswers) : BrokerReport where
  positions :=
    if a.positions then
      some ((account.shares.entries.filter fun e => a.listsFlat || e.2 ≠ 0).map fun e =>
        { a.columns e.1 with symbol := e.1, quantity := some e.2 })
    else none
  balance := if a.balance then some account.cash else none
  reportsCash := a.reportsCash

/-- The executor, the kernel's book and the broker's, and the traces as they were when the
last sync imported positions and when it imported cash. -/
structure Session where
  world : World := {}
  ctx : TradingContext
  broker : BrokerAccount
  sharesSettled : List Obs := []
  cashSettled : List Obs := []

inductive SessionMove where
  | exec (s : Step)
  | sync (a : SyncAnswers)

def sessionMove (cfg : Config) (v : Venue) (s : Session) : SessionMove → Session
  | .exec e =>
    let world := step cfg s.world e
    let new := world.trace.drop s.world.trace.length
    { s with
      world
      ctx := new.foldl bookFill s.ctx
      broker := new.foldl (BrokerAccount.book v) s.broker }
  | .sync a =>
    let report := s.broker.report a
    { s with
      ctx := (sync report a.now s.ctx).ctx
      sharesSettled := if a.positions then s.world.trace else s.sharesSettled
      cashSettled := if a.positions && a.balance && a.reportsCash then s.world.trace else s.cashSettled }

def runSession (cfg : Config) (v : Venue) (moves : List SessionMove) (s : Session) : Session :=
  moves.foldl (sessionMove cfg v) s

structure Opening where
  ctx : TradingContext
  broker : BrokerAccount
  unique : (ctx.positions.map Domain.Position.symbol).Nodup
  shares : ∀ symbol, ctx.quantity symbol = broker.shares.getD symbol 0
  cash : ctx.balance = broker.cash

def Opening.session (o : Opening) : Session where
  ctx := o.ctx
  broker := o.broker

def reportedShares (symbol : String) (t : List Obs) : Int := Trace.total (fillShares symbol) t

def executedShares (v : Venue) (symbol : String) (t : List Obs) : Int := Trace.total (v.shares symbol) t

def reportedMoney (t : List Obs) : Rat := Trace.total fillMoney t

def executedMoney (v : Venue) (t : List Obs) : Rat := Trace.total v.money t

def SharesReported (v : Venue) (t : List Obs) : Prop :=
  ∀ symbol, reportedShares symbol t = executedShares v symbol t

/-- The fills reported have moved the cash that the broker has moved. -/
def MoneyReported (v : Venue) (t : List Obs) : Prop := reportedMoney t = executedMoney v t

def Venue.symbolsOf (v : Venue) : Obs → List String
  | .event ⟨_, .filled e⟩ => [e.symbol]
  | .executed orderId _ _ => [v.symbol orderId]
  | _ => []

theorem moves_nothing {v : Venue} {symbol : String} {o : Obs} (h : symbol ∉ v.symbolsOf o) :
    fillShares symbol o = 0 ∧ v.shares symbol o = 0 := by
  cases o with
  | executed orderId quantity price => exact ⟨rfl, if_neg fun he => h (List.mem_singleton.mpr he.symm)⟩
  | event e =>
    obtain ⟨stamp, body⟩ := e
    refine ⟨?_, rfl⟩
    cases body with
    | filled e => exact if_neg fun he => h (List.mem_singleton.mpr he.symm)
    | _ => rfl
  | _ => exact ⟨rfl, rfl⟩

instance (v : Venue) (t : List Obs) : Decidable (SharesReported v t) :=
  decidable_of_iff (∀ symbol ∈ t.flatMap v.symbolsOf, reportedShares symbol t = executedShares v symbol t) (by
    constructor
    · intro h symbol
      by_cases hs : symbol ∈ t.flatMap v.symbolsOf
      · exact h symbol hs
      · have hnone (o : Obs) (ho : o ∈ t) := moves_nothing fun hm => hs (List.mem_flatMap.mpr ⟨o, ho, hm⟩)
        have hr : t.map (fillShares symbol) = t.map (v.shares symbol) := by
          apply List.map_congr_left
          intro o ho
          obtain ⟨h1, h2⟩ := hnone o ho
          rw [h1, h2]
        unfold reportedShares executedShares Trace.total
        rw [hr]
    · intro h symbol _
      exact h symbol)

instance (v : Venue) (t : List Obs) : Decidable (MoneyReported v t) :=
  inferInstanceAs (Decidable (reportedMoney t = executedMoney v t))

def SharesAgree (s : Session) : Prop := ∀ symbol, s.ctx.quantity symbol = s.broker.shares.getD symbol 0

def CashAgrees (s : Session) : Prop := s.ctx.balance = s.broker.cash

section Book
variable {v : Venue} {ctx : TradingContext} {account : BrokerAccount} {symbol : String}

theorem nodup_bookFills (t : List Obs) (h : (ctx.positions.map Domain.Position.symbol).Nodup) :
    ((t.foldl bookFill ctx).positions.map Domain.Position.symbol).Nodup := by
  induction t generalizing ctx with
  | nil => exact h
  | cons o t ih =>
    apply ih
    unfold bookFill
    split
    · exact h
    · exact onFilled_positions_nodup h

theorem quantity_bookFills (t : List Obs) (h : (ctx.positions.map Domain.Position.symbol).Nodup) :
    (t.foldl bookFill ctx).quantity symbol = ctx.quantity symbol + reportedShares symbol t := by
  induction t generalizing ctx with
  | nil => exact (add_zero _).symm
  | cons o t ih =>
    have hone : (bookFill ctx o).quantity symbol = ctx.quantity symbol + fillShares symbol o := by
      unfold bookFill fillShares
      split
      · next hn => simp [hn]
      · next e he =>
        rw [he]
        exact quantity_onFilled h
    have hn : ((bookFill ctx o).positions.map Domain.Position.symbol).Nodup := nodup_bookFills [o] h
    rw [List.foldl_cons, ih hn, hone, reportedShares, reportedShares, Trace.total_cons, add_assoc]

theorem shares_book (t : List Obs) :
    (t.foldl (BrokerAccount.book v) account).shares.getD symbol 0 =
      account.shares.getD symbol 0 + executedShares v symbol t := by
  induction t generalizing account with
  | nil => exact (add_zero _).symm
  | cons o t ih =>
    have hone : (account.book v o).shares.getD symbol 0 = account.shares.getD symbol 0 + v.shares symbol o := by
      cases o with
      | executed orderId quantity price =>
        simp only [BrokerAccount.book, Dict.getD, Dict.get_set]
        by_cases hs : symbol = v.symbol orderId
        · subst hs
          simp
        · simp [hs, Venue.shares, Ne.symm hs]
      | _ => exact (add_zero _).symm
    rw [List.foldl_cons, ih, hone, executedShares, executedShares, Trace.total_cons, add_assoc]

theorem cash_book (t : List Obs) :
    (t.foldl (BrokerAccount.book v) account).cash = account.cash + executedMoney v t := by
  induction t generalizing account with
  | nil => exact (add_zero _).symm
  | cons o t ih =>
    have hone : (account.book v o).cash = account.cash + v.money o := by
      cases o with
      | executed orderId quantity price => rfl
      | _ => exact (add_zero _).symm
    rw [List.foldl_cons, ih, hone, executedMoney, executedMoney, Trace.total_cons, add_assoc]

/-- The broker's report has the account of a symbol, or no row for a flat one. -/
theorem rowsOf_report (a : SyncAnswers) (rows : List BrokerPosition) (h : (account.report a).positions = some rows) :
    (((rowsOf symbol rows).getLast?).map fun bp => toInt bp.quantity).getD 0 = account.shares.getD symbol 0 := by
  unfold BrokerAccount.report at h
  dsimp only at h
  split at h
  · obtain rfl := Option.some.inj h
    have hrow : ((fun bp : BrokerPosition => decide (bp.symbol = symbol)) ∘
        fun e : String × Int => { a.columns e.1 with symbol := e.1, quantity := some e.2 }) =
        fun e => decide (e.1 = symbol) := rfl
    rw [rowsOf, List.filter_map, hrow, List.filter_comm, Dict.filter_key, Dict.getD]
    cases hg : account.shares.get symbol with
    | none => rfl
    | some q =>
      suffices hq : (if a.listsFlat = true ∨ ¬q = 0 then some q else none).getD 0 = q by simpa using hq
      split
      · rfl
      · next hq =>
        obtain ⟨-, hq⟩ := not_or.mp hq
        exact (not_not.mp hq).symm
  · cases h

/-- A sync that fetches the positions leaves the kernel with the broker's shares. -/
theorem quantity_sync_report (a : SyncAnswers) (ha : a.positions = true) :
    (sync (account.report a) a.now ctx).ctx.quantity symbol = account.shares.getD symbol 0 := by
  have hp : (account.report a).positions = some _ := if_pos ha
  rw [quantity_sync _ _ _ hp]
  exact rowsOf_report a _ hp

end Book

section Session
variable {cfg : Config} {v : Venue} {o : Opening} {s : Session}

/-- What the two books hold of a symbol, by what was executed and reported since the start
and since the last import. -/
structure SharesKept (v : Venue) (o : Opening) (s : Session) : Prop where
  unique : (s.ctx.positions.map Domain.Position.symbol).Nodup
  broker : ∀ symbol, s.broker.shares.getD symbol 0 =
    o.broker.shares.getD symbol 0 + executedShares v symbol s.world.trace
  kernel : ∀ symbol, s.ctx.quantity symbol = o.broker.shares.getD symbol 0 + executedShares v symbol s.sharesSettled +
    (reportedShares symbol s.world.trace - reportedShares symbol s.sharesSettled)

/-- Every price, charge and amount of cash has the four decimals that balances are kept in. -/
def InFourDecimals (v : Venue) (t : List Obs) : Prop :=
  ∀ o ∈ t, (∀ e, fillIn o = some e → OnGrid e) ∧ v.money o ∈ grid PRICE_PRECISION

structure CashKept (v : Venue) (o : Opening) (s : Session) : Prop where
  onGrid : s.ctx.balance ∈ grid PRICE_PRECISION
  brokerOnGrid : s.broker.cash ∈ grid PRICE_PRECISION
  broker : s.broker.cash = o.broker.cash + executedMoney v s.world.trace
  kernel : s.ctx.balance = o.broker.cash + executedMoney v s.cashSettled +
    (reportedMoney s.world.trace - reportedMoney s.cashSettled)

private theorem step_trace (e : Step) (w : World) :
    (step cfg w e).trace = w.trace ++ (step cfg w e).trace.drop w.trace.length := by
  have hadds : Adds w (step cfg w e) := (step_sounds e w).1
  obtain ⟨new, ht, -⟩ := hadds
  rw [ht, List.drop_left]

theorem SharesKept.move (h : SharesKept v o s) (m : SessionMove) : SharesKept v o (sessionMove cfg v s m) := by
  cases m with
  | exec e =>
    refine ⟨nodup_bookFills _ h.unique, fun symbol => ?_, fun symbol => ?_⟩
    · show ((_ : List Obs).foldl (BrokerAccount.book v) s.broker).shares.getD symbol 0 =
        o.broker.shares.getD symbol 0 + executedShares v symbol (step cfg s.world e).trace
      rw [shares_book, h.broker symbol, step_trace, executedShares, executedShares, executedShares, Trace.total_append,
        List.drop_left, add_assoc]
    · show ((_ : List Obs).foldl bookFill s.ctx).quantity symbol = o.broker.shares.getD symbol 0 +
        executedShares v symbol s.sharesSettled +
          (reportedShares symbol (step cfg s.world e).trace - reportedShares symbol s.sharesSettled)
      rw [quantity_bookFills _ h.unique, h.kernel symbol, step_trace, reportedShares, reportedShares, reportedShares,
        reportedShares, Trace.total_append, List.drop_left]
      omega
  | sync a =>
    refine ⟨nodup_sync _ _ _ h.unique, h.broker, fun symbol => ?_⟩
    unfold sessionMove
    dsimp only
    by_cases ha : a.positions = true
    · rw [if_pos ha, quantity_sync_report a ha, h.broker symbol]
      omega
    · rw [if_neg ha]
      have hnone : (s.broker.report a).positions = none := if_neg ha
      have hkeep : (sync (s.broker.report a) a.now s.ctx).ctx = s.ctx := by
        unfold sync
        rw [hnone]
      rw [hkeep]
      exact h.kernel symbol

private theorem money_bookFill {ctx : TradingContext} {o : Obs} (hc : ctx.balance ∈ grid PRICE_PRECISION)
    (ho : ∀ e, fillIn o = some e → OnGrid e) :
    (bookFill ctx o).balance = ctx.balance + fillMoney o ∧ (bookFill ctx o).balance ∈ grid PRICE_PRECISION := by
  unfold bookFill fillMoney
  cases hf : fillIn o with
  | none => exact ⟨(add_zero _).symm, hc⟩
  | some e =>
    have he := ho e hf
    have hnew : ctx.balance + proceeds e - charges e ∈ grid PRICE_PRECISION :=
      sub_mem (add_mem hc (proceeds_mem he)) (charges_mem he)
    have hround : (onFilled e ctx).balance = ctx.balance + proceeds e - charges e := round_of_mem hnew
    refine ⟨?_, ?_⟩
    · show (onFilled e ctx).balance = ctx.balance + (proceeds e - charges e)
      rw [hround, add_sub_assoc]
    · show (onFilled e ctx).balance ∈ _
      rw [hround]
      exact hnew

private theorem money_bookFills (t : List Obs) {ctx : TradingContext} (hc : ctx.balance ∈ grid PRICE_PRECISION)
    (ht : InFourDecimals v t) :
    (t.foldl bookFill ctx).balance = ctx.balance + reportedMoney t ∧
      (t.foldl bookFill ctx).balance ∈ grid PRICE_PRECISION := by
  induction t generalizing ctx with
  | nil => exact ⟨(add_zero _).symm, hc⟩
  | cons o t ih =>
    obtain ⟨hone, hmem⟩ := money_bookFill hc (ht o List.mem_cons_self).1
    obtain ⟨hall, hgrid⟩ := ih hmem fun o ho => ht o (List.mem_cons_of_mem _ ho)
    refine ⟨?_, hgrid⟩
    rw [List.foldl_cons, hall, hone, reportedMoney, reportedMoney, Trace.total_cons, add_assoc]

private theorem executedMoney_mem {t : List Obs} (ht : InFourDecimals v t) : executedMoney v t ∈ grid PRICE_PRECISION := by
  apply list_sum_mem
  intro x hx
  obtain ⟨o, ho, rfl⟩ := List.mem_map.mp hx
  exact (ht o ho).2

private theorem InFourDecimals.of_append {t u : List Obs} (h : InFourDecimals v (t ++ u)) :
    InFourDecimals v t ∧ InFourDecimals v u :=
  ⟨fun o ho => h o (List.mem_append_left _ ho), fun o ho => h o (List.mem_append_right _ ho)⟩

/-- A sync that fetches both positions and cash leaves the kernel with the broker's cash,
any other one with its own. -/
private theorem balance_sync_report (a : SyncAnswers) {account : BrokerAccount} (ctx : TradingContext)
    (hb : account.cash ∈ grid PRICE_PRECISION) :
    (sync (account.report a) a.now ctx).ctx.balance =
      if a.positions && a.balance && a.reportsCash then account.cash else ctx.balance := by
  cases hp : a.positions with
  | false =>
    have hnone : (account.report a).positions = none := if_neg (by simp [hp])
    unfold sync
    rw [hnone]
    rfl
  | true =>
    have hsome : (account.report a).positions = some _ := if_pos hp
    rw [balance_sync _ _ _ hsome]
    unfold BrokerAccount.report
    cases hb' : a.balance with
    | false => cases a.reportsCash <;> rfl
    | true =>
      cases a.reportsCash with
      | false => rfl
      | true =>
        show (if account.cash = ctx.balance then ctx.balance else round account.cash PRICE_PRECISION) = account.cash
        rw [round_of_mem hb]
        split
        · next he => exact he.symm
        · rfl

theorem CashKept.move (hm : InFourDecimals v (sessionMove cfg v s m).world.trace) (h : CashKept v o s) :
    CashKept v o (sessionMove cfg v s m) := by
  cases m with
  | exec e =>
    have hm : InFourDecimals v (step cfg s.world e).trace := hm
    rw [step_trace] at hm
    obtain ⟨-, hnew⟩ := hm.of_append
    obtain ⟨hbal, hgrid⟩ := money_bookFills _ h.onGrid hnew
    refine ⟨hgrid, ?_, ?_, ?_⟩
    · show ((_ : List Obs).foldl (BrokerAccount.book v) s.broker).cash ∈ _
      rw [cash_book]
      exact add_mem h.brokerOnGrid (executedMoney_mem hnew)
    · show ((_ : List Obs).foldl (BrokerAccount.book v) s.broker).cash =
        o.broker.cash + executedMoney v (step cfg s.world e).trace
      rw [cash_book, h.broker, step_trace, executedMoney, executedMoney, executedMoney, Trace.total_append,
        List.drop_left, add_assoc]
    · show ((_ : List Obs).foldl bookFill s.ctx).balance = o.broker.cash + executedMoney v s.cashSettled +
        (reportedMoney (step cfg s.world e).trace - reportedMoney s.cashSettled)
      rw [hbal, h.kernel, step_trace, reportedMoney, reportedMoney, reportedMoney, reportedMoney, Trace.total_append,
        List.drop_left]
      ring
  | sync a =>
    have hbal := balance_sync_report a s.ctx h.brokerOnGrid
    refine ⟨?_, h.brokerOnGrid, h.broker, ?_⟩
    · show (sync (s.broker.report a) a.now s.ctx).ctx.balance ∈ _
      rw [hbal]
      split
      · exact h.brokerOnGrid
      · exact h.onGrid
    · show (sync (s.broker.report a) a.now s.ctx).ctx.balance = _
      rw [hbal]
      unfold sessionMove
      dsimp only
      split
      · rw [h.broker]
        ring
      · exact h.kernel

private theorem session_isPrefix (m : SessionMove) : s.world.trace <+: (sessionMove cfg v s m).world.trace := by
  cases m with
  | exec e => exact ⟨_, (step_trace e s.world).symm⟩
  | sync a => exact List.prefix_rfl

private theorem run_isPrefix (moves : List SessionMove) :
    s.world.trace <+: (runSession cfg v moves s).world.trace := by
  induction moves generalizing s with
  | nil => exact List.prefix_rfl
  | cons m moves ih => exact (session_isPrefix m).trans ih

private theorem InFourDecimals.of_isPrefix {t u : List Obs} (h : InFourDecimals v u) (ht : t <+: u) :
    InFourDecimals v t := by
  obtain ⟨w, rfl⟩ := ht
  exact h.of_append.1

theorem SharesKept.run (h : SharesKept v o s) (moves : List SessionMove) :
    SharesKept v o (runSession cfg v moves s) := by
  induction moves generalizing s with
  | nil => exact h
  | cons m moves ih => exact ih (h.move m)

theorem CashKept.run (moves : List SessionMove) (hm : InFourDecimals v (runSession cfg v moves s).world.trace)
    (h : CashKept v o s) : CashKept v o (runSession cfg v moves s) := by
  induction moves generalizing s with
  | nil => exact h
  | cons m moves ih => exact ih hm (h.move (hm.of_isPrefix (run_isPrefix moves)))

theorem SharesKept.start (v : Venue) (o : Opening) : SharesKept v o o.session := by
  refine ⟨o.unique, fun symbol => ?_, fun symbol => ?_⟩
  · exact (add_zero _).symm
  · show o.ctx.quantity symbol = o.broker.shares.getD symbol 0 + 0 + (0 - 0)
    rw [o.shares symbol]
    omega

theorem CashKept.start (v : Venue) (o : Opening) (ho : o.ctx.balance ∈ grid PRICE_PRECISION) :
    CashKept v o o.session := by
  refine ⟨ho, o.cash ▸ ho, (add_zero _).symm, ?_⟩
  show o.ctx.balance = o.broker.cash + 0 + (0 - 0)
  rw [o.cash]
  ring

end Session

/-- Once every fill is reported, the kernel holds the broker's shares exactly if every fill
was reported when positions were imported last, and its cash, where amounts have four
decimals, exactly if every fill was reported when cash was imported last. -/
theorem books_agree_iff (cfg : Config) (v : Venue) (o : Opening) (moves : List SessionMove)
    (hs : SharesReported v (runSession cfg v moves o.session).world.trace)
    (hm : MoneyReported v (runSession cfg v moves o.session).world.trace) :
    (SharesAgree (runSession cfg v moves o.session) ↔
      SharesReported v (runSession cfg v moves o.session).sharesSettled) ∧
    (o.ctx.balance ∈ grid PRICE_PRECISION → InFourDecimals v (runSession cfg v moves o.session).world.trace →
      (CashAgrees (runSession cfg v moves o.session) ↔
        MoneyReported v (runSession cfg v moves o.session).cashSettled)) := by
  constructor
  · have hk : SharesKept v o (runSession cfg v moves o.session) := (SharesKept.start v o).run moves
    apply forall_congr'
    intro symbol
    have hr := hs symbol
    rw [hk.kernel symbol, hk.broker symbol]
    omega
  · intro ho hd
    have hk := (CashKept.start v o ho).run moves hd
    have hr : reportedMoney _ = executedMoney v _ := hm
    unfold CashAgrees MoneyReported
    rw [hk.kernel, hk.broker, hr]
    constructor
    · intro h
      linarith
    · intro h
      linarith

def freeStock : Config := { oneStock with statutory := none }

def tcsVenue : Venue where
  symbol _ := "TCS"
  buys _ := true
  charge _ _ _ := 0

def flatOpening : Opening where
  ctx := { balance := 5000 }
  broker := { cash := 5000 }
  unique := List.nodup_nil
  shares _ := rfl
  cash := rfl

def restingBuy : SessionMove :=
  .exec (.submit marketBuy none (.placed (some "V1") ⟨.pending, some 0, some 0⟩) 0 [] [])

def executeBuy : SessionMove := .exec (.act (.executed "V1" 10 100))

def pollBuy : SessionMove := .exec (.poll fun _ => { refresh := .ok ⟨.completed, some 10, some 100⟩ })

def syncBooks : SessionMove := .sync { columns := fun symbol => { symbol, quantity := none } }

/-- A fill that is imported before it is polled is booked twice. -/
theorem sync_before_poll_doubles_fill :
    let s := runSession freeStock tcsVenue [restingBuy, executeBuy, syncBooks, pollBuy] flatOpening.session
    SharesReported tcsVenue s.world.trace ∧ MoneyReported tcsVenue s.world.trace ∧ ¬ SharesAgree s ∧ ¬ CashAgrees s := by
  refine ⟨by decide +kernel, by decide +kernel, fun h => ?_, fun h => ?_⟩
  · have ht := h "TCS"
    revert ht
    decide +kernel
  · revert h
    unfold CashAgrees
    decide +kernel

/-- A fill that is polled before it is imported is booked once. -/
theorem books_agree_after_poll :
    let s := runSession freeStock tcsVenue [restingBuy, executeBuy, pollBuy, syncBooks] flatOpening.session
    SharesAgree s :=
  (books_agree_iff freeStock tcsVenue flatOpening [restingBuy, executeBuy, pollBuy, syncBooks] (by decide +kernel)
    (by decide +kernel)).1.mpr (by decide +kernel)

end NTrade.Runner
