import NTrade.Engines.OrbLifecycle
import NTrade.Runner.MarkToMarket

/-! The exits of the opening range breakout against the position they are to close. The strategy holds its trade
from the moment it signals the entry; whether the entry is approved and filled it is not told. -/
namespace NTrade.Runner
open NTrade.Domain NTrade.Events NTrade.Engines NTrade.Lib
open OpeningRangeBreakout

def sideText : SignalSide → String
  | .buy => "BUY"
  | .sell => "SELL"

structure Raised where
  signal : SignalGenerated
  orders : List Int := []

def Raised.filled (r : Raised) : Int := r.orders.sum

structure OrbSession where
  loop : RiskLoop
  strategy : OpeningRangeBreakout := {}
  raised : List Raised := []
  /-- The candle in whose handler the strategy has yet to look for an entry. -/
  inHand : Option OrbRow := none

/-- What happens in a session with the strategy. Its handler runs in two parts, as the exit that it emits may be
approved and filled before it looks for an entry. -/
inductive OrbAct where
  | candle (e : CandleClosedEvent)
  | seek
  /-- An engine screens one of the signals, with the quotes that it finds. -/
  | screen (engine : Option Nat) (i : Nat) (quote : String → Option (Rat × Rat))
  /-- One of the orders of a signal is filled, or a part of it. -/
  | fill (i j : Nat) (e : OrderFilled)
  /-- The books or the engines change in another way. -/
  | book (a : BookAct)

namespace OrbSession

def start (cash : Rat) (limits : Limits) (instruments : Instruments) : OrbSession where
  loop := RiskLoop.start cash limits instruments

variable (cfg : OrbConfig) (symbol name : String)

def settings : OrbConfig := { cfg with symbol := some symbol }

/-- `emit_signal`. -/
def generated (x : OrbSignal) : SignalGenerated :=
  { symbol, exchange := x.exchange, side := sideText x.side, quantity := x.quantity, price := x.price, strategy := name,
    referencePrice := if x.referencePrice = 0 then none else some x.referencePrice }

def emit (exit : Option OrbSignal) (k : OrbSession) : List Raised :=
  k.raised ++ exit.toList.map fun x => { signal := generated symbol name x }

def screen (engine : Option Nat) (i : Nat) (quote : String → Option (Rat × Rat)) (k : OrbSession) : OrbSession :=
  match k.raised[i]? with
  | none => k
  | some r =>
    if (k.loop.engine engine).any (·.screens r.signal) then
      let loop := k.loop.act RiskLoop.equity (.evaluate engine)
      if (loop.engine engine).any fun e => (e.check r.signal { readingOf loop.ctx with quote }).isNone then
        { k with loop, raised := k.raised.set i { r with orders := r.orders ++ [0] } }
      else { k with loop }
    else k

def fills (r : Raised) (filled : Int) (e : OrderFilled) : Bool :=
  e.symbol = r.signal.symbol ∧ e.side = r.signal.side ∧ 0 < e.quantity ∧ filled + e.quantity ≤ r.signal.quantity

def fill (i j : Nat) (e : OrderFilled) (k : OrbSession) : OrbSession :=
  match k.raised[i]? with
  | none => k
  | some r =>
    match r.orders[j]? with
    | none => k
    | some filled =>
      if fills r filled e then
        { k with
          loop := k.loop.act RiskLoop.equity (.fill e)
          raised := k.raised.set i { r with orders := r.orders.set j (filled + e.quantity) } }
      else k

def step (k : OrbSession) : OrbAct → OrbSession
  | .candle e =>
    if takes (settings cfg symbol) e then
      let (strategy, exit) := manage (settings cfg symbol) (rowOf e) k.strategy
      { k with strategy, raised := emit symbol name exit k, inHand := some (rowOf e) }
    else k
  | .seek =>
    match k.inHand with
    | none => k
    | some row =>
      let (strategy, entry) := seekEntry (settings cfg symbol) k.loop.ctx.balance row k.strategy
      { k with strategy, raised := emit symbol name entry k, inHand := none }
  | .screen engine i quote => k.screen engine i quote
  | .fill i j e => k.fill i j e
  | .book a => { k with loop := k.loop.act RiskLoop.equity a }

def run (k : OrbSession) (acts : List OrbAct) : OrbSession := acts.foldl (step cfg symbol name) k

@[simp] theorem run_concat (k : OrbSession) (acts : List OrbAct) (a : OrbAct) :
    k.run cfg symbol name (acts ++ [a]) = (k.run cfg symbol name acts).step cfg symbol name a := by
  simp [run]

def quantity (k : OrbSession) : Int := k.loop.ctx.quantity symbol

/-- An exit that is emitted finds a position of the entry's direction, of its own quantity at least. -/
def Covered (k : OrbSession) : OrbAct → Prop
  | .candle e => takes (settings cfg symbol) e = true → ∀ x ∈ (manage (settings cfg symbol) (rowOf e) k.strategy).2,
      0 < x.quantity ∧ x.quantity ≤ x.side.opposite.signed (k.quantity symbol)
  | _ => True

def due (e : CandleClosedEvent) (k : OrbSession) : Option ActiveTrade :=
  if takes (settings cfg symbol) e ∧ k.strategy.dayKey = some (dayKeyOf e.ts) then
    k.strategy.active.filter fun t => (stopOf (rowOf e) t).isSome
  else none

/-- How the execution keeps up with the strategy: a trade is entered against no position and filled in full before a
candle ends it, and until then nothing moves the position against it. -/
def KeepsUp (k : OrbSession) : OrbAct → Prop
  | .candle e => ∀ t ∈ due cfg symbol e k, ∀ r ∈ k.raised.getLast?, t.qty ≤ r.filled
  | .seek => ∀ row ∈ k.inHand, ∀ x ∈ (seekEntry (settings cfg symbol) k.loop.ctx.balance row k.strategy).2,
      0 ≤ x.side.signed (k.quantity symbol)
  | .screen .. => True
  | a => ∀ t ∈ k.strategy.active, t.side.signed (k.quantity symbol) ≤ t.side.signed ((k.step cfg symbol name a).quantity symbol)

instance (k : OrbSession) (a : OrbAct) : Decidable (KeepsUp cfg symbol name k a) :=
  match a with
  | .candle e => inferInstanceAs (Decidable (∀ t ∈ due cfg symbol e k, ∀ r ∈ k.raised.getLast?, t.qty ≤ r.filled))
  | .seek => inferInstanceAs (Decidable (∀ row ∈ k.inHand,
      ∀ x ∈ (seekEntry (settings cfg symbol) k.loop.ctx.balance row k.strategy).2, 0 ≤ x.side.signed (k.quantity symbol)))
  | .screen .. => .isTrue trivial
  | .fill i j e => inferInstanceAs (Decidable (∀ t ∈ k.strategy.active, t.side.signed (k.quantity symbol) ≤
      t.side.signed ((k.fill i j e).quantity symbol)))
  | .book a => inferInstanceAs (Decidable (∀ t ∈ k.strategy.active, t.side.signed (k.quantity symbol) ≤
      t.side.signed ((k.step cfg symbol name (.book a)).quantity symbol)))

instance (k : OrbSession) (a : OrbAct) : Decidable (Covered cfg symbol k a) :=
  match a with
  | .candle e => inferInstanceAs (Decidable (takes (settings cfg symbol) e = true →
      ∀ x ∈ (manage (settings cfg symbol) (rowOf e) k.strategy).2,
        0 < x.quantity ∧ x.quantity ≤ x.side.opposite.signed (k.quantity symbol)))
  | .seek | .screen .. | .fill .. | .book _ => .isTrue trivial

structure Backs (r : Raised) (t : ActiveTrade) (q : Int) : Prop where
  symbol : r.signal.symbol = symbol
  side : r.signal.side = sideText t.side
  filled : r.filled ≤ t.side.signed q

structure Backed (k : OrbSession) : Prop where
  carries : Carries k.loop
  sized : Sized k.strategy
  entered : ∀ t, k.strategy.active = some t → ∃ r, k.raised.getLast? = some r ∧ Backs symbol r t (k.quantity symbol)

variable {cfg symbol name} {k : OrbSession}

theorem getLast?_set {α : Type*} (l : List α) (i : Nat) (a : α) :
    (l.set i a).getLast? = if i + 1 = l.length then some a else l.getLast? := by
  rw [List.getLast?_eq_getElem?, List.length_set, List.getLast?_eq_getElem?]
  split_ifs with hlast
  · rw [← hlast, Nat.add_sub_cancel]
    exact List.getElem?_set_self (by omega)
  · cases l with
    | nil => rfl
    | cons b l => exact List.getElem?_set_ne (fun he => hlast (by rw [he]; rfl))

/-- A trade keeps its side under an exit signal that is not emitted. -/
private theorem backs_of_map {r : Raised} {t u : ActiveTrade} {q : Int} (h : Backs symbol r t q)
    (hu : (u.side, u.qty) = (t.side, t.qty)) : Backs symbol r u q := by
  obtain ⟨hside, -⟩ := Prod.mk.inj hu
  exact ⟨h.symbol, by rw [hside]; exact h.side, by rw [hside]; exact h.filled⟩

/-- The active trade after the first part of the handler, and the exit that it emits. -/
private theorem manage_spec (settings : OrbConfig) (row : OrbRow) (s : OpeningRangeBreakout) :
    (∃ t price reason, s.dayKey = some (dayKeyOf row.ts) ∧ s.active = some t ∧ (stopOf row t).isSome = true ∧
      (manage settings row s).1.active = none ∧ (manage settings row s).2 = some (exitSignal settings t price reason)) ∨
    (manage settings row s).2 = none ∧ ∀ u, (manage settings row s).1.active = some u →
      ∃ t, s.active = some t ∧ (u.side, u.qty) = (t.side, t.qty) := by
  have hactive : (buildRange settings row (rollover row s)).active = (rollover row s).active := buildRange_keeps.1
  rw [manage]
  rcases manageExit_cases settings row (buildRange settings row (rollover row s)) with
    ⟨t, price, reason, ht, hstop, he⟩ | ⟨active, he, ha⟩
  · obtain ⟨hd, ht⟩ := active_rollover (hactive.symm.trans ht)
    rw [he]
    exact .inl ⟨t, price, reason, hd, ht, hstop, rfl, rfl⟩
  · rw [he]
    refine .inr ⟨rfl, fun u hu => ?_⟩
    have hu : active = some u := hu
    rw [hu, hactive] at ha
    obtain ⟨t, ht, hsame⟩ := Option.map_eq_some_iff.mp ha.symm
    exact ⟨t, (active_rollover ht).2, hsame.symm⟩

private theorem backed_candle (h : Backed symbol k) (e : CandleClosedEvent) :
    Backed symbol (k.step cfg symbol name (.candle e)) := by
  rw [step]
  split_ifs
  · dsimp only
    refine ⟨h.carries, h.sized.manage (rowOf e), fun u hu => ?_⟩
    dsimp only at hu ⊢
    rcases manage_spec (settings cfg symbol) (rowOf e) k.strategy with ⟨_, _, _, -, -, -, hnone, -⟩ | ⟨hexit, hkeep⟩
    · rw [hnone] at hu
      cases hu
    · obtain ⟨t, ht, hsame⟩ := hkeep u hu
      obtain ⟨r, hr, hb⟩ := h.entered t ht
      rw [emit, hexit, Option.toList_none, List.map_nil, List.append_nil]
      exact ⟨r, hr, backs_of_map hb hsame⟩
  · exact h

private theorem backed_seek (h : Backed symbol k) (hk : KeepsUp cfg symbol name k .seek) :
    Backed symbol (k.step cfg symbol name .seek) := by
  rw [step]
  cases hrow : k.inHand with
  | none => exact h
  | some row =>
    dsimp only
    rcases seekEntry_cases (settings cfg symbol) k.loop.ctx.balance row k.strategy with
      ⟨t, x, -, -, hlot, -, hside, -, he⟩ | ⟨errors, he⟩
    · have hx := hk row hrow x (by rw [he]; rfl)
      rw [he]
      refine ⟨h.carries, fun u hu => ?_, fun u hu => ?_⟩
      · rw [← Option.some.inj hu]
        exact cfg.lot_pos.trans hlot
      · rw [← Option.some.inj hu]
        refine ⟨_, List.getLast?_concat, rfl, congrArg sideText hside, ?_⟩
        rw [hside] at hx
        exact hx
    · rw [he]
      refine ⟨h.carries, h.sized, fun u hu => ?_⟩
      rw [emit, Option.toList_none, List.map_nil, List.append_nil]
      exact h.entered u hu

private theorem backed_screen (h : Backed symbol k) (engine : Option Nat) (i : Nat) (quote : String → Option (Rat × Rat)) :
    Backed symbol (k.screen engine i quote) := by
  have hctx : (k.loop.act RiskLoop.equity (.evaluate engine)).ctx = k.loop.ctx := ctx_evaluate _ _
  have hloop : Backed symbol { k with loop := k.loop.act RiskLoop.equity (.evaluate engine) } := by
    refine ⟨h.carries.act _, h.sized, fun t ht => ?_⟩
    rw [quantity, hctx]
    exact h.entered t ht
  rw [screen]
  cases hr : k.raised[i]? with
  | none => exact h
  | some r =>
    dsimp only
    split_ifs
    · refine ⟨hloop.carries, hloop.sized, fun t ht => ?_⟩
      obtain ⟨u, hu, hb⟩ := hloop.entered t ht
      dsimp only
      rw [getLast?_set]
      split_ifs with hlast
      · have hru : r = u := by
          rw [List.getLast?_eq_getElem?, ← hlast, Nat.add_sub_cancel, hr] at hu
          exact Option.some.inj hu
        refine ⟨_, rfl, hru ▸ hb.symbol, hru ▸ hb.side, ?_⟩
        rw [Raised.filled, List.sum_append, List.sum_singleton, add_zero]
        exact hru ▸ hb.filled
      · exact ⟨u, hu, hb⟩
    · exact hloop
    · exact h

private theorem signed_fill {t : ActiveTrade} {e : OrderFilled} (h : e.side = sideText t.side) :
    t.side.signed e.signedQuantity = e.quantity := by
  rw [OrderFilled.signedQuantity, h]
  cases t.side with
  | buy => rfl
  | sell => exact neg_neg e.quantity

private theorem signed_add (side : SignalSide) (a b : Int) : side.signed (a + b) = side.signed a + side.signed b := by
  cases side with
  | buy => rfl
  | sell => exact neg_add a b

private theorem backed_fill (h : Backed symbol k) {i j : Nat} {e : OrderFilled}
    (hk : KeepsUp cfg symbol name k (.fill i j e)) : Backed symbol (k.fill i j e) := by
  have hmoved : ∀ t, k.strategy.active = some t → t.side.signed (k.quantity symbol) ≤
      t.side.signed ((k.fill i j e).quantity symbol) := hk
  rw [fill] at hmoved ⊢
  cases hr : k.raised[i]? with
  | none => exact h
  | some r =>
    rw [hr] at hmoved
    dsimp only at hmoved ⊢
    cases hj : r.orders[j]? with
    | none => exact h
    | some filled =>
      rw [hj] at hmoved
      dsimp only at hmoved ⊢
      split_ifs at hmoved ⊢ with hfills
      · obtain ⟨hsym, hside, -⟩ := of_decide_eq_true hfills
        refine ⟨h.carries.act _, h.sized, fun t ht => ?_⟩
        obtain ⟨u, hu, hb⟩ := h.entered t ht
        dsimp only
        rw [getLast?_set]
        split_ifs with hlast
        · have hru : r = u := by
            rw [List.getLast?_eq_getElem?, ← hlast, Nat.add_sub_cancel, hr] at hu
            exact Option.some.inj hu
          subst hru
          refine ⟨_, rfl, hb.symbol, hb.side, ?_⟩
          have hq : ({ k with
              loop := k.loop.act RiskLoop.equity (.fill e)
              raised := k.raised.set i { r with orders := r.orders.set j (filled + e.quantity) } } : OrbSession).quantity symbol =
              k.quantity symbol + e.signedQuantity := by
            have := @quantity_onFilled k.loop.ctx e symbol h.carries.unique
            rw [if_pos (hsym.trans hb.symbol)] at this
            exact this
          have hsum : (r.orders.set j (filled + e.quantity)).sum = r.filled + e.quantity := by
            obtain ⟨hlt, hget⟩ := List.getElem?_eq_some_iff.mp hj
            rw [List.sum_set', dif_pos hlt, hget, Raised.filled]
            ring
          rw [Raised.filled, hq, hsum, signed_add, signed_fill (hside.trans hb.side)]
          exact add_le_add_left hb.filled _
        · exact ⟨u, hu, hb.symbol, hb.side, hb.filled.trans (hmoved t ht)⟩
      · exact h

theorem backed_step (h : Backed symbol k) {a : OrbAct} (hk : KeepsUp cfg symbol name k a) :
    Backed symbol (k.step cfg symbol name a) := by
  cases a with
  | candle e => exact backed_candle h e
  | seek => exact backed_seek h hk
  | screen engine i quote => exact backed_screen h engine i quote
  | fill i j e => exact backed_fill h hk
  | book a =>
    refine ⟨h.carries.act a, h.sized, fun t ht => ?_⟩
    obtain ⟨r, hr, hb⟩ := h.entered t ht
    exact ⟨r, hr, hb.symbol, hb.side, hb.filled.trans (hk t ht)⟩

/-- An exit that is due after its entry was filled in full is covered. -/
theorem covered_of_backed (h : Backed symbol k) {a : OrbAct} (hk : KeepsUp cfg symbol name k a) :
    Covered cfg symbol k a := by
  cases a with
  | candle e =>
    intro htakes x hx
    rcases manage_spec (settings cfg symbol) (rowOf e) k.strategy with
      ⟨t, price, reason, hday, ht, hstop, -, hexit⟩ | ⟨hexit, -⟩
    · rw [hexit] at hx
      obtain rfl := Option.some.inj hx
      obtain ⟨r, hr, hb⟩ := h.entered t ht
      have hdue : due cfg symbol e k = some t := by
        rw [due, if_pos ⟨htakes, hday⟩, ht, Option.filter_some, hstop]
        rfl
      have hfull := hk t hdue r hr
      have hback : t.side.opposite.opposite = t.side := by cases t.side <;> rfl
      refine ⟨h.sized t ht, ?_⟩
      rw [exitSignal, hback]
      exact hfull.trans hb.filled
    · rw [hexit] at hx
      cases hx
  | seek | screen | fill | book => trivial

private theorem backed_start (symbol : String) (cash : Rat) (limits : Limits) (instruments : Instruments) :
    Backed symbol (start cash limits instruments) := by
  refine ⟨Carries.start cash limits instruments, .of_idle rfl, fun t ht => ?_⟩
  cases ht

/-- In a session in which the execution keeps up with the strategy, no exit is naked. -/
theorem exits_covered (cfg : OrbConfig) (symbol name : String) (cash : Rat) (limits : Limits) (instruments : Instruments)
    {acts : List OrbAct}
    (h : Trace.Each (fun pre a => KeepsUp cfg symbol name ((start cash limits instruments).run cfg symbol name pre) a) acts) :
    Trace.Each (fun pre a => Covered cfg symbol ((start cash limits instruments).run cfg symbol name pre) a) acts := by
  have hrun (t : List OrbAct) (ht : t <+: acts) : Backed symbol ((start cash limits instruments).run cfg symbol name t) := by
    have hkeeps := h.of_isPrefix ht
    clear ht
    induction t using List.reverseRecOn with
    | nil => exact backed_start symbol cash limits instruments
    | append_singleton t a ih =>
      obtain ⟨hs, ha⟩ := Trace.each_concat.mp hkeeps
      rw [run_concat]
      exact backed_step (ih hs) ha
  intro pre a suf he
  have hpre : pre <+: acts := ⟨a :: suf, he.symm⟩
  exact covered_of_backed (hrun pre hpre) (h pre a suf he)

def breakoutStopped (fills : List OrbAct) : List OrbAct :=
  ((OrbRun.breakoutDay 0).flatMap fun c => [.candle c.candle, .seek]) ++ .screen none 0 (fun _ => none) ::
    fills ++ [.candle (OrbRun.closeAt 0 572 100 10).candle]

theorem filled_entry_covered :
    Trace.Each (fun pre a => Covered OrbRun.breakoutCfg "NIFTY"
      ((start 100000 {} Dict.empty).run OrbRun.breakoutCfg "NIFTY" "orb_vwap" pre) a)
      (breakoutStopped [.fill 0 0 { orderId := "1", symbol := "NIFTY", exchange := "NFO", side := "BUY", quantity := 368,
                                    fillPrice := 110 }]) :=
  exits_covered OrbRun.breakoutCfg "NIFTY" "orb_vwap" 100000 {} Dict.empty (by decide +kernel)

/-- The entry is turned down for its quantity, and its exit is signalled all the same. -/
theorem rejected_entry_exited :
    ¬ Trace.Each (fun pre a => Covered OrbRun.breakoutCfg "NIFTY"
      ((start 100000 { maxQuantity := some 100 } Dict.empty).run OrbRun.breakoutCfg "NIFTY" "orb_vwap" pre) a)
      (breakoutStopped []) := by
  decide +kernel

end OrbSession
end NTrade.Runner
