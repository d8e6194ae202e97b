import NTrade.Events.Event
import NTrade.Execution.Costs
import NTrade.Lib.Drift
import NTrade.Lib.Fifo
import NTrade.Lib.Trace
import Mathlib.Algebra.Group.Submonoid.BigOperators
import Mathlib.Tactic.LinearCombination

/-! The realized result that the paper service records with each fill, against the lots of the fills matched
first in, first out. A record shows all shares of its fill as open, those that closed others too. -/
namespace NTrade.Api
open NTrade.Events NTrade.Execution NTrade.Lib

structure PaperFill where
  orderId : String
  symbol : String
  side : String
  quantity : Int
  price : Rat
  openQty : Int
  pnl : Rat
  ts : Rat
  deriving DecidableEq

def closing (event : OrderFilled) : String := if event.side = "BUY" then "SELL" else "BUY"

/-- The loop of `_realized_pnl`: what it returns, and the records as it leaves them. -/
def realizing (event : OrderFilled) : Int → Rat → List PaperFill → Rat × List PaperFill
  | _, pnl, [] => (pnl, [])
  | remaining, pnl, f :: fills =>
    if f.symbol ≠ event.symbol ∨ f.side ≠ closing event then
      let done := realizing event remaining pnl fills
      (done.1, f :: done.2)
    else
      let take := min remaining f.openQty
      if take ≤ 0 then
        let done := realizing event remaining pnl fills
        (done.1, f :: done.2)
      else
        let sign : Rat := if event.side = "SELL" then 1 else -1
        let pnl := pnl + sign * (event.fillPrice - f.price) * take
        let f := { f with openQty := f.openQty - take }
        let remaining := remaining - take
        if remaining = 0 then (pnl, f :: fills)
        else
          let done := realizing event remaining pnl fills
          (done.1, f :: done.2)

def realizedPnl (fills : List PaperFill) (event : OrderFilled) : Rat × List PaperFill :=
  realizing event event.quantity 0 fills

def recordFill (fills : List PaperFill) (event : OrderFilled) : List PaperFill :=
  if fills.any (·.orderId = event.orderId) then fills
  else
    let done := realizedPnl fills event
    done.2 ++ [{
      orderId := event.orderId
      symbol := event.symbol
      side := event.side
      quantity := event.quantity
      price := round event.fillPrice 4
      openQty := event.quantity
      pnl := round done.1 4
      ts := event.ts }]

def recordFills (history : List OrderFilled) (fills : List PaperFill) : List PaperFill := history.foldl recordFill fills

structure Dealt (symbol : String) where
  event : OrderFilled
  of : event.symbol = symbol
  side : event.side = "BUY" ∨ event.side = "SELL"
  some : 0 < event.quantity

namespace Dealt
variable {symbol : String} (o : Dealt symbol)

def buys : Bool := o.event.side = "BUY"

def shares : Nat := o.event.quantity.toNat

end Dealt

def records {symbol : String} (fills : List (Dealt symbol)) : List PaperFill := recordFills (fills.map Dealt.event) []

structure Entry where
  orderId : String
  price : Rat
  spent : Nat

structure Matched where
  book : Fifo.Book Entry := {}
  realized : Rat := 0
  shares : Nat := 0

def Matched.fill {symbol : String} (m : Matched) (o : Dealt symbol) : Matched :=
  let closed := m.book.closed o.buys o.shares
  { book := m.book.trade o.buys o.shares
      { orderId := o.event.orderId, price := o.event.fillPrice, spent := Fifo.shares closed }
    realized := m.realized + Fifo.gain Entry.price closed (!o.buys) o.event.fillPrice
    shares := m.shares + Fifo.shares closed }

def matching {symbol : String} (fills : List (Dealt symbol)) : Matched := fills.foldl Matched.fill {}

def shown (side : String) (fills : List PaperFill) : List (Nat × (String × Rat)) :=
  (fills.filter (·.side = side)).map fun f => (f.openQty.toNat, (f.orderId, f.price))

def taken (fills : List PaperFill) (event : OrderFilled) : Nat :=
  Fifo.shares (shown (closing event) fills) - Fifo.shares (shown (closing event) (realizedPnl fills event).2)

section Totals
variable {symbol : String} (fills : List (Dealt symbol))

def recordedPnl : Rat := ((records fills).map PaperFill.pnl).sum

def netQuantity : Int := (fills.map fun o => o.event.signedQuantity).sum

def sellNotional : Rat := ((fills.filter fun o => !o.buys).map fun o => o.event.notional).sum

def buyNotional : Rat := ((fills.filter fun o => o.buys).map fun o => o.event.notional).sum

/-- The roundings that a result passes: one for each fill, and one for each share that is closed. -/
def roundings : Nat := fills.length + (matching fills).shares

structure RealizesFifo : Prop where
  recorded : (records fills).length = fills.length
  once : Trace.Each (fun pre o => ∀ f ∈ records fills, f.orderId = o.event.orderId →
    taken (records pre) o.event ≤ f.openQty.toNat) fills
  sum : Drift (1 / 2 / 10 ^ 4) (roundings fills) (recordedPnl fills) (matching fills).realized
  exact : (∀ o ∈ fills, o.event.fillPrice ∈ grid 4) → recordedPnl fills = (matching fills).realized
  opening : ∀ pre o, fills = pre ++ [o] → Fifo.shares ((matching pre).book.closed o.buys o.shares) = 0 →
    (records fills).getLast?.map PaperFill.pnl = some 0
  flat : netQuantity fills = 0 →
    Drift (1 / 2 / 10 ^ 4) (roundings fills) (recordedPnl fills) (sellNotional fills - buyNotional fills)

end Totals

/-- A fill with an order of its own, that is used up before it leaves a lot that closed others. -/
def StopsBeforeSpent {symbol : String} (pre : List (Dealt symbol)) (o : Dealt symbol) : Prop :=
  o.event.orderId ∉ pre.map (·.event.orderId) ∧
    Fifo.Clear Entry.spent o.shares ((matching pre).book.against o.buys)

section Loop
variable {event : OrderFilled} {side : String} {fills : List PaperFill}

@[simp] theorem shown_nil : shown side [] = [] := rfl

theorem shown_cons (f : PaperFill) : shown side (f :: fills) =
    if f.side = side then (f.openQty.toNat, (f.orderId, f.price)) :: shown side fills else shown side fills := by
  rw [shown, List.filter_cons]
  by_cases h : f.side = side
  · rw [if_pos (decide_eq_true h), if_pos h]
    rfl
  · rw [if_neg (by simpa using h), if_neg h]
    rfl

theorem shown_append (fills' : List PaperFill) : shown side (fills ++ fills') = shown side fills ++ shown side fills' := by
  rw [shown, List.filter_append, List.map_append]
  rfl

def kept (f : PaperFill) : PaperFill := { f with openQty := 0 }

structure Realizes (event : OrderFilled) (remaining : Int) (pnl : Rat) (fills : List PaperFill)
    (done : Rat × List PaperFill) : Prop where
  pnl : done.1 = pnl + Fifo.gain (fun t : String × Rat => t.2) (Fifo.front remaining.toNat (shown (closing event) fills))
    (event.side = "SELL") event.fillPrice
  closes : shown (closing event) done.2 = Fifo.behind remaining.toNat (shown (closing event) fills)
  others : ∀ side, side ≠ closing event → shown side done.2 = shown side fills
  keeps : done.2.map kept = fills.map kept

theorem realizes_realizing {remaining : Int} (pnl : Rat) (hs : ∀ f ∈ fills, f.symbol = event.symbol) (hr : 0 ≤ remaining) :
    Realizes event remaining pnl fills (realizing event remaining pnl fills) := by
  induction fills generalizing remaining pnl with
  | nil => exact ⟨(add_zero _).symm, rfl, fun _ _ => rfl, rfl⟩
  | cons f fills ih =>
    have hf := hs f List.mem_cons_self
    have ih := fun {remaining : Int} (pnl : Rat) => @ih remaining pnl fun g hg => hs g (List.mem_cons_of_mem _ hg)
    rw [realizing]
    by_cases hc : f.side = closing event
    · rw [if_neg (by simp [hf, hc])]
      dsimp only
      split
      · next ht =>
        -- nothing is left of the fill, or of the record
        have hd := ih pnl hr
        have hmin : min remaining.toNat f.openQty.toNat = 0 := by omega
        have hrest : remaining.toNat - f.openQty.toNat = remaining.toNat := by omega
        have hopen : f.openQty.toNat - remaining.toNat = f.openQty.toNat := by omega
        refine ⟨?_, ?_, fun side hne => ?_, ?_⟩
        · rw [shown_cons, if_pos hc, Fifo.front, hmin, hrest, Fifo.gain_cons, Nat.cast_zero, mul_zero, zero_add]
          exact hd.pnl
        · rw [shown_cons, shown_cons, if_pos hc, if_pos hc, Fifo.behind, hopen, hrest, hd.closes]
        · rw [shown_cons, shown_cons, hd.others side hne]
        · rw [List.map_cons, List.map_cons, hd.keeps]
      · next ht =>
        have hmin : ((min remaining.toNat f.openQty.toNat : Nat) : Int) = min remaining f.openQty := by omega
        have hopen : (f.openQty - min remaining f.openQty).toNat = f.openQty.toNat - remaining.toNat := by omega
        have hrest : (remaining - min remaining f.openQty).toNat = remaining.toNat - f.openQty.toNat := by omega
        have hgain (rest : List (Nat × (String × Rat))) : Fifo.gain (fun t : String × Rat => t.2)
            ((min remaining.toNat f.openQty.toNat, (f.orderId, f.price)) :: rest) (event.side = "SELL") event.fillPrice =
              (if event.side = "SELL" then 1 else -1) * (event.fillPrice - f.price) * (min remaining f.openQty : Int) +
                Fifo.gain (fun t : String × Rat => t.2) rest (event.side = "SELL") event.fillPrice := by
          rw [Fifo.gain_cons, ← hmin, Int.cast_natCast]
          by_cases hs : event.side = "SELL" <;> simp [hs]
        split
        · next h0 =>
          rw [h0, Int.toNat_zero] at hrest
          refine ⟨?_, ?_, fun side hne => ?_, rfl⟩
          · rw [shown_cons, if_pos hc, Fifo.front, hgain, ← hrest]
            rw [Fifo.gain_of_shares _ (by rw [Fifo.shares_front, Nat.zero_min]), add_zero]
          · rw [shown_cons, shown_cons, if_pos hc, if_pos hc, Fifo.behind, ← hrest, Fifo.behind_zero, hopen]
          · have hne : f.side ≠ side := fun h => hne (h.symm.trans hc)
            rw [shown_cons, shown_cons, if_neg hne, if_neg hne]
        · next h0 =>
          have hd := ih (pnl + (if event.side = "SELL" then 1 else -1) * (event.fillPrice - f.price) *
            (min remaining f.openQty : Int)) (show 0 ≤ remaining - min remaining f.openQty by omega)
          refine ⟨?_, ?_, fun side hne => ?_, ?_⟩
          · rw [shown_cons, if_pos hc, Fifo.front, hgain, ← hrest, ← add_assoc]
            exact hd.pnl
          · rw [shown_cons, shown_cons, if_pos hc, if_pos hc, Fifo.behind, ← hrest, hd.closes, hopen]
          · have hne' : f.side ≠ side := fun h => hne (h.symm.trans hc)
            rw [shown_cons, shown_cons, if_neg hne', if_neg hne', hd.others side hne]
          · rw [List.map_cons, List.map_cons, hd.keeps]
            rfl
    · rw [if_pos (.inr hc)]
      have hd := ih pnl hr
      refine ⟨?_, ?_, fun side hne => ?_, ?_⟩
      · rw [shown_cons, if_neg hc]
        exact hd.pnl
      · rw [shown_cons, shown_cons, if_neg hc, if_neg hc]
        exact hd.closes
      · rw [shown_cons, shown_cons, hd.others side hne]
      · rw [List.map_cons, List.map_cons, hd.keeps]

end Loop

theorem taken_eq {event : OrderFilled} {fills : List PaperFill} (hs : ∀ f ∈ fills, f.symbol = event.symbol)
    (hq : 0 ≤ event.quantity) :
    taken fills event = Fifo.shares (Fifo.front event.quantity.toNat (shown (closing event) fills)) := by
  have hd := (realizes_realizing 0 hs hq).closes
  rw [taken, realizedPnl, hd, Fifo.shares_behind, Fifo.shares_front]
  omega

theorem Dealt.side_eq {symbol : String} (o : Dealt symbol) : o.event.side = if o.buys then "BUY" else "SELL" := by
  rcases o.side with h | h
  · simp [Dealt.buys, h]
  · simp [Dealt.buys, h]

def otherSide (buy : Bool) : String := if buy then "SELL" else "BUY"

theorem Dealt.closing_eq {symbol : String} (o : Dealt symbol) : closing o.event = otherSide o.buys := by
  simp [closing, otherSide, Dealt.buys]

theorem otherSide_injective {b b' : Bool} (h : otherSide b = otherSide b') : b = b' := by
  cases b <;> cases b' <;> simp [otherSide] at h <;> rfl

def told (e : Entry) : String × Rat := (e.orderId, round e.price 4)

structure LotsShown {symbol : String} (fills : List (Dealt symbol)) : Prop where
  keyed : (records fills).map PaperFill.orderId = fills.map (·.event.orderId)
  symbols : ∀ f ∈ records fills, f.symbol = symbol
  sides : ∀ f ∈ records fills, ∃ b, f.side = otherSide b
  shows : ∀ b, shown (otherSide b) (records fills) =
    Fifo.retag told (Fifo.padded Entry.spent ((matching fills).book.against b))
  known : ∀ b, ∀ l ∈ (matching fills).book.against b, l.2.orderId ∈ fills.map (·.event.orderId)
  marks : Trace.Each (fun pre o => ∀ b, ∀ l ∈ (matching fills).book.against b, l.2.orderId = o.event.orderId →
    l.2.spent = taken (records pre) o.event ∧ l.2.price = o.event.fillPrice) fills

section Steps
variable {symbol : String} {pre fills : List (Dealt symbol)} {o : Dealt symbol}

theorem records_concat : records (pre ++ [o]) = recordFill (records pre) o.event := by
  rw [records, recordFills, List.map_append]
  exact List.foldl_concat _ _ _ _

theorem matching_concat : matching (pre ++ [o]) = (matching pre).fill o := List.foldl_concat _ _ _ _

def recordOf (o : Dealt symbol) (pnl : Rat) : PaperFill where
  orderId := o.event.orderId
  symbol := o.event.symbol
  side := o.event.side
  quantity := o.event.quantity
  price := round o.event.fillPrice 4
  openQty := o.event.quantity
  pnl := round pnl 4
  ts := o.event.ts

theorem any_orderId (h : LotsShown pre) : ((records pre).any (·.orderId = o.event.orderId)) =
    decide (o.event.orderId ∈ pre.map (·.event.orderId)) := by
  rw [← h.keyed, Bool.eq_iff_iff, List.any_eq_true, decide_eq_true_eq, List.mem_map]
  simp

structure Recorded (pre : List (Dealt symbol)) (o : Dealt symbol) (done : Rat × List PaperFill) : Prop where
  records : records (pre ++ [o]) = done.2 ++ [recordOf o done.1]
  realizes : Realizes o.event o.event.quantity 0 (NTrade.Api.records pre) done

theorem recorded_concat (h : LotsShown pre) (ho : o.event.orderId ∉ pre.map (·.event.orderId)) :
    ∃ done, Recorded pre o done := by
  refine ⟨realizedPnl (records pre) o.event, ?_, ?_⟩
  · rw [records_concat, recordFill, any_orderId h, decide_eq_false ho]
    rfl
  · exact realizes_realizing 0 (fun f hf => (h.symbols f hf).trans o.of.symm) o.some.le

theorem Realizes.mem {event : OrderFilled} {remaining : Int} {pnl : Rat} {fills : List PaperFill}
    {done : Rat × List PaperFill} (h : Realizes event remaining pnl fills done) {f : PaperFill} (hf : f ∈ done.2) :
    ∃ g ∈ fills, g.orderId = f.orderId ∧ g.symbol = f.symbol ∧ g.side = f.side := by
  have hk := List.mem_map_of_mem (f := kept) hf
  rw [h.keeps] at hk
  obtain ⟨g, hg, he⟩ := List.mem_map.mp hk
  simp only [kept, PaperFill.mk.injEq] at he
  exact ⟨g, hg, he.1, he.2.1, he.2.2.1⟩

variable {done : Rat × List PaperFill}

theorem shown_recordOf (b : Bool) (pnl : Rat) : shown (otherSide b) [recordOf o pnl] =
    if b = !o.buys then [(o.shares, (o.event.orderId, round o.event.fillPrice 4))] else [] := by
  have hs : (recordOf o pnl).side = otherSide (!o.buys) := by
    rw [recordOf, o.side_eq]
    cases o.buys <;> rfl
  rw [shown_cons, hs, shown_nil]
  by_cases hb : b = !o.buys
  · rw [if_pos (congrArg otherSide hb.symm), if_pos hb]
    rfl
  · rw [if_neg fun he => hb (otherSide_injective he.symm), if_neg hb]

theorem LotsShown.nil : LotsShown ([] : List (Dealt symbol)) where
  keyed := rfl
  symbols _ h := nomatch h
  sides _ h := nomatch h
  shows b := by cases b <;> rfl
  known b l hl := by cases b <;> cases hl
  marks := Trace.Each.nil _

theorem LotsShown.taken_front (h : LotsShown pre) : taken (records pre) o.event =
    Fifo.shares (Fifo.front o.shares (Fifo.padded Entry.spent ((matching pre).book.against o.buys))) := by
  rw [taken_eq (fun f hf => (h.symbols f hf).trans o.of.symm) o.some.le, o.closing_eq, h.shows, ← Dealt.shares,
    Fifo.front_retag, Fifo.shares_retag]

theorem LotsShown.concat (h : LotsShown pre) (ho : StopsBeforeSpent pre o) : LotsShown (pre ++ [o]) := by
  obtain ⟨hid, hclear⟩ := ho
  obtain ⟨done, hrec, hd⟩ := recorded_concat h hid
  obtain ⟨hfront, hbehind⟩ := Fifo.padded_of_clear hclear
  have hspent : taken (records pre) o.event = Fifo.shares ((matching pre).book.closed o.buys o.shares) := by
    rw [h.taken_front, hfront]
    rfl
  have hbook : (matching (pre ++ [o])).book = (matching pre).book.trade o.buys o.shares
      ⟨o.event.orderId, o.event.fillPrice, Fifo.shares ((matching pre).book.closed o.buys o.shares)⟩ := by
    rw [matching_concat]
    rfl
  -- a lot is an old one, or the one of the fill
  have hlot {b : Bool} {l : Nat × Entry} (hl : l ∈ (matching (pre ++ [o])).book.against b) :
      (∃ m ∈ (matching pre).book.against b, m.2 = l.2) ∨
        l.2 = ⟨o.event.orderId, o.event.fillPrice, Fifo.shares ((matching pre).book.closed o.buys o.shares)⟩ := by
    rw [hbook] at hl
    by_cases hb : b = o.buys
    · rw [hb, Fifo.Book.against_trade] at hl
      rw [hb]
      exact .inl (Fifo.exists_mem_of_mem_behind hl)
    · have hb : b = !o.buys := Bool.eq_not_of_ne hb
      rw [hb, Fifo.Book.against_trade_not] at hl
      rw [hb]
      rcases List.mem_append.mp hl with hl | hl
      · exact .inl ⟨l, hl, rfl⟩
      · rw [List.mem_singleton.mp hl]
        exact .inr rfl
  refine ⟨?_, ?_, ?_, ?_, ?_, ?_⟩
  · have hk : done.2.map PaperFill.orderId = (records pre).map PaperFill.orderId := by
      have hk := congrArg (List.map PaperFill.orderId) hd.keeps
      rw [List.map_map, List.map_map] at hk
      exact hk
    rw [hrec, List.map_append, List.map_append, hk, h.keyed]
    rfl
  · intro f hf
    rw [hrec] at hf
    rcases List.mem_append.mp hf with hf | hf
    · obtain ⟨g, hg, he⟩ := hd.mem hf
      exact he.2.1.symm.trans (h.symbols g hg)
    · rw [List.mem_singleton.mp hf]
      exact o.of
  · intro f hf
    rw [hrec] at hf
    rcases List.mem_append.mp hf with hf | hf
    · obtain ⟨g, hg, he⟩ := hd.mem hf
      obtain ⟨b, hb⟩ := h.sides g hg
      exact ⟨b, he.2.2.symm.trans hb⟩
    · rw [List.mem_singleton.mp hf]
      refine ⟨!o.buys, o.side_eq.trans ?_⟩
      cases o.buys <;> rfl
  · intro b
    rw [hrec, shown_append, shown_recordOf, hbook]
    by_cases hb : b = o.buys
    · have hcloses := hd.closes
      rw [o.closing_eq, h.shows, ← Dealt.shares, Fifo.behind_retag, hbehind] at hcloses
      have hne : ¬ o.buys = !o.buys := by cases o.buys <;> simp
      rw [hb, if_neg hne, List.append_nil, hcloses, Fifo.Book.against_trade]
    · have hb : b = !o.buys := Bool.eq_not_of_ne hb
      have hne : otherSide (!o.buys) ≠ closing o.event := by
        rw [o.closing_eq]
        intro he
        have := otherSide_injective he
        cases hbuys : o.buys <;> rw [hbuys] at this <;> cases this
      have hq : o.shares - Fifo.shares ((matching pre).book.against o.buys) +
          Fifo.shares ((matching pre).book.closed o.buys o.shares) = o.shares := by
        rw [Fifo.Book.shares_closed]
        omega
      rw [hb, if_pos rfl, hd.others _ hne, h.shows, Fifo.Book.against_trade_not, Fifo.padded, Fifo.padded, Fifo.retag,
        Fifo.retag, List.map_append, List.map_append]
      simp only [List.map_cons, List.map_nil, hq, told]
  · intro b l hl
    rw [List.map_append]
    rcases hlot hl with ⟨m, hm, he⟩ | he
    · rw [← he]
      exact List.mem_append_left _ (h.known b m hm)
    · rw [he]
      exact List.mem_append_right _ (List.mem_singleton_self _)
  · refine Trace.each_concat.mpr ⟨?_, ?_⟩
    · intro pre' o' suf hsplit b l hl hl'
      have ho' : o'.event.orderId ∈ pre.map (·.event.orderId) := by
        rw [hsplit]
        exact List.mem_map_of_mem (by simp)
      rcases hlot hl with ⟨m, hm, he⟩ | he
      · rw [← he] at hl' ⊢
        exact h.marks pre' o' suf hsplit b m hm hl'
      · rw [he] at hl'
        rw [← hl'] at ho'
        exact absurd ho' hid
    · intro b l hl hl'
      rcases hlot hl with ⟨m, hm, he⟩ | he
      · rw [← he] at hl'
        have hk := h.known b m hm
        rw [hl'] at hk
        exact absurd hk hid
      · rw [he, hspent]
        exact ⟨rfl, rfl⟩

/-- A lot is of one of the fills. -/
theorem LotsShown.exists_fill (h : LotsShown pre) {b : Bool} {l : Nat × Entry} (hl : l ∈ (matching pre).book.against b) :
    ∃ pre' o' suf, pre = pre' ++ o' :: suf ∧ l.2.orderId = o'.event.orderId ∧
      l.2.spent = taken (records pre') o'.event ∧ l.2.price = o'.event.fillPrice := by
  obtain ⟨o', ho', hid⟩ := List.mem_map.mp (h.known b l hl)
  obtain ⟨pre', suf, hsplit⟩ := List.append_of_mem ho'
  obtain ⟨hs, hp⟩ := h.marks pre' o' suf hsplit b l hl hid.symm
  exact ⟨pre', o', suf, hsplit, hid.symm, hs, hp⟩

theorem aligned_of_stops (h : Trace.Each StopsBeforeSpent fills) : LotsShown fills := by
  induction fills using List.reverseRecOn with
  | nil => exact .nil
  | append_singleton fills o ih =>
    obtain ⟨hfills, ho⟩ := Trace.each_concat.mp h
    exact (ih hfills).concat ho

end Steps

section Results
variable {symbol : String} {pre fills : List (Dealt symbol)} {o : Dealt symbol}

def toldGain (pre : List (Dealt symbol)) (o : Dealt symbol) : Rat :=
  Fifo.gain (fun e => round e.price 4) ((matching pre).book.closed o.buys o.shares) (!o.buys) o.event.fillPrice

/-- The record of a fill that stops before spent shares. -/
theorem recordedPnl_concat (h : LotsShown pre) (ho : StopsBeforeSpent pre o) :
    (records (pre ++ [o])).getLast?.map PaperFill.pnl = some (round (toldGain pre o) 4) ∧
      recordedPnl (pre ++ [o]) = recordedPnl pre + round (toldGain pre o) 4 := by
  obtain ⟨hid, hclear⟩ := ho
  obtain ⟨done, hrec, hd⟩ := recorded_concat h hid
  have hsale : decide (o.event.side = "SELL") = !o.buys := by
    rcases o.side with hs | hs
    · simp [Dealt.buys, hs]
    · simp [Dealt.buys, hs]
  have hdone : done.1 = toldGain pre o := by
    have hp := hd.pnl
    rw [zero_add, o.closing_eq, h.shows, ← Dealt.shares, Fifo.front_retag, (Fifo.padded_of_clear hclear).1,
      Fifo.gain_retag, hsale] at hp
    exact hp
  have hk : done.2.map PaperFill.pnl = (records pre).map PaperFill.pnl := by
    have hk := congrArg (List.map PaperFill.pnl) hd.keeps
    rw [List.map_map, List.map_map] at hk
    exact hk
  constructor
  · rw [hrec, List.getLast?_concat, hdone]
    rfl
  · rw [recordedPnl, hrec, List.map_append, hk, List.sum_append, hdone, List.map_singleton, List.sum_singleton]
    rfl

/-- Lots at prices that are near realize results that are near. -/
theorem gain_drift {τ : Type*} {u : Rat} {v v' : τ → Rat} (hv : ∀ t, |v t - v' t| ≤ u) (lots : List (Nat × τ)) (sale : Bool)
    (price : Rat) : Drift u (Fifo.shares lots) (Fifo.gain v lots sale price) (Fifo.gain v' lots sale price) := by
  induction lots with
  | nil => exact Drift.refl u 0
  | cons l lots ih =>
    have hl : |(if sale then price - v l.2 else v l.2 - price) - (if sale then price - v' l.2 else v' l.2 - price)| ≤ u := by
      cases sale
      · simpa using hv l.2
      · simpa [abs_sub_comm] using hv l.2
    rw [Fifo.gain_cons, Fifo.gain_cons, Fifo.shares_cons]
    apply Drift.add _ ih
    rw [Drift, ← sub_mul, abs_mul, Nat.abs_cast, mul_comm]
    exact mul_le_mul_of_nonneg_left hl (Nat.cast_nonneg _)

theorem sum_drift (h : Trace.Each StopsBeforeSpent fills) :
    Drift (1 / 2 / 10 ^ 4) (roundings fills) (recordedPnl fills) (matching fills).realized := by
  induction fills using List.reverseRecOn with
  | nil => exact Drift.refl _ 0
  | append_singleton fills o ih =>
    obtain ⟨hfills, ho⟩ := Trace.each_concat.mp h
    have hgain : Drift (1 / 2 / 10 ^ 4) (1 + Fifo.shares ((matching fills).book.closed o.buys o.shares))
        (round (toldGain fills o) 4)
        (Fifo.gain Entry.price ((matching fills).book.closed o.buys o.shares) (!o.buys) o.event.fillPrice) :=
      (Drift.rounded (fun x => abs_round_sub_le x 4) _).trans
        (gain_drift (fun t : Entry => abs_round_sub_le t.price 4) _ _ _)
    have hn : roundings (fills ++ [o]) =
        roundings fills + (1 + Fifo.shares ((matching fills).book.closed o.buys o.shares)) := by
      rw [roundings, matching_concat, List.length_append, List.length_singleton, roundings, Matched.fill]
      dsimp only
      omega
    rw [(recordedPnl_concat (aligned_of_stops hfills) ho).2, hn, matching_concat]
    exact (ih hfills).add hgain

/-- On the grid of the records nothing is rounded. -/
theorem sum_exact (h : Trace.Each StopsBeforeSpent fills) (hg : ∀ o ∈ fills, o.event.fillPrice ∈ grid 4) :
    recordedPnl fills = (matching fills).realized := by
  induction fills using List.reverseRecOn with
  | nil => rfl
  | append_singleton fills o ih =>
    obtain ⟨hfills, ho⟩ := Trace.each_concat.mp h
    have hal := aligned_of_stops hfills
    have hprice := hg o (List.mem_append_right _ (List.mem_singleton_self o))
    have hlots : ∀ l ∈ (matching fills).book.closed o.buys o.shares, l.2.price ∈ grid 4 := by
      intro l hl
      obtain ⟨m, hm, he⟩ := Fifo.exists_mem_of_mem_front hl
      obtain ⟨pre, o', suf, hsplit, -, -, hp⟩ := hal.exists_fill hm
      rw [← he, hp]
      apply hg
      rw [hsplit]
      simp
    have htold : toldGain fills o =
        Fifo.gain Entry.price ((matching fills).book.closed o.buys o.shares) (!o.buys) o.event.fillPrice := by
      rw [toldGain, Fifo.gain, Fifo.gain]
      congr 1
      apply List.map_congr_left
      intro l hl
      rw [round_of_mem (hlots l hl)]
    have hmem : toldGain fills o ∈ grid 4 := by
      rw [htold, Fifo.gain]
      apply list_sum_mem
      intro x hx
      obtain ⟨l, hl, rfl⟩ := List.mem_map.mp hx
      have hd : (if (!o.buys) then o.event.fillPrice - l.2.price else l.2.price - o.event.fillPrice) ∈ grid 4 := by
        split
        · exact AddSubgroup.sub_mem _ hprice (hlots l hl)
        · exact AddSubgroup.sub_mem _ (hlots l hl) hprice
      have hm := mul_intCast_mem hd l.1
      rw [Int.cast_natCast] at hm
      exact hm
    rw [(recordedPnl_concat hal ho).2, round_of_mem hmem, ih hfills fun o ho => hg o (List.mem_append_left _ ho),
      matching_concat, htold]
    rfl

/-- Fills matched first in, first out realize what was sold over what was bought, less what is still open. -/
theorem matching_spec (fills : List (Dealt symbol)) :
    let m := matching fills
    m.book.OneSided ∧ m.book.net = netQuantity fills ∧
      m.realized = sellNotional fills - buyNotional fills + Fifo.cost Entry.price m.book.long -
        Fifo.cost Entry.price m.book.short := by
  induction fills using List.reverseRecOn with
  | nil => exact ⟨.inl rfl, rfl, by simp [matching, sellNotional, buyNotional]⟩
  | append_singleton fills o ih =>
    obtain ⟨hone, hnet, hrealized⟩ := ih
    have hshares : (o.shares : Int) = o.event.quantity := Int.toNat_of_nonneg o.some.le
    have hsplit (m : Nat) : ((o.shares - m : Nat) : Rat) + ((min o.shares m : Nat) : Rat) = o.event.quantity := by
      rw [← Nat.cast_add, Nat.sub_add_min_cancel, ← hshares, Int.cast_natCast]
    dsimp only
    rw [matching_concat]
    refine ⟨hone.trade _ _ _, ?_, ?_⟩
    · have hsigned : (if o.buys then (o.shares : Int) else -(o.shares : Int)) = o.event.signedQuantity := by
        rw [OrderFilled.signedQuantity, Dealt.buys, hshares]
        simp
      rw [Matched.fill, Fifo.Book.net_trade, hnet, hsigned, netQuantity, netQuantity, List.map_append, List.sum_append,
        List.map_singleton, List.sum_singleton]
    · rw [Matched.fill]
      dsimp only
      rw [hrealized, Fifo.gain_eq, Fifo.Book.shares_closed]
      cases hb : o.buys with
      | true =>
        have hs : sellNotional (fills ++ [o]) = sellNotional fills := by simp [sellNotional, hb]
        have hbuy : buyNotional (fills ++ [o]) = buyNotional fills + o.event.notional := by simp [buyNotional, hb]
        have hcost := Fifo.cost_front_add_behind Entry.price o.shares (matching fills).book.short
        have hn := hsplit (Fifo.shares (matching fills).book.short)
        simp only [Fifo.Book.closed, Fifo.Book.trade, Fifo.Book.against, if_true, Bool.not_true, Bool.false_eq_true,
          if_false, Fifo.cost_append, Fifo.cost_cons, Fifo.cost_nil, hs, hbuy, OrderFilled.notional]
        linear_combination hcost - o.event.fillPrice * hn
      | false =>
        have hs : sellNotional (fills ++ [o]) = sellNotional fills + o.event.notional := by simp [sellNotional, hb]
        have hbuy : buyNotional (fills ++ [o]) = buyNotional fills := by simp [buyNotional, hb]
        have hcost := Fifo.cost_front_add_behind Entry.price o.shares (matching fills).book.long
        have hn := hsplit (Fifo.shares (matching fills).book.long)
        simp only [Fifo.Book.closed, Fifo.Book.trade, Fifo.Book.against, if_true, Bool.not_false, Bool.false_eq_true,
          if_false, Fifo.cost_append, Fifo.cost_cons, Fifo.cost_nil, hs, hbuy, OrderFilled.notional]
        linear_combination o.event.fillPrice * hn - hcost

/-- Without shares the result is what was sold over what was bought. -/
theorem realized_of_flat (h : netQuantity fills = 0) : (matching fills).realized = sellNotional fills - buyNotional fills := by
  obtain ⟨hone, hnet, hrealized⟩ := matching_spec fills
  rw [h, Fifo.Book.net] at hnet
  have hboth : Fifo.shares (matching fills).book.long = 0 ∧ Fifo.shares (matching fills).book.short = 0 := by
    rcases hone with h0 | h0 <;> omega
  rw [hrealized, Fifo.cost_of_shares _ hboth.1, Fifo.cost_of_shares _ hboth.2, add_zero, sub_zero]

/-- No record was matched with more shares than its fill opened. -/
theorem once_of_shown (h : LotsShown fills) : Trace.Each (fun pre o => ∀ f ∈ records fills, f.orderId = o.event.orderId →
    taken (records pre) o.event ≤ f.openQty.toNat) fills := by
  intro pre o suf hsplit f hf hid
  obtain ⟨b, hb⟩ := h.sides f hf
  have hmem : (f.openQty.toNat, (f.orderId, f.price)) ∈ shown (otherSide b) (records fills) :=
    List.mem_map.mpr ⟨f, List.mem_filter.mpr ⟨hf, decide_eq_true hb⟩, rfl⟩
  rw [h.shows] at hmem
  obtain ⟨l, hl, he⟩ := List.mem_map.mp hmem
  obtain ⟨hq, ht⟩ := Prod.mk.inj he
  obtain ⟨m, hm, rfl⟩ := List.mem_map.mp hl
  have hlid : m.2.orderId = o.event.orderId := (congrArg Prod.fst ht).trans hid
  rw [← (h.marks pre o suf hsplit b m hm hlid).1, ← hq]
  exact Nat.le_add_left _ _

theorem realizes_of_stops (h : Trace.Each StopsBeforeSpent fills) : RealizesFifo fills where
  recorded := by
    have hk := congrArg List.length (aligned_of_stops h).keyed
    rw [List.length_map, List.length_map] at hk
    exact hk
  once := once_of_shown (aligned_of_stops h)
  sum := sum_drift h
  exact := sum_exact h
  opening := by
    rintro pre o rfl hclosed
    obtain ⟨hpre, ho⟩ := Trace.each_concat.mp h
    rw [(recordedPnl_concat (aligned_of_stops hpre) ho).1, toldGain, Fifo.gain_of_shares _ hclosed,
      round_of_mem (AddSubgroup.zero_mem _)]
  flat hn := by
    rw [← realized_of_flat hn]
    exact sum_drift h

/-- A fill after which the records still realize first in first out stopped before spent shares. -/
theorem stops_of_realizes (h : LotsShown pre) (hr : RealizesFifo (pre ++ [o])) : StopsBeforeSpent pre o := by
  have hid : o.event.orderId ∉ pre.map (·.event.orderId) := by
    intro hid
    have hlen := hr.recorded
    have hk := congrArg List.length h.keyed
    rw [List.length_map, List.length_map] at hk
    rw [records_concat, recordFill, any_orderId h, decide_eq_true hid, if_pos rfl, hk, List.length_append,
      List.length_singleton] at hlen
    omega
  refine ⟨hid, Fifo.clear_of_spent_le fun l hl => ?_⟩
  obtain ⟨done, hrec, hd⟩ := recorded_concat h hid
  have hshown : (l.1, told l.2) ∈ shown (closing o.event) done.2 := by
    rw [hd.closes, o.closing_eq, h.shows, Fifo.behind_retag]
    exact List.mem_map.mpr ⟨l, hl, rfl⟩
  obtain ⟨f, hf, he⟩ := List.mem_map.mp hshown
  obtain ⟨hq, ht⟩ := Prod.mk.inj he
  obtain ⟨m, hm, hml⟩ := Fifo.exists_mem_of_mem_behind hl
  obtain ⟨lot, hlot, rfl⟩ := List.mem_map.mp hm
  obtain ⟨pre', o', suf, hsplit, hlid, hspent, -⟩ := h.exists_fill hlot
  have hml : lot.2 = l.2 := hml
  have hfid : f.orderId = o'.event.orderId := by
    rw [← hlid, hml]
    exact congrArg Prod.fst ht
  have hmem : f ∈ records (pre ++ [o]) := by
    rw [hrec]
    exact List.mem_append_left _ (List.mem_filter.mp hf).1
  have honce := hr.once pre' o' (suf ++ [o]) (by rw [hsplit]; simp) f hmem hfid
  rw [← hml, hspent, ← hq]
  exact honce

/-- The records realize fills first in first out, at every point, exactly if each fill has an order of its own
and is used up before it leaves a lot that closed others. -/
theorem realizes_fifo_iff (symbol : String) (fills : List (Dealt symbol)) :
    (∀ pre, pre <+: fills → RealizesFifo pre) ↔ Trace.Each StopsBeforeSpent fills := by
  constructor
  · intro h
    induction fills using List.reverseRecOn with
    | nil => exact Trace.Each.nil _
    | append_singleton fills o ih =>
      have hfills := ih fun pre hpre => h pre (hpre.trans (List.prefix_append fills [o]))
      refine Trace.each_concat.mpr ⟨hfills, ?_⟩
      exact stops_of_realizes (aligned_of_stops hfills) (h _ List.prefix_rfl)
  · intro h pre hpre
    exact realizes_of_stops (h.of_isPrefix hpre)

end Results

section Scans
variable {history again : List OrderFilled} {fills : List PaperFill}

theorem orderIds_realizing (event : OrderFilled) (remaining : Int) (pnl : Rat) (fills : List PaperFill) :
    (realizing event remaining pnl fills).2.map PaperFill.orderId = fills.map PaperFill.orderId := by
  induction fills generalizing remaining pnl with
  | nil => rfl
  | cons f fills ih =>
    rw [realizing]
    split
    · rw [List.map_cons, List.map_cons, ih]
    · dsimp only
      split
      · rw [List.map_cons, List.map_cons, ih]
      · split
        · rfl
        · rw [List.map_cons, List.map_cons, ih]

theorem orderId_mem_recordFill (event : OrderFilled) {id : String}
    (h : id = event.orderId ∨ id ∈ fills.map PaperFill.orderId) :
    id ∈ (recordFill fills event).map PaperFill.orderId := by
  rw [recordFill]
  split
  · next hany =>
    obtain ⟨f, hf, he⟩ := List.any_eq_true.mp hany
    rcases h with rfl | h
    · exact List.mem_map.mpr ⟨f, hf, of_decide_eq_true he⟩
    · exact h
  · rw [List.map_append, realizedPnl, orderIds_realizing]
    rcases h with rfl | h
    · exact List.mem_append_right _ (List.mem_singleton_self _)
    · exact List.mem_append_left _ h

theorem orderId_mem_recordFills {id : String}
    (h : id ∈ history.map OrderFilled.orderId ∨ id ∈ fills.map PaperFill.orderId) :
    id ∈ (recordFills history fills).map PaperFill.orderId := by
  induction history generalizing fills with
  | nil => exact h.resolve_left List.not_mem_nil
  | cons e history ih =>
    apply ih
    rcases h with h | h
    · rcases List.mem_cons.mp h with h | h
      · exact .inr (orderId_mem_recordFill e (.inl h))
      · exact .inl h
    · exact .inr (orderId_mem_recordFill e (.inr h))

/-- A scan that meets fills again, as far as the history still has them, records what is new. -/
theorem recordFills_again (h : ∀ e ∈ again, e ∈ history) (more : List OrderFilled) :
    recordFills (again ++ more) (recordFills history fills) = recordFills (history ++ more) fills := by
  have hknown : ∀ e ∈ again, e.orderId ∈ (recordFills history fills).map PaperFill.orderId := fun e he =>
    orderId_mem_recordFills (.inl (List.mem_map_of_mem (h e he)))
  have hsame : recordFills again (recordFills history fills) = recordFills history fills := by
    clear h
    induction again with
    | nil => rfl
    | cons e again ih =>
      obtain ⟨f, hf, he⟩ := List.mem_map.mp (hknown e List.mem_cons_self)
      have hany : (recordFills history fills).any (·.orderId = e.orderId) = true :=
        List.any_eq_true.mpr ⟨f, hf, decide_eq_true he⟩
      have hone : recordFill (recordFills history fills) e = recordFills history fills := by rw [recordFill, if_pos hany]
      rw [recordFills, List.foldl_cons, hone]
      exact ih fun e he => hknown e (List.mem_cons_of_mem _ he)
  have happend (xs : List OrderFilled) (fills : List PaperFill) :
      recordFills (xs ++ more) fills = recordFills more (recordFills xs fills) := List.foldl_append
  rw [happend, happend, hsame]

end Scans

private def dealt (orderId : String) (side : String) (quantity : Int) (fillPrice : Rat)
    (hs : side = "BUY" ∨ side = "SELL") (hq : 0 < quantity) : Dealt "NIFTY" where
  event := { orderId, symbol := "NIFTY", exchange := "NFO", side, quantity, fillPrice }
  of := rfl
  side := hs
  some := hq

private def reentered : List (Dealt "NIFTY") :=
  [dealt "1" "BUY" 10 100 (.inl rfl) (by decide), dealt "2" "SELL" 10 110 (.inr rfl) (by decide),
    dealt "3" "BUY" 10 105 (.inl rfl) (by decide)]

/-- The purchase is matched with the sale that closed the long trade, and 50 more are realized. -/
theorem reentry_realizes_twice : ¬ ∀ symbol (fills : List (Dealt symbol)), RealizesFifo fills := by
  intro h
  have hround : ∀ o ∈ reentered, round o.event.fillPrice 4 = o.event.fillPrice := by decide +kernel
  have hsum := (h "NIFTY" reentered).exact fun o ho => by
    rw [← hround o ho]
    exact round_mem _ 4
  revert hsum
  decide +kernel

end NTrade.Api
