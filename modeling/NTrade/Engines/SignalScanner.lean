import NTrade.Engines.OpeningRange
import NTrade.Lib.Dict
import NTrade.Lib.Trace

/-! The scanner of breakouts over a watchlist. A bar that does not exit a trade goes on to the check for an entry,
and an entry that is found there replaces the trade. -/
namespace NTrade.Engines
open NTrade.Domain NTrade.Lib

structure ScanBar extends FrameBar where
  minute : Option Int := none
  deriving DecidableEq, Repr

inductive ScanDetail where
  | entry (sl tp : Rat)
  | exit (reason : String) (pnl entry : Rat)
  deriving DecidableEq, Repr

structure ScanSignal where
  symbol : String
  side : SignalSide
  price : Rat
  detail : ScanDetail
  deriving DecidableEq, Repr

/-- What the scanner keeps of a symbol. No low yet is infinity. -/
structure Watch where
  bars : List FrameBar := []
  orbHigh : Rat := 0
  orbLow : Option Rat := none
  orbReady : Bool := false
  active : Option ActiveTrade := none
  deriving DecidableEq, Repr

namespace Watch

def minuteOf (bar : ScanBar) : Int := bar.minute.getD 0

def keep (bar : ScanBar) (w : Watch) : Watch :=
  let bars := w.bars ++ [bar.toFrameBar]
  { w with bars := if 100 < bars.length then bars.tail else bars }

def range (bar : ScanBar) (w : Watch) : Watch :=
  if w.orbReady then w
  else if 9 * 60 + 15 ≤ minuteOf bar ∧ minuteOf bar < 9 * 60 + 30 then
    { w with orbHigh := max w.orbHigh bar.high, orbLow := some (w.orbLow.elim bar.low fun low => min low bar.low) }
  else if 9 * 60 + 30 ≤ minuteOf bar then { w with orbReady := true }
  else w

def endOf (bar : ScanBar) (t : ActiveTrade) : Option (Rat × String × Rat) :=
  match t.side with
  | .buy =>
    if bar.low ≤ t.sl then some (t.sl, "SL", t.sl - t.entry)
    else if t.tp ≤ bar.high then some (t.tp, "TP", t.tp - t.entry)
    else none
  | .sell =>
    if t.sl ≤ bar.high then some (t.sl, "SL", t.entry - t.sl)
    else if bar.low ≤ t.tp then some (t.tp, "TP", t.entry - t.tp)
    else none

def manageExit (symbol : String) (bar : ScanBar) (w : Watch) : Watch × Option ScanSignal :=
  match w.active with
  | none => (w, none)
  | some t =>
    match endOf bar t with
    | some (price, reason, pnl) =>
      ({ w with active := none }, some { symbol, side := t.side.opposite, price, detail := .exit reason pnl t.entry })
    | none => ({ w with active := some { t with high := max t.high bar.high, low := min t.low bar.low } }, none)

/-- The side and the levels of an entry at a bar, if it breaks the range, or the error of an average price that is
not a number. -/
def breaks (bar : ScanBar) (w : Watch) : Except String (Option (SignalSide × Rat × Rat)) :=
  match w.orbLow with
  | none => .ok none
  | some orbLow =>
    if w.bars.length < 21 ∨ w.orbHigh ≤ orbLow then .ok none
    else
      match (vwap w.bars).getLast?.join with
      | none => .error "float() argument must be a string or a real number, not 'NAType'"
      | some vwapVal =>
        let ema9 := OpeningRangeBreakout.lastEma 9 w.bars
        let ema21 := OpeningRangeBreakout.lastEma 21 w.bars
        let rangeWidth := w.orbHigh - orbLow
        if rangeWidth ≤ 0 then .ok none
        else if w.orbHigh < bar.close ∧ vwapVal < bar.close ∧ ema21 < ema9 ∧ 0 < ema21 then
          .ok (some (.buy, max vwapVal orbLow, bar.close + rangeWidth * 2))
        else if bar.close < orbLow ∧ bar.close < vwapVal ∧ ema9 < ema21 ∧ 0 < ema21 then
          .ok (some (.sell, min vwapVal w.orbHigh, bar.close - rangeWidth * 2))
        else .ok none

/-- Whether entries are looked for at a bar (09:30-10:30). -/
def looks (bar : ScanBar) (w : Watch) : Bool :=
  w.orbReady = true ∧ 9 * 60 + 30 ≤ minuteOf bar ∧ minuteOf bar < 10 * 60 + 30

/-- `_check_entry`, where entries are looked for. -/
def checkEntry (symbol : String) (bar : ScanBar) (w : Watch) : Watch × Except String (Option ScanSignal) :=
  if looks bar w then
    match breaks bar w with
    | .error err => (w, .error err)
    | .ok none => (w, .ok none)
    | .ok (some (side, sl, tp)) =>
      ({ w with active := some { side, entry := bar.close, sl, tp, qty := 1, high := bar.close, low := bar.close } },
        .ok (some { symbol, side, price := bar.close, detail := .entry sl tp }))
  else (w, .ok none)

/-- `on_bar`, for a symbol of the watchlist. -/
def onBar (symbol : String) (bar : ScanBar) (w : Watch) : Watch × Except String (Option ScanSignal) :=
  match manageExit symbol bar ((w.keep bar).range bar) with
  | (w, some signal) => (w, .ok (some signal))
  | (w, none) => checkEntry symbol bar w

end Watch

structure SignalScanner where
  watchlist : List String
  watches : Dict String Watch := Dict.empty
  signals : List ScanSignal := []

namespace SignalScanner

def watch (s : SignalScanner) (symbol : String) : Watch := s.watches.getD symbol {}

def onBar (symbol : String) (bar : ScanBar) (s : SignalScanner) : SignalScanner × Except String (Option ScanSignal) :=
  if symbol ∈ s.watchlist then
    let (w, answer) := (s.watch symbol).onBar symbol bar
    ({ s with
       watches := s.watches.set symbol w
       signals := s.signals ++ (match answer with | .ok signal => signal.toList | .error _ => []) }, answer)
  else (s, .ok none)

def run (s : SignalScanner) (bars : List (String × ScanBar)) : SignalScanner :=
  bars.foldl (fun s b => (s.onBar b.1 b.2).1) s

@[simp] theorem run_concat (s : SignalScanner) (bars : List (String × ScanBar)) (b : String × ScanBar) :
    s.run (bars ++ [b]) = ((s.run bars).onBar b.1 b.2).1 := by
  simp [run]

def signalsOf (s : SignalScanner) (symbol : String) : List ScanSignal := s.signals.filter fun x => x.symbol = symbol

end SignalScanner

section Pairs

/-- Entries and exits by turns, each exit of the entry before it: to the other side, and with its price. -/
def Paired (signals : List ScanSignal) : Prop :=
  ∀ (i : Nat) (x : ScanSignal), signals[i]? = some x →
    match x.detail with
    | .entry .. => i % 2 = 0
    | .exit _ _ entry => i % 2 = 1 ∧ ∃ y, signals[i - 1]? = some y ∧ y.price = entry ∧ x.side = y.side.opposite

def OpenTrade (signals : List ScanSignal) (active : Option ActiveTrade) : Prop :=
  match active with
  | none => signals.length % 2 = 0
  | some t => signals.length % 2 = 1 ∧ ∃ y, signals.getLast? = some y ∧ y.price = t.entry ∧ y.side = t.side

theorem paired_concat {signals : List ScanSignal} (h : Paired signals) {x : ScanSignal}
    (hx : match x.detail with
      | .entry .. => signals.length % 2 = 0
      | .exit _ _ entry => signals.length % 2 = 1 ∧
          ∃ y, signals.getLast? = some y ∧ y.price = entry ∧ x.side = y.side.opposite) : Paired (signals ++ [x]) := by
  intro i z hz
  rcases lt_or_ge i signals.length with hi | hi
  · rw [List.getElem?_append_left hi] at hz
    have hold := h i z hz
    cases hd : z.detail with
    | entry sl tp =>
      rw [hd] at hold
      exact hold
    | exit reason pnl entry =>
      rw [hd] at hold
      obtain ⟨hodd, y, hy, hrest⟩ := hold
      exact ⟨hodd, y, by rw [List.getElem?_append_left (by omega)]; exact hy, hrest⟩
  · rw [List.getElem?_append_right hi, List.getElem?_singleton] at hz
    split_ifs at hz with hzero
    obtain rfl := Option.some.inj hz
    have hlen : i = signals.length := le_antisymm (Nat.sub_eq_zero_iff_le.mp hzero) hi
    cases hd : x.detail with
    | entry sl tp =>
      rw [hd] at hx
      rw [hlen]
      exact hx
    | exit reason pnl entry =>
      rw [hd] at hx
      obtain ⟨hodd, y, hy, hrest⟩ := hx
      rw [hlen]
      refine ⟨hodd, y, ?_, hrest⟩
      rw [List.getElem?_append_left (by omega), ← List.getLast?_eq_getElem?]
      exact hy

/-- A second entry after the one that is open breaks the pairs. -/
theorem not_paired_of_entry {signals : List ScanSignal} (h : signals.length % 2 = 1) {x : ScanSignal} {sl tp : Rat}
    (hx : x.detail = .entry sl tp) : ¬ Paired (signals ++ [x]) := by
  intro hp
  have hlast := hp signals.length x List.getElem?_concat_length
  rw [hx] at hlast
  omega

end Pairs

namespace Watch
variable {symbol : String} {bar : ScanBar} {w : Watch}

/-- The range is built with the trade as it is. -/
theorem range_keep_active (bar : ScanBar) (w : Watch) : ((w.keep bar).range bar).active = w.active := by
  rw [range]
  split_ifs <;> rfl

def reenters (bar : ScanBar) (w : Watch) : Bool :=
  w.active.any fun t => (endOf bar t).isNone &&
    (looks bar ((w.keep bar).range bar) &&
      match breaks bar ((w.keep bar).range bar) with
      | .ok (some _) => true
      | _ => false)

theorem breaks_active (bar : ScanBar) (w : Watch) (active : Option ActiveTrade) :
    breaks bar { w with active } = breaks bar w := rfl

theorem looks_active (bar : ScanBar) (w : Watch) (active : Option ActiveTrade) :
    looks bar { w with active } = looks bar w := rfl

/-- A signal names the symbol of its bar. -/
theorem onBar_symbol {x : ScanSignal} (h : (w.onBar symbol bar).2 = .ok (some x)) : x.symbol = symbol := by
  rw [onBar, manageExit] at h
  have hcheck {w : Watch} (hc : (checkEntry symbol bar w).2 = .ok (some x)) : x.symbol = symbol := by
    rw [checkEntry] at hc
    split_ifs at hc
    · cases hb : breaks bar w with
      | error err =>
        rw [hb] at hc
        cases hc
      | ok levels =>
        rw [hb] at hc
        cases levels with
        | none => cases hc
        | some l => rw [← Option.some.inj (Except.ok.inj hc)]
    · cases hc
  cases ha : ((w.keep bar).range bar).active with
  | none =>
    rw [ha] at h
    exact hcheck h
  | some t =>
    rw [ha] at h
    dsimp only at h
    cases hend : endOf bar t with
    | none =>
      rw [hend] at h
      exact hcheck h
    | some stop =>
      rw [hend] at h
      rw [← Option.some.inj (Except.ok.inj h)]

/-- The signals of a bar that does not enter over an open trade. -/
theorem onBar_paired {signals : List ScanSignal} (hp : Paired signals) (ho : OpenTrade signals w.active)
    (h : w.reenters bar = false) {more : List ScanSignal}
    (hm : more = match (w.onBar symbol bar).2 with | .ok signal => signal.toList | .error _ => []) :
    Paired (signals ++ more) ∧ OpenTrade (signals ++ more) (w.onBar symbol bar).1.active := by
  have hactive := range_keep_active bar w
  rw [reenters] at h
  rw [onBar, manageExit, hactive] at hm ⊢
  cases ha : w.active with
  | none =>
    rw [ha] at hm ho hactive
    dsimp only at hm ⊢
    rw [checkEntry] at hm ⊢
    split_ifs at hm ⊢
    · cases hb : breaks bar ((w.keep bar).range bar) with
      | error err =>
        rw [hb] at hm
        rw [hm, List.append_nil]
        exact ⟨hp, by rw [hactive]; exact ho⟩
      | ok levels =>
        rw [hb] at hm
        cases levels with
        | none =>
          rw [hm]
          dsimp only [Option.toList]
          rw [List.append_nil, hactive]
          exact ⟨hp, ho⟩
        | some l =>
          rw [hm]
          dsimp only [Option.toList]
          refine ⟨paired_concat hp ho, ?_, _, List.getLast?_concat, rfl, rfl⟩
          rw [List.length_append, List.length_singleton, Nat.add_mod, ho]
    · rw [hm]
      dsimp only [Option.toList]
      rw [List.append_nil, hactive]
      exact ⟨hp, ho⟩
  | some t =>
    rw [ha] at hm ho h
    obtain ⟨hodd, y, hy, hprice, hside⟩ := ho
    dsimp only at hm ⊢
    cases hend : endOf bar t with
    | some stop =>
      rw [hend] at hm
      rw [hm]
      dsimp only [Option.toList]
      refine ⟨paired_concat hp ⟨hodd, y, hy, hprice, by rw [hside]⟩, ?_⟩
      rw [OpenTrade, List.length_append, List.length_singleton, Nat.add_mod, hodd]
    | none =>
      rw [hend] at hm
      have hnone : more = [] ∧ (checkEntry symbol bar { (w.keep bar).range bar with
          active := some { t with high := max t.high bar.high, low := min t.low bar.low } }).1 =
            { (w.keep bar).range bar with active := some { t with high := max t.high bar.high, low := min t.low bar.low } } := by
        dsimp only at hm
        rw [checkEntry] at hm ⊢
        rw [Option.any_some, hend, Option.isNone_none, Bool.true_and] at h
        split_ifs at hm ⊢ with hlooks
        · rw [breaks_active] at hm ⊢
          rw [looks_active] at hlooks
          rw [hlooks, Bool.true_and] at h
          cases hb : breaks bar ((w.keep bar).range bar) with
          | error err =>
            rw [hb] at hm
            exact ⟨hm, rfl⟩
          | ok levels =>
            rw [hb] at hm h
            cases levels with
            | none => exact ⟨hm, rfl⟩
            | some l => cases h
        · exact ⟨hm, rfl⟩
      dsimp only
      rw [hnone.1, hnone.2, List.append_nil]
      exact ⟨hp, hodd, y, hy, hprice, hside⟩

/-- An entry over an open trade is a second one. -/
theorem onBar_reenters {signals : List ScanSignal} (ho : OpenTrade signals w.active) (h : w.reenters bar = true) :
    ∃ x, (w.onBar symbol bar).2 = .ok (some x) ∧ x.symbol = symbol ∧ ¬ Paired (signals ++ [x]) := by
  have hactive := range_keep_active bar w
  rw [reenters] at h
  cases ha : w.active with
  | none =>
    rw [ha] at h
    cases h
  | some t =>
    rw [ha, Option.any_some, Bool.and_eq_true, Bool.and_eq_true, Option.isNone_iff_eq_none] at h
    obtain ⟨hend, hlooks, hbreaks⟩ := h
    rw [ha] at ho
    rw [onBar, manageExit, hactive, ha]
    dsimp only
    rw [hend]
    dsimp only
    rw [checkEntry, looks_active, if_pos hlooks, breaks_active]
    cases hb : breaks bar ((w.keep bar).range bar) with
    | error err =>
      rw [hb] at hbreaks
      cases hbreaks
    | ok levels =>
      cases levels with
      | none =>
        rw [hb] at hbreaks
        cases hbreaks
      | some l => exact ⟨_, rfl, rfl, not_paired_of_entry ho.1 rfl⟩

end Watch

namespace SignalScanner
variable {s : SignalScanner}

/-- What a bar of the watchlist does to the signals and the state of each symbol. -/
private theorem onBar_spec {symbol : String} (hs : symbol ∈ s.watchlist) (bar : ScanBar) :
    ∃ more, more = (match ((s.watch symbol).onBar symbol bar).2 with | .ok signal => signal.toList | .error _ => []) ∧
      (s.onBar symbol bar).1.signalsOf symbol = s.signalsOf symbol ++ more ∧
      (s.onBar symbol bar).1.watch symbol = ((s.watch symbol).onBar symbol bar).1 ∧
      ∀ other, other ≠ symbol → (s.onBar symbol bar).1.signalsOf other = s.signalsOf other ∧
        (s.onBar symbol bar).1.watch other = s.watch other := by
  refine ⟨_, rfl, ?_⟩
  rw [onBar, if_pos hs]
  dsimp only [signalsOf, watch]
  have hall (x : ScanSignal)
      (hx : x ∈ (match ((s.watch symbol).onBar symbol bar).2 with | .ok signal => signal.toList | .error _ => [])) :
      x.symbol = symbol := by
    cases hanswer : ((s.watch symbol).onBar symbol bar).2 with
    | error err =>
      rw [hanswer] at hx
      cases hx
    | ok signal =>
      rw [hanswer] at hx
      exact Watch.onBar_symbol (hanswer.trans (congrArg Except.ok (Option.mem_toList.mp hx)))
  rw [watch] at hall
  refine ⟨?_, ?_, fun other ho => ⟨?_, ?_⟩⟩
  · rw [List.filter_append]
    exact congrArg _ (List.filter_eq_self.mpr fun x hx => decide_eq_true (hall x hx))
  · rw [Dict.getD, Dict.get_set_self]
    rfl
  · rw [List.filter_append]
    have hnone : (match ((s.watches.getD symbol {}).onBar symbol bar).2 with
        | .ok signal => signal.toList
        | .error _ => []).filter (fun (x : ScanSignal) => x.symbol = other) = [] :=
      List.filter_eq_nil_iff.mpr fun x hx hother => ho ((of_decide_eq_true hother).symm.trans (hall x hx))
    rw [hnone, List.append_nil]
  · rw [Dict.getD, Dict.get_set_of_ne ho]
    rfl

def InPairs (s : SignalScanner) : Prop :=
  ∀ symbol, Paired (s.signalsOf symbol) ∧ OpenTrade (s.signalsOf symbol) (s.watch symbol).active

def reenters (s : SignalScanner) (b : String × ScanBar) : Bool := b.1 ∈ s.watchlist && (s.watch b.1).reenters b.2

theorem inPairs_onBar (h : s.InPairs) {b : String × ScanBar} (hb : s.reenters b = false) : (s.onBar b.1 b.2).1.InPairs := by
  intro symbol
  by_cases hs : b.1 ∈ s.watchlist
  · obtain ⟨more, hmore, hsignals, hwatch, hothers⟩ := onBar_spec hs b.2
    rw [reenters, decide_eq_true hs, Bool.true_and] at hb
    by_cases ho : symbol = b.1
    · rw [ho, hsignals, hwatch]
      exact Watch.onBar_paired (h b.1).1 (h b.1).2 hb hmore
    · rw [(hothers symbol ho).1, (hothers symbol ho).2]
      exact h symbol
  · rw [onBar, if_neg hs]
    exact h symbol

theorem not_paired_onBar (h : s.InPairs) {b : String × ScanBar} (hb : s.reenters b = true) :
    ¬ Paired ((s.onBar b.1 b.2).1.signalsOf b.1) := by
  rw [reenters, Bool.and_eq_true] at hb
  obtain ⟨more, hmore, hsignals, -⟩ := onBar_spec (of_decide_eq_true hb.1) b.2
  obtain ⟨x, hx, -, hbroken⟩ := @Watch.onBar_reenters b.1 b.2 _ _ (h b.1).2 hb.2
  rw [hx] at hmore
  rw [hsignals, hmore]
  exact hbroken

/-- The signals of every symbol are pairs of an entry and its exit, at every point of a stream, exactly if no bar enters
over an open trade. -/
theorem alternates_iff (watchlist : List String) (bars : List (String × ScanBar)) :
    (∀ pre, pre <+: bars → ∀ symbol, Paired ((({ watchlist } : SignalScanner).run pre).signalsOf symbol)) ↔
      Trace.Each (fun pre b => (({ watchlist } : SignalScanner).run pre).reenters b = false) bars := by
  have hrun (t : List (String × ScanBar))
      (ht : Trace.Each (fun pre b => (({ watchlist } : SignalScanner).run pre).reenters b = false) t) :
      (({ watchlist } : SignalScanner).run t).InPairs := by
    induction t using List.reverseRecOn with
    | nil => exact fun symbol => ⟨nofun, rfl⟩
    | append_singleton t b ih =>
      obtain ⟨hs, hb⟩ := Trace.each_concat.mp ht
      rw [run_concat]
      exact inPairs_onBar (ih hs) hb
  constructor
  · intro h
    have hall (t : List (String × ScanBar)) (ht : t <+: bars) :
        Trace.Each (fun pre b => (({ watchlist } : SignalScanner).run pre).reenters b = false) t := by
      induction t using List.reverseRecOn with
      | nil => exact Trace.Each.nil _
      | append_singleton t b ih =>
        have hs := ih ((List.prefix_append t [b]).trans ht)
        refine Trace.each_concat.mpr ⟨hs, ?_⟩
        cases hb : (({ watchlist } : SignalScanner).run t).reenters b with
        | false => rfl
        | true =>
          have hpaired := h (t ++ [b]) ht b.1
          rw [run_concat] at hpaired
          exact absurd hpaired (not_paired_onBar (hrun t hs) hb)
    exact hall bars List.prefix_rfl
  · intro h pre hpre symbol
    exact (hrun pre (h.of_isPrefix hpre) symbol).1

def barAt (minute : Int) (price : Rat) : String × ScanBar :=
  ("RELIANCE", { high := price + 1, low := price - 1, close := price, volume := 10, minute := some minute })

/-- Two bars in a row break the range, and the first trade reaches neither of its levels. -/
theorem second_entry_over_open_trade :
    ¬ ∀ pre, pre <+: List.replicate 20 (barAt 560 100) ++ [barAt 575 110, barAt 576 111] →
      ∀ symbol, Paired ((({ watchlist := ["RELIANCE"] } : SignalScanner).run pre).signalsOf symbol) := by
  intro h
  have hpairs := h _ List.prefix_rfl "RELIANCE"
  have hentry : ((({ watchlist := ["RELIANCE"] } : SignalScanner).run
      (List.replicate 20 (barAt 560 100) ++ [barAt 575 110, barAt 576 111])).signalsOf "RELIANCE")[1]? =
        some { symbol := "RELIANCE", side := .buy, price := 111, detail := .entry (2221 / 22) 115 } := by
    decide +kernel
  exact absurd (hpairs 1 _ hentry) (by decide)

end SignalScanner
end NTrade.Engines
