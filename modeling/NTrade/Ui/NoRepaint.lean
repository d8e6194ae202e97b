import NTrade.Ui.ReplayPaperTrader

/-! Trades of a replay that stay as they are when more bars are revealed. A run over the first bars takes the markers
up to the last of them, the full run takes more: up to these bars the two are in the same state. -/
namespace NTrade.Ui.ReplayPaperTrader
open NTrade.Lib.Grouping NTrade.Ui.MergeLive
variable {symbol : String} {lot : Int} {initialCapital horizon : Rat} {b : Book} {c : Candle}

section Future

def upTo (horizon : Rat) (markers : List HalfTrendMarker) : List HalfTrendMarker :=
  markers.filter fun m => m.time ≤ horizon

def Ordered (markers : List HalfTrendMarker) : Prop := markers.Pairwise fun m m' => m.time ≤ m'.time

theorem upTo_eq_nil {markers : List HalfTrendMarker} (h : ∀ m ∈ markers, horizon < m.time) :
    upTo horizon markers = [] := by
  apply List.filter_eq_nil_iff.mpr
  intro m hm
  rw [decide_eq_true_eq]
  exact not_le.mpr (h m hm)

/-- A bar does not see the markers after a time that it is not after itself. -/
theorem takeMarkers_upTo {left : List HalfTrendMarker} (hs : Ordered left) (hc : c.time ≤ horizon) :
    takeMarkers symbol lot c (upTo horizon left) b =
        ((takeMarkers symbol lot c left b).1, upTo horizon (takeMarkers symbol lot c left b).2) ∧
      Ordered (takeMarkers symbol lot c left b).2 := by
  induction left generalizing b with
  | nil => exact ⟨rfl, hs⟩
  | cons m left ih =>
    obtain ⟨hm, hleft⟩ := List.pairwise_cons.mp hs
    rcases le_or_gt m.time c.time with hle | hgt
    · have hupto : upTo horizon (m :: left) = m :: upTo horizon left :=
        List.filter_cons_of_pos (decide_eq_true (hle.trans hc))
      rw [hupto, takeMarkers, if_pos hle, takeMarkers, if_pos hle]
      exact ih hleft
    · have hstop : takeMarkers symbol lot c (m :: left) b = (b, m :: left) := if_neg (not_le.mpr hgt)
      rw [hstop]
      refine ⟨?_, hs⟩
      rcases le_or_gt m.time horizon with hh | hh
      · have hupto : upTo horizon (m :: left) = m :: upTo horizon left := List.filter_cons_of_pos (decide_eq_true hh)
        rw [hupto]
        exact if_neg (not_le.mpr hgt)
      · have hnil : upTo horizon (m :: left) = [] := by
          apply upTo_eq_nil
          intro m' hm'
          rcases List.mem_cons.mp hm' with rfl | hm'
          · exact hh
          · exact hh.trans_le (hm m' hm')
        rw [hnil]
        rfl

/-- A run does not see the markers after a time that none of its bars is after. -/
theorem runBars_upTo {left : List HalfTrendMarker} (hs : Ordered left) {candles : List Candle}
    (hc : ∀ c ∈ candles, c.time ≤ horizon) :
    runBars symbol lot initialCapital (upTo horizon left) candles =
        ((runBars symbol lot initialCapital left candles).1,
          upTo horizon (runBars symbol lot initialCapital left candles).2) ∧
      Ordered (runBars symbol lot initialCapital left candles).2 := by
  induction candles using List.reverseRecOn with
  | nil => exact ⟨rfl, hs⟩
  | append_singleton candles c ih =>
    obtain ⟨heq, hord⟩ := ih fun c' hc' => hc c' (List.mem_append_left _ hc')
    have hbar (markers : List HalfTrendMarker) : runBars symbol lot initialCapital markers (candles ++ [c]) =
        onBar symbol lot (runBars symbol lot initialCapital markers candles) c := List.foldl_concat ..
    rw [hbar, hbar, heq]
    exact takeMarkers_upTo hord (hc c (by simp))

end Future

section Past

/-- One book goes on from another: what was closed stays, and what is closed since ends at given times. -/
def Extends (times : Rat → Prop) (b b' : Book) : Prop :=
  ∃ new, b'.closedTrades = b.closedTrades ++ new ∧ ∀ t ∈ new, times t.exitTime

variable {times : Rat → Prop} {b' b'' : Book}

theorem Extends.refl (b : Book) : Extends times b b := ⟨[], (List.append_nil _).symm, by simp⟩

theorem Extends.trans (h : Extends times b b') (h' : Extends times b' b'') : Extends times b b'' := by
  obtain ⟨new, he, hnew⟩ := h
  obtain ⟨new', he', hnew'⟩ := h'
  refine ⟨new ++ new', by rw [he', he, List.append_assoc], fun t ht => ?_⟩
  rcases List.mem_append.mp ht with ht | ht
  · exact hnew t ht
  · exact hnew' t ht

theorem Extends.close {t : ReplayTrade} (ht : times t.exitTime) : Extends times b (b.close t) :=
  ⟨[t], rfl, fun _ h => List.mem_singleton.mp h ▸ ht⟩

theorem extends_checkExit (hc : times c.time) : Extends times b (checkExit symbol c b) := by
  unfold checkExit
  split
  · exact Extends.refl b
  · split
    · exact Extends.refl b
    · exact Extends.close hc

theorem extends_onSignal (hc : times c.time) (m : HalfTrendMarker) : Extends times b (onSignal symbol lot c b m) := by
  have hrev : Extends times b (checkReversal symbol c m b) := by
    unfold checkReversal
    split
    · exact Extends.refl b
    · split_ifs
      · exact Extends.close hc
      · exact Extends.refl b
  have hopen (b : Book) : Extends times b (openIfFlat lot c m b) := by
    unfold openIfFlat
    split <;> exact Extends.refl b
  exact hrev.trans (hopen _)

theorem extends_takeMarkers (hc : times c.time) (left : List HalfTrendMarker) (b : Book) :
    Extends times b (takeMarkers symbol lot c left b).1 := by
  induction left generalizing b with
  | nil => exact Extends.refl b
  | cons m left ih =>
    rw [takeMarkers]
    split_ifs with hle ht
    · exact (extends_onSignal hc m).trans (ih _)
    · exact ih b
    · exact Extends.refl b

/-- The bars of a run close trades at their own times and leave the others. -/
theorem extends_foldl_onBar {candles : List Candle} (hc : ∀ c ∈ candles, times c.time)
    (s : Book × List HalfTrendMarker) : Extends times s.1 (candles.foldl (onBar symbol lot) s).1 := by
  induction candles generalizing s with
  | nil => exact Extends.refl _
  | cons c candles ih =>
    have hbar : Extends times s.1 (onBar symbol lot s c).1 :=
      (extends_checkExit (hc c (by simp))).trans (extends_takeMarkers (hc c (by simp)) _ _)
    exact hbar.trans (ih (fun c' hc' => hc c' (List.mem_cons_of_mem c hc')) _)

end Past

def closesWithin (candles : List Candle) (t : ReplayTrade) : Bool := candles.any fun c => c.time = t.exitTime

theorem closesWithin_iff {candles : List Candle} {t : ReplayTrade} :
    closesWithin candles t = true ↔ ∃ c ∈ candles, c.time = t.exitTime := by
  simp [closesWithin]

/-- Without bars there is no trade. -/
theorem trades_nil (markers : Option (List HalfTrendMarker)) (symbol : String) (lotSize initialCapital : Rat) :
    (simulateReplayPaperTrades [] markers symbol lotSize initialCapital).trades = [] := rfl

/-- The trades of a run with bars and markers. -/
theorem trades_eq {candles : List Candle} {last : Candle} (hl : candles.getLast? = some last)
    (m : HalfTrendMarker) (ms : List HalfTrendMarker) (symbol : String) (lotSize initialCapital : Rat) :
    (simulateReplayPaperTrades candles (some (m :: ms)) symbol lotSize initialCapital).trades =
      (runBars symbol (effectiveLotSize lotSize) initialCapital (activeMarkersOf last (m :: ms))
        candles).1.closedTrades.reverse := by
  unfold simulateReplayPaperTrades
  rw [hl]
  rfl

/-- The markers up to an earlier bar are those up to a later one, up to the earlier. -/
theorem activeMarkersOf_upTo {last last' : Candle} (h : last.time ≤ last'.time) (markers : List HalfTrendMarker) :
    activeMarkersOf last markers = upTo last.time (activeMarkersOf last' markers) := by
  rw [activeMarkersOf, activeMarkersOf, upTo, ← sortBy_filter, List.filter_filter]
  congr 1
  apply List.filter_congr
  intro m _
  by_cases hm : m.time ≤ last.time
  · simp [hm, hm.trans h]
  · simp [hm]

/-- Of the trades of a run those that close within its first bars are the trades of the run over these bars. -/
theorem closed_within {pre more : List Candle} (hlater : ∀ c ∈ pre, ∀ c' ∈ more, c.time < c'.time)
    (activeMarkers : List HalfTrendMarker) :
    (runBars symbol lot initialCapital activeMarkers (pre ++ more)).1.closedTrades.filter (closesWithin pre) =
      (runBars symbol lot initialCapital activeMarkers pre).1.closedTrades := by
  have hsplit : runBars symbol lot initialCapital activeMarkers (pre ++ more) =
      more.foldl (onBar symbol lot) (runBars symbol lot initialCapital activeMarkers pre) := List.foldl_append ..
  have hpre : Extends (fun x => ∃ c ∈ pre, c.time = x) ⟨initialCapital, [], none⟩
      (runBars symbol lot initialCapital activeMarkers pre).1 :=
    extends_foldl_onBar (fun c hc => ⟨c, hc, rfl⟩) (⟨initialCapital, [], none⟩, activeMarkers)
  have hmore : Extends (fun x => ∃ c ∈ more, c.time = x) (runBars symbol lot initialCapital activeMarkers pre).1
      (runBars symbol lot initialCapital activeMarkers (pre ++ more)).1 := by
    rw [hsplit]
    exact extends_foldl_onBar (fun c hc => ⟨c, hc, rfl⟩) _
  obtain ⟨old, hold, htimes⟩ := hpre
  obtain ⟨new, hnew, htimes'⟩ := hmore
  rw [List.nil_append] at hold
  have hkeep : old.filter (closesWithin pre) = old := by
    apply List.filter_eq_self.mpr
    intro t ht
    exact closesWithin_iff.mpr (htimes t ht)
  have hdrop : new.filter (closesWithin pre) = [] := by
    apply List.filter_eq_nil_iff.mpr
    intro t ht hw
    obtain ⟨c, hc, hct⟩ := closesWithin_iff.mp hw
    obtain ⟨c', hc', hct'⟩ := htimes' t ht
    exact (hlater c hc c' hc').ne (hct.trans hct'.symm)
  rw [hnew, List.filter_append, hold, hkeep, hdrop, List.append_nil]

/-- The closed trades of a replay at a bar are those of the whole run that close up to there, in the same order: more
bars never change or remove a closed trade. -/
theorem trades_of_prefix {candles pre : List Candle} (hchr : Chronological candles) (hpre : pre <+: candles)
    (markers : Option (List HalfTrendMarker)) (symbol : String) (lotSize initialCapital : Rat) :
    (simulateReplayPaperTrades pre markers symbol lotSize initialCapital).trades =
      (simulateReplayPaperTrades candles markers symbol lotSize initialCapital).trades.filter (closesWithin pre) := by
  obtain ⟨more, rfl⟩ := hpre
  obtain ⟨hchr', -, hlater⟩ := List.pairwise_append.mp hchr
  rcases markers with - | - | ⟨m, ms⟩
  · unfold simulateReplayPaperTrades
    simp
  · unfold simulateReplayPaperTrades
    simp
  · cases hl : pre.getLast? with
    | none =>
      obtain rfl := List.getLast?_eq_none_iff.mp hl
      rw [trades_nil, eq_comm, List.filter_eq_nil_iff]
      intro t _
      simp [closesWithin]
    | some last =>
      have hmem : last ∈ pre ++ more := List.mem_append_left more (List.mem_of_getLast? hl)
      obtain ⟨last', hl'⟩ : ∃ last', (pre ++ more).getLast? = some last' :=
        ⟨_, List.getLast?_eq_some_getLast (List.ne_nil_of_mem hmem)⟩
      have hordered : Ordered (activeMarkersOf last' (m :: ms)) := pairwise_sortBy _ _
      rw [trades_eq hl, trades_eq hl', List.filter_reverse, closed_within hlater,
        activeMarkersOf_upTo (hchr.time_le_last hl' last hmem),
        (runBars_upTo hordered (Chronological.time_le_last hchr' hl)).1]

/-- A stop at the second of three bars, seen at the second and at the third bar. -/
theorem gap_trade_stays :
    (simulateReplayPaperTrades gapCandles (some gapMarkers) "NIFTY" 10 1000000).trades =
      (simulateReplayPaperTrades (gapCandles ++ [⟨3000, 91, 97, 90, 96, 100⟩])
        (some gapMarkers) "NIFTY" 10 1000000).trades.filter (closesWithin gapCandles) := by
  apply trades_of_prefix _ (List.prefix_append gapCandles _) (some gapMarkers)
  rw [Chronological, gapCandles]
  decide +kernel

end NTrade.Ui.ReplayPaperTrader
