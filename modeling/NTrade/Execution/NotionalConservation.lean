import NTrade.Execution.Accounts
import Mathlib.Tactic.Linarith
import Mathlib.Tactic.Ring

/-! Notional conservation: each fill is priced at the broker's cumulative average, so the
money of an order's fills adds up to the broker's only where that average stays level. -/
namespace NTrade.Execution
open NTrade.Domain NTrade.Events NTrade.Lib

/-- Where a report brings new shares, they were executed at positive prices. -/
def priced (pre : List Obs) : Obs → Bool
  | .status orderId report => toInt report.filledQty ≤ emitted orderId pre || 0 < toFloat report.avgPrice
  | _ => true

/-- The average of a completed order is the average price of the fills emitted before. -/
def level (pre : List Obs) : Obs → Bool
  | .status orderId report =>
    report.status ≠ .completed || emitted orderId pre * toFloat report.avgPrice = notional orderId pre
  | _ => true

/-- The money of an order the way the broker accounts for it. -/
def brokerNotional (orderId : String) (t : List Obs) : Rat :=
  ((lastReport orderId t).map fun report => toInt report.filledQty * toFloat report.avgPrice).getD 0

/-- A completed order leaves the tracker with the broker's notional in its fills. -/
def settlesNotional (pre : List Obs) : Obs → Bool
  | .popped orderId status => status ≠ .completed || notional orderId pre = brokerNotional orderId pre
  | _ => true

variable {cfg : Config} {orderId : String} {t : List Obs}

private structure Levels (orderId : String) (t : List Obs) (stage : Stage) (r : Record) : Prop where
  worth : stage ≠ .idle → r.order.status = .completed →
    ((r.filled + stage.pending : Int) : Rat) * toFloat r.order.avgPrice = notional orderId t
  due : stage ≠ .idle → r.filled + stage.pending = reported orderId t ∨ 0 < toFloat r.order.avgPrice

private def Level (orderId : String) (t : List Obs) : Life → Prop
  | .tracked stage r => Levels orderId t stage r
  | _ => True

private theorem Levels.step {o : Obs} {stage stage' : Stage} {r r' : Record} (h : Levels orderId t stage r)
    (hrep : o.reportFor orderId = none) (hfill : o.fillFor orderId = none)
    (hf : stage' ≠ .idle → stage ≠ .idle ∧ r'.order = r.order ∧
      r'.filled + stage'.pending = r.filled + stage.pending) : Levels orderId (t ++ [o]) stage' r' := by
  constructor
  · intro hs hc
    obtain ⟨hs, ho, hq⟩ := hf hs
    rw [notional_same hfill, ho, hq]
    exact h.worth hs (ho ▸ hc)
  · intro hs
    obtain ⟨hs, ho, hq⟩ := hf hs
    rw [reported_same hrep, ho, hq]
    exact h.due hs

private theorem level_silent {o : Obs} (hrep : o.reportFor orderId = none) (hfill : o.fillFor orderId = none)
    {l : Life} (h : Level orderId t l) : Level orderId (t ++ [o]) l := by
  cases l with
  | tracked stage r => exact Levels.step h hrep hfill fun hs => ⟨hs, rfl, rfl⟩
  | _ => trivial

/-- A positive average is the price of the fill. -/
private theorem fillPrice_of_pos {intent : OrderIntent} {avg : Wire} (h : 0 < toFloat avg) :
    fillPrice intent avg = toFloat avg := by
  rw [fillPrice, orElse, if_neg h.ne']

private theorem Levels.fill {r : Record} {stamp : Stamp} {fill : OrderFilled} (h : Levels orderId t .checked r)
    (ht : Tallies orderId t .checked r) (hf : r.fillOf cfg orderId fill.ts = some fill) :
    Levels orderId (t ++ [Obs.event ⟨stamp, .filled fill⟩]) (.filled fill.quantity) r := by
  obtain ⟨hid, -, hpos, hq, hp, -⟩ := fillOf_eq_some hf
  have hlast := ht.reported_eq (by simp)
  have havg : 0 < toFloat r.order.avgPrice := by
    refine (h.due (by simp)).resolve_left ?_
    simp only [Stage.pending]
    omega
  refine ⟨fun _ hc => ?_, fun _ => .inr havg⟩
  have hw := h.worth (by simp) hc
  simp only [Stage.pending, Int.add_zero] at hw
  have hn : notional orderId (t ++ [Obs.event ⟨stamp, .filled fill⟩]) =
      notional orderId t + fill.quantity * toFloat r.order.avgPrice := by
    simp [notional_concat, Obs.fillFor, hid, OrderFilled.notional, hp, fillPrice_of_pos havg]
  rw [hn, ← hw, Stage.pending]
  push_cast
  ring

private theorem Levels.refresh {r : Record} {report : Report} (ht : Tallies orderId t .idle r)
    (hlevel : level t (.status orderId report) = true) (hprice : priced t (.status orderId report) = true)
    (hmono : monotone t (.status orderId report) = true) (hfirst : carried orderId t = 0) :
    Levels orderId (t ++ [Obs.status orderId report]) .refreshed (r.refresh report) := by
  have hrep := reported_status orderId t report
  have hm : reported orderId t ≤ toInt report.filledQty := by simpa [monotone] using hmono
  have hfill := ht.filled
  have hle := ht.le
  simp only [Stage.pending, Int.add_zero] at hfill hle
  have he : emitted orderId t = r.filled := by omega
  constructor
  · intro _ hc
    have hst : report.status = .completed := hc
    have hl : (emitted orderId t : Rat) * toFloat report.avgPrice = notional orderId t := by
      simpa [level, hst] using hlevel
    rw [notional_same rfl, ← hl, he]
    simp [Report.apply]
  · intro _
    have hp : toInt report.filledQty ≤ emitted orderId t ∨ 0 < toFloat report.avgPrice := by
      simpa [priced] using hprice
    rw [hrep]
    rcases hp with hp | hp
    · simp only [Stage.pending, Record.refresh_filled]
      exact .inl (by omega)
    · exact .inr hp

/-- The handler's cancel takes the order out of the completed status. -/
private theorem Levels.cancel {stage : Stage} {r : Record} (h : Levels orderId t stage r) :
    Levels orderId (t ++ [Obs.cancelled orderId]) stage r.cancel := by
  refine ⟨fun _ hc => ?_, fun hs => ?_⟩
  · cases hc
  · rw [reported_same rfl]
    exact h.due hs

private theorem Move.level {l l' : Life} {o : Obs} (hm : Move cfg orderId l o l') (hb : Books orderId t l)
    (h : Level orderId t l) (hlevel : level t o = true) (hprice : priced t o = true) (hmono : monotone t o = true)
    (hfirst : carried orderId t = 0) : Level orderId (t ++ [o]) l' := by
  cases hm with
  | refresh r report => exact Levels.refresh hb hlevel hprice hmono hfirst
  | fill r stamp fill hf => exact Levels.fill h hb hf
  | cancel stage r => exact Levels.cancel h
  | timeout r stamp e he => exact Levels.step h rfl rfl (by simp)
  | note r hs => exact Levels.step h rfl rfl (by simp)
  | update r stamp e he hq hs => exact Levels.step h rfl rfl (by simp)
  | steady r hs => exact Levels.step h rfl rfl (by simp)
  | book r n => exact Levels.step h rfl rfl (by simp)
  | reject stage r stamp e hc hs he hq hp hr => exact Levels.step h rfl rfl fun _ => ⟨hc.ne.1, rfl, by rw [hc.pending_eq]; rfl⟩
  | execute l n price => exact level_silent rfl rfl h
  | cancelTake l => exact level_silent rfl rfl h
  | _ => first | trivial | exact ⟨fun hs => absurd rfl hs, fun hs => absurd rfl hs⟩

/-- An order completes with every reported share emitted at the reported average. -/
private theorem Move.settlesNotional {l l' : Life} {o : Obs} (hm : Move cfg orderId l o l') (hb : Books orderId t l)
    (h : Level orderId t l) : settlesNotional t o = true := by
  cases hm with
  | complete stage r hc hs =>
    have ht : Tallies orderId t stage r := hb
    have hr : Levels orderId t stage r := h
    have hp0 := hc.pending_eq
    obtain ⟨hidle, -⟩ := hc.ne
    have hw := hr.worth hidle hs
    have hdue := hr.due hidle
    obtain ⟨status, hlast⟩ := ht.report hidle
    have hrep := ht.reported_eq hidle
    rw [hp0, Int.add_zero] at hw hdue
    have hfull : r.filled = toInt r.order.filledQty := by
      rw [← hrep]
      rcases hdue with hd | hd
      · exact hd
      · refine (ht.of_closing hc).resolve_right ?_
        rw [fillPrice_of_pos hd]
        exact not_le_of_gt hd
    simp [Execution.settlesNotional, brokerNotional, hlast, ← hw, hfull]
  | close r status hs hr => rcases hs with rfl | rfl <;> rfl
  | closeFull stage r hc hs hq => rcases hs with hs | hs <;> simp [Execution.settlesNotional, hs]
  | _ => rfl

private theorem life_level {l : Life} (hl : (life cfg orderId).Accepts t l) (hnr : ∀ j r, Obs.restored j r ∉ t)
    (hbook : Trace.Always unbooked t) (hmono : Trace.Always monotone t) (hprice : Trace.Always priced t)
    (hlevel : Trace.Always level t) : Level orderId t l ∧
      Trace.Each (fun pre o => o.orderId = some orderId → settlesNotional pre o = true) t := by
  induction hl with
  | nil => exact ⟨trivial, .nil _⟩
  | @concat t l o l' ht ho ih =>
    obtain ⟨hbook, hbk⟩ := Trace.each_concat.mp hbook
    obtain ⟨hmono, hm⟩ := Trace.each_concat.mp hmono
    obtain ⟨hprice, hp⟩ := Trace.each_concat.mp hprice
    obtain ⟨hlevel, hv⟩ := Trace.each_concat.mp hlevel
    have hnr' : ∀ j r, Obs.restored j r ∉ t := fun j r h => hnr j r (List.mem_append_left _ h)
    obtain ⟨hs, he⟩ := ih hnr' hbook hmono hprice hlevel
    have hb := life_books ht hmono hbook
    rcases ho with ⟨_, hmove⟩ | ⟨hid, rfl⟩
    · refine ⟨hmove.level hb hs hv hp hm (carried_eq_zero hnr'), ?_⟩
      exact Trace.each_concat.mpr ⟨he, fun _ => hmove.settlesNotional hb hs⟩
    · have hsil := Obs.Silent.of_ne hid
      refine ⟨level_silent hsil.report hsil.fill hs, ?_⟩
      exact Trace.each_concat.mpr ⟨he, fun h => absurd h hid⟩

/-- Where the average that completes an order is level with its earlier fills, the fills of
every completed order add up to the broker's notional. -/
theorem notional_conserved (steps : List Step) (hV : VenueIds (run cfg steps {}).trace)
    (hmono : Trace.Always monotone (run cfg steps {}).trace) (hbook : Trace.Always unbooked (run cfg steps {}).trace)
    (hprice : Trace.Always priced (run cfg steps {}).trace) (hlevel : Trace.Always level (run cfg steps {}).trace) :
    Trace.Always settlesNotional (run cfg steps {}).trace := by
  have hsound := (run_sounds steps {}).2 hV sound_init
  intro pre o suf he
  cases o with
  | popped orderId status =>
    obtain ⟨l, hl, _⟩ := hsound.lives orderId
    exact (life_level hl.1 (run_not_restored steps) hbook hmono hprice hlevel).2 pre _ suf he rfl
  | _ => rfl

/-- Four shares at 100 and six at 105 average 103, and the second fill is priced at that. -/
theorem moving_average_misprices_fill :
    let steps := [Step.submit marketBuy none (.placed (some "V1") ⟨.pending, some 0, some 0⟩) 0 [] [],
      .act (.executed "V1" 4 100), .poll fun _ => { refresh := .ok ⟨.partiallyFilled, some 4, some 100⟩ },
      .act (.executed "V1" 6 105), .poll fun _ => { refresh := .ok ⟨.completed, some 10, some 103⟩ }]
    VenueIds (run oneStock steps {}).trace ∧ Trace.Always monotone (run oneStock steps {}).trace ∧
      Trace.Always sharesTold (run oneStock steps {}).trace ∧ Trace.Always moneyTold (run oneStock steps {}).trace ∧
      ¬ Trace.Always settlesNotional (run oneStock steps {}).trace := by
  decide +kernel

/-- Two executions at one price meet the conditions. -/
theorem notional_conserved_at_one_price :
    Trace.Always settlesNotional (run oneStock
      [.submit marketBuy none (.placed (some "V1") ⟨.pending, some 0, some 0⟩) 0 [] [],
        .poll fun _ => { refresh := .ok ⟨.partiallyFilled, some 4, some 100⟩ },
        .poll fun _ => { refresh := .ok ⟨.completed, some 10, some 100⟩ }] {}).trace :=
  notional_conserved _ (by decide +kernel) (by decide +kernel) (by decide +kernel) (by decide +kernel)
    (by decide +kernel)

end NTrade.Execution
