import NTrade.Execution.Amendments
import NTrade.Execution.Remainders

/-! How an order ends that was modified while it was open. A poll takes what is left of an
order from the intent that opened it. -/
namespace NTrade.Execution
open NTrade.Domain NTrade.Events NTrade.Lib

def Amended.quantity (s : Amended) (orderId : String) : Int := (s.quantities.get orderId).getD (ordered orderId s.world.trace)

/-- What was emitted and rejected of an order comes to its quantity, and is rejected where some of it is unfilled. -/
structure EndsExactly (orderId : String) (t : List Obs) (quantity : Int) : Prop where
  whole : emitted orderId t + rejected orderId t = quantity
  rest : rejectionsOf orderId t ≠ [] ↔ emitted orderId t < quantity

/-- A completed order was reported filled to its quantity; any other has the quantity of its intent, or a higher one to
which it was reported filled. -/
def Accounted (status : OrderStatus) (quantity ordered reported : Int) : Prop :=
  if status = .completed then reported = quantity else quantity = max ordered reported

instance (status : OrderStatus) (quantity ordered reported : Int) : Decidable (Accounted status quantity ordered reported) :=
  inferInstanceAs (Decidable (if status = .completed then reported = quantity else quantity = max ordered reported))

variable {cfg : Config} {orderId : String} {t : List Obs}

/-- What a dropped order leaves comes to a quantity exactly if it is accounted for. -/
theorem Dropped.endsExactly_iff {status : OrderStatus} (h : Dropped orderId t status) (quantity : Int) :
    EndsExactly orderId t quantity ↔ Accounted status quantity (ordered orderId t) (reported orderId t) := by
  have he := h.emitted
  have hr := h.rejections
  have hsum := rejected_eq_sum orderId t
  have hnil : rejectionsOf orderId t ≠ [] ↔ status ≠ .completed ∧ Execution.emitted orderId t < ordered orderId t := by
    rw [Ne, ← List.map_eq_nil_iff (f := OrderRejected.quantity), hr]
    split_ifs with hc
    · simp [hc]
    · simp [hc]
  have hends : EndsExactly orderId t quantity ↔ Execution.emitted orderId t + rejected orderId t = quantity ∧
      (status ≠ .completed ∧ Execution.emitted orderId t < ordered orderId t ↔ Execution.emitted orderId t < quantity) := by
    rw [← hnil]
    exact ⟨fun h => ⟨h.whole, h.rest⟩, fun h => ⟨h.1, h.2⟩⟩
  rw [hends, hsum, hr, Accounted, ← he]
  by_cases hs : status = .completed
  · simp only [hs, ne_eq, not_true_eq_false, false_and, if_false, if_true, List.sum_nil, add_zero, false_iff, not_lt]
    omega
  · simp only [hs, ne_eq, not_false_eq_true, true_and, if_false]
    split_ifs with hlt
    · simp only [List.sum_singleton]
      omega
    · simp only [List.sum_nil, add_zero]
      omega

/-- How an order ends that was modified. In every session whose reports go forward, can be emitted where they end an
order, and do not bring an order back, whatever was modified: an order that a step drops was emitted and rejected to its
quantity, with a rejection exactly where some of it is unfilled, if and only if it is accounted for. -/
theorem amended_order_ends_iff (cfg : Config) (steps : List AmendedStep) (st : Step) :
    let s := Amended.run cfg steps
    let t := (Execution.step cfg s.world st).trace
    VenueIds t → Trace.Always monotone t → Trace.Always endsFillable t → Trace.Always adoptsNew t →
      ∀ orderId status mid suf, t = s.world.trace ++ mid ++ .popped orderId status :: suf →
        (EndsExactly orderId (s.world.trace ++ mid) (s.quantity orderId) ↔
          Accounted status (s.quantity orderId) (ordered orderId (s.world.trace ++ mid))
            (reported orderId (s.world.trace ++ mid))) := by
  intro s t hV hmono hends hnew orderId status mid suf he
  have ht : t = (run cfg (unamended (steps ++ [AmendedStep.step st])) {}).trace := by
    have hlast : (Amended.run cfg (steps ++ [AmendedStep.step st])).world = Execution.step cfg s.world st := by
      rw [Amended.run, List.foldl_concat]
      rfl
    exact (congrArg World.trace hlast).symm.trans (alike_run cfg (steps ++ [AmendedStep.step st])).trace
  rw [ht] at hV hmono hends hnew he
  exact (run_dropped _ hV hmono hends hnew he).endsExactly_iff _

private def amendedTo (quantity : Int) : List AmendedStep :=
  [.step (.submit marketBuy none (.placed (some "V1") ⟨.pending, some 0, some 0⟩) 0 [] []),
    .modify "V1" { quantity := some quantity } true,
    .step (.poll fun _ => { refresh := .ok ⟨.partiallyFilled, some 4, some 100⟩ })]

private def ending (status : OrderStatus) (filled : Rat) : Step :=
  .poll fun _ => { refresh := .ok ⟨status, some filled, some 100⟩ }

private def recordOf (quantity : Int) (status : OrderStatus) (filled : Rat) : List Obs :=
  (step oneStock (Amended.run oneStock (amendedTo quantity)).world (ending status filled)).trace

theorem raised_order_ends_exactly :
    EndsExactly "V1" ((Amended.run oneStock (amendedTo 12)).world.trace ++
        ((recordOf 12 .completed 12).drop (Amended.run oneStock (amendedTo 12)).world.trace.length).dropLast)
      ((Amended.run oneStock (amendedTo 12)).quantity "V1") :=
  (amended_order_ends_iff oneStock (amendedTo 12) (ending .completed 12) (by decide +kernel) (by decide +kernel)
    (by decide +kernel) (by decide +kernel) "V1" .completed _ [] (by decide +kernel)).mpr (by decide +kernel)

/-- Ten shares, lowered to six, four of them filled and the rest cancelled: six are rejected, not two. -/
theorem lowered_order_is_rejected_for_ten :
    (Amended.run oneStock (amendedTo 6)).quantity "V1" = 6 ∧
      (recordOf 6 .cancelled 4).getLast? = some (.popped "V1" .cancelled) ∧
      emitted "V1" (recordOf 6 .cancelled 4).dropLast = 4 ∧ rejected "V1" (recordOf 6 .cancelled 4).dropLast = 6 ∧
      ¬ EndsExactly "V1" (recordOf 6 .cancelled 4).dropLast 6 := by
  have he : emitted "V1" (recordOf 6 .cancelled 4).dropLast = 4 := by decide +kernel
  have hr : rejected "V1" (recordOf 6 .cancelled 4).dropLast = 6 := by decide +kernel
  refine ⟨by decide +kernel, by decide +kernel, he, hr, fun h => ?_⟩
  have hw := h.whole
  rw [he, hr] at hw
  nomatch hw

end NTrade.Execution
