import NTrade.Execution.Accounts

/-! Eviction and re-adoption: the filled counter is dropped with the record, and adoption
starts a new one at zero whatever was booked before. -/
namespace NTrade.Execution
open NTrade.Domain NTrade.Events NTrade.Lib

variable {cfg : Config}

/-- Where no order with booked shares is adopted, the fills of an order stay within what the
broker has reported, at every point of every run. -/
theorem fills_within_report (steps : List Step) (hV : VenueIds (run cfg steps {}).trace)
    (hmono : Trace.Always monotone (run cfg steps {}).trace) (hbook : Trace.Always unbooked (run cfg steps {}).trace)
    (orderId : String) (pre : List Obs) (hpre : pre <+: (run cfg steps {}).trace) :
    emitted orderId pre ≤ reported orderId pre := by
  exact emitted_le_reported orderId steps hV hmono hbook hpre

/-- Filled in part, evicted after ten failed polls and adopted from the order book, an order
has its first shares emitted a second time. -/
theorem readoption_doubles_fill :
    let failing := Step.poll fun _ => { refresh := .error none 0 }
    let steps := [Step.submit marketBuy none (.placed (some "V1") ⟨.pending, some 0, some 0⟩) 0 [] [],
        .poll fun _ => { refresh := .ok ⟨.partiallyFilled, some 4, some 100⟩ }] ++ List.replicate 10 failing ++
      [.reconcile [{ symbol := "TCS", orderId := "V1", side := "BUY", quantity := 10, status := "PENDING" }] 0,
        .poll fun _ => { refresh := .ok ⟨.completed, some 10, some 100⟩ }]
    let t := (run oneStock steps {}).trace
    VenueIds t ∧ Trace.Always monotone t ∧ reported "V1" t = 10 ∧ emitted "V1" t = 14 := by
  decide +kernel

/-- An order that is evicted before its first fill is adopted without loss. -/
theorem fills_within_report_of_unfilled :
    let failing := Step.poll fun _ => { refresh := .error none 0 }
    let steps := [Step.submit marketBuy none (.placed (some "V1") ⟨.pending, some 0, some 0⟩) 0 [] []] ++
      List.replicate 10 failing ++
      [.reconcile [{ symbol := "TCS", orderId := "V1", side := "BUY", quantity := 10, status := "PENDING" }] 0,
        .poll fun _ => { refresh := .ok ⟨.completed, some 10, some 100⟩ }]
    emitted "V1" (run oneStock steps {}).trace ≤ reported "V1" (run oneStock steps {}).trace :=
  fills_within_report _ (by decide +kernel) (by decide +kernel) (by decide +kernel) "V1" _ List.prefix_rfl

end NTrade.Execution
