import NTrade.Brokers.Dhan

/-! Whether a status refresh brings an order's figures with its status. The transport turns a failed
detail request into an empty record, and the adapter sets the status before it asks for the detail. -/
namespace NTrade.Brokers
open NTrade.Domain NTrade.Execution NTrade.Lib

def withFigures (order : Order) (filledQty : Int) (avgPrice : Rat) : Order :=
  { order with filledQty := some (filledQty : Rat), avgPrice := some avgPrice }

def reads (d : WireRecord) (keys : List String) : Wire := (firstPresent d keys).bind Cell.wire

def Takes (order : Order) (d : WireRecord) : Prop :=
  (∃ q, reads d filledKeys = some q ∧ order.filledQty = some (toInt (some q) : Rat)) ∧
    ∃ p, reads d avgPriceKeys = some p ∧ order.avgPrice = some p

def Refreshed (order : Order) (status : Except Fault String) (detail : Except Fault Payload) : Prop :=
  ∃ s d, status = .ok s ∧ detail = .ok (.record d) ∧ order.status = dhanStatus (Literal.upper s) ∧ Takes order d

def AllOrNothing (order : Order) (status : Except Fault String) (detail : Except Fault Payload) : Prop :=
  match DhanBroker.getOrderStatus order status detail with
  | (after, .ok ()) => Refreshed after status detail
  | (after, .error _) => after = order

def DropsRefreshed (order : Order) (status : Except Fault String) (detail : Except Fault Payload) : Prop :=
  ∀ (cfg : Config) (orderId : String) (i : PollInput) (mono : Rat) (w : World) (r : Record) (new : List Obs),
    w.record orderId = some r → r.order = order → i.refresh = DhanBroker.refreshOf order status detail mono →
    (pollOne cfg orderId i w).trace = w.trace ++ new →
    .popped orderId .completed ∈ new ∨ .popped orderId .cancelled ∈ new →
    Refreshed (DhanBroker.getOrderStatus order status detail).1 status detail

def Carries (order : Order) (d : WireRecord) : Prop :=
  (∃ q, reads d filledKeys = some q ∧ (toInt (some q) ≠ 0 ∨ order.filledQty = some 0)) ∧
    ∃ p, reads d avgPriceKeys = some p ∧ (p ≠ 0 ∨ order.avgPrice = some 0)

/-- The status request raises; or the detail request brings a record with both figures; or it raises in
a way that the transport lets through, and the status is the one that the order has. -/
def Refreshable (order : Order) (status : Except Fault String) (detail : Except Fault Payload) : Prop :=
  match DhanTransport.getOrderStatus status with
  | .error _ => True
  | .ok s =>
    match DhanTransport.invoke detail with
    | .error (.rateLimited _) => dhanStatus s = order.status
    | .error (.other _) => False
    | .ok .empty => False
    | .ok (.record d) => Carries order d
    | .ok (.malformed _) => dhanStatus s = order.status

/-- The transport's wrapper does not make an answer of an exception. -/
private theorem invoke_eq_ok {α : Type} {answer : Except Fault α} {x : α} :
    DhanTransport.invoke answer = .ok x ↔ answer = .ok x := by
  match answer with
  | .ok y => exact Iff.rfl
  | .error (.rateLimited message) => exact Iff.rfl
  | .error (.other message) => exact iff_of_false nofun nofun

private theorem getOrderStatus_ok {status : Except Fault String} {s : String}
    (h : DhanTransport.getOrderStatus status = .ok s) : ∃ raw, status = .ok raw ∧ Literal.upper raw = s := by
  rw [DhanTransport.getOrderStatus] at h
  cases hraw : DhanTransport.invoke status with
  | error e =>
    rw [hraw] at h
    cases h
  | ok raw =>
    rw [hraw] at h
    exact ⟨raw, invoke_eq_ok.mp hraw, Except.ok.inj h⟩

section Detail
variable (orderId : String)

private theorem get_toRecord (detail : OrderDetail) (k : String) :
    detail.toRecord.get k =
      if k = "quantity" then some (.int detail.quantity)
      else if k = "price" then some (.float detail.price "")
      else if k = "avg_price" then some (.float detail.avgPrice "")
      else if k = "filled_qty" then some (.int detail.filledQty)
      else if k = "status" then some (.text detail.status)
      else if k = "order_id" then some (.text detail.orderId)
      else none := by
  rw [OrderDetail.toRecord, Dict.get_set, Dict.get_set, Dict.get_set, Dict.get_set, Dict.get_set, Dict.get_set]
  rfl

/-- The adapter reads the same figures out of the transport's record again. -/
private theorem orderDetail_toRecord (detail : OrderDetail) :
    (orderDetail orderId detail.toRecord).filledQty = detail.filledQty ∧
      (orderDetail orderId detail.toRecord).avgPrice = detail.avgPrice := by
  have habsent (k : String) (h : k ∈ ["filledQty", "avgPrice", "averagePrice"]) : detail.toRecord.get k = none := by
    rw [List.mem_cons, List.mem_cons, List.mem_singleton] at h
    rw [get_toRecord]
    rcases h with rfl | rfl | rfl
    all_goals simp
  have hfilled : detail.toRecord.get "filled_qty" = some (.int detail.filledQty) := by
    rw [get_toRecord]
    simp
  have havg : detail.toRecord.get "avg_price" = some (.float detail.avgPrice "") := by
    rw [get_toRecord]
    simp
  constructor
  · rw [orderDetail]
    dsimp only
    rw [firstInt, filledKeys, firstPresent_absent _ (habsent _ (by decide)), firstPresent_present _ hfilled rfl]
    exact toInt_intCast _
  · rw [orderDetail]
    dsimp only
    rw [firstFloat, avgPriceKeys, firstPresent_absent _ (habsent _ (by decide)),
      firstPresent_absent _ (habsent _ (by decide)), firstPresent_present _ havg rfl]
    rfl

/-- What the adapter makes of an answer to the detail request. -/
private theorem getOrderDetail_eq (detail : Except Fault Payload) :
    match DhanTransport.invoke detail with
    | .error (.rateLimited _) | .ok (.malformed _) => ∃ e, DhanBroker.getOrderDetail orderId detail = .error e
    | .error (.other _) | .ok .empty => ∃ read, DhanBroker.getOrderDetail orderId detail = .ok read
    | .ok (.record d) => ∃ read, DhanBroker.getOrderDetail orderId detail = .ok read ∧
      read.filledQty = toInt (reads d filledKeys) ∧ read.avgPrice = toFloat (reads d avgPriceKeys) := by
  unfold DhanBroker.getOrderDetail DhanTransport.getOrderDetail
  match DhanTransport.invoke detail with
  | .error (.rateLimited message) => exact ⟨_, rfl⟩
  | .error (.other message) => exact ⟨_, rfl⟩
  | .ok .empty => exact ⟨_, rfl⟩
  | .ok (.record d) => exact ⟨_, rfl, (orderDetail_toRecord orderId (orderDetail orderId d)).imp id id⟩
  | .ok (.malformed message) => exact ⟨_, rfl⟩

end Detail

section Call
variable {order : Order} {filled : Int} {avg : Rat} {status : Except Fault String} {detail : Except Fault Payload}

private theorem getOrderStatus_unasked (order : Order) (detail : Except Fault Payload) {e : Fault}
    (h : DhanTransport.getOrderStatus status = .error e) :
    ∃ e', DhanBroker.getOrderStatus order status detail = (order, .error e') := by
  rw [DhanBroker.getOrderStatus, h]
  cases e with
  | rateLimited message => exact ⟨_, rfl⟩
  | other message => exact ⟨_, rfl⟩

/-- The status is set by the time the detail request raises. -/
private theorem getOrderStatus_raised (order : Order) {s : String} {e : Fault}
    (hs : DhanTransport.getOrderStatus status = .ok s)
    (hd : DhanBroker.getOrderDetail (order.orderId.getD "None") detail = .error e) :
    DhanBroker.getOrderStatus order status detail = ({ order with status := dhanStatus s }, .error e) := by
  rw [DhanBroker.getOrderStatus, hs]
  dsimp only
  rw [hd]

private theorem getOrderStatus_returned {s : String} {read : OrderDetail} (hs : DhanTransport.getOrderStatus status = .ok s)
    (hd : DhanBroker.getOrderDetail (order.orderId.getD "None") detail = .ok read) :
    DhanBroker.getOrderStatus (withFigures order filled avg) status detail =
      ({ withFigures order (if read.filledQty ≠ 0 then read.filledQty else filled)
          (if read.avgPrice ≠ 0 then read.avgPrice else avg) with status := dhanStatus s }, .ok ()) := by
  have hfigure (reported q : Rat) :
      DhanBroker.figureOr reported (some q) = .ok (if reported ≠ 0 then reported else q) := by
    rw [DhanBroker.figureOr]
    split <;> rfl
  have hint : toInt (some (if (read.filledQty : Rat) ≠ 0 then (read.filledQty : Rat) else filled)) =
      if read.filledQty ≠ 0 then read.filledQty else filled := by
    simp only [ne_eq, Int.cast_eq_zero]
    split <;> exact toInt_intCast _
  have hid : (withFigures order filled avg).orderId = order.orderId := rfl
  rw [DhanBroker.getOrderStatus, hs, hid]
  dsimp only
  rw [hd]
  simp only [withFigures, hfigure, hint]

/-- The refresh that a poll makes of a call leaves the order as the call does. -/
theorem refreshOf_leaves (mono : Rat) :
    let after := (DhanBroker.getOrderStatus (withFigures order filled avg) status detail).1
    match DhanBroker.refreshOf (withFigures order filled avg) status detail mono with
    | .ok report => report.apply (withFigures order filled avg) = after
    | .rateLimited touched | .error touched _ =>
      ∃ s, touched = some s ∧ after = { withFigures order filled avg with status := s } := by
  dsimp only
  rw [DhanBroker.refreshOf]
  cases hs : DhanTransport.getOrderStatus status with
  | error e =>
    obtain ⟨e', he⟩ := getOrderStatus_unasked (withFigures order filled avg) detail hs
    rw [he]
    cases e' with
    | rateLimited message => exact ⟨_, rfl, rfl⟩
    | other message => exact ⟨_, rfl, rfl⟩
  | ok s =>
    cases hd : DhanBroker.getOrderDetail (order.orderId.getD "None") detail with
    | error e =>
      rw [getOrderStatus_raised (withFigures order filled avg) hs hd]
      cases e with
      | rateLimited message => exact ⟨_, rfl, rfl⟩
      | other message => exact ⟨_, rfl, rfl⟩
    | ok read =>
      rw [getOrderStatus_returned hs hd]
      rfl

/-- A figure is taken over exactly where it is a number, and zero only in place of zero. -/
private theorem takes_iff {d : WireRecord} {read : OrderDetail} {s : OrderStatus}
    (hq : read.filledQty = toInt (reads d filledKeys)) (hp : read.avgPrice = toFloat (reads d avgPriceKeys)) :
    Takes { withFigures order (if read.filledQty ≠ 0 then read.filledQty else filled)
        (if read.avgPrice ≠ 0 then read.avgPrice else avg) with status := s } d ↔
      Carries (withFigures order filled avg) d := by
  refine and_congr (exists_congr fun q => and_congr_right fun hread => ?_)
    (exists_congr fun p => and_congr_right fun hread => ?_)
  · rw [hread] at hq
    simp only [withFigures, hq, Option.some.injEq, Int.cast_inj, Int.cast_eq_zero]
    split
    · next hne => exact iff_of_true rfl (.inl hne)
    · next he =>
      rw [of_not_not he]
      simp
  · rw [hread] at hp
    have hval : toFloat (some p) = p := rfl
    simp only [withFigures, hp, hval, Option.some.injEq]
    split
    · next hne => exact iff_of_true rfl (.inl hne)
    · next he =>
      rw [of_not_not he]
      simp

/-- A call that raised leaves the order as it was exactly where the status is the same. -/
private theorem status_unchanged_iff {s : OrderStatus} : { order with status := s } = order ↔ s = order.status :=
  ⟨fun h => congrArg Order.status h, fun h => h ▸ rfl⟩

private theorem allOrNothing_iff :
    AllOrNothing (withFigures order filled avg) status detail ↔ Refreshable (withFigures order filled avg) status detail := by
  rw [AllOrNothing, Refreshable]
  cases hs : DhanTransport.getOrderStatus status with
  | error e =>
    obtain ⟨e', he⟩ := getOrderStatus_unasked (withFigures order filled avg) detail hs
    rw [he]
    exact iff_of_true rfl trivial
  | ok s =>
    have hdetail := getOrderDetail_eq (order.orderId.getD "None") detail
    match hinvoke : DhanTransport.invoke detail with
    | .error (.rateLimited message) =>
      rw [hinvoke] at hdetail
      obtain ⟨e, he⟩ := hdetail
      rw [getOrderStatus_raised (withFigures order filled avg) hs he]
      exact status_unchanged_iff
    | .ok (.malformed message) =>
      rw [hinvoke] at hdetail
      obtain ⟨e, he⟩ := hdetail
      rw [getOrderStatus_raised (withFigures order filled avg) hs he]
      exact status_unchanged_iff
    | .error (.other message) =>
      rw [hinvoke] at hdetail
      obtain ⟨read, hd⟩ := hdetail
      rw [getOrderStatus_returned hs hd]
      refine iff_of_false ?_ id
      rintro ⟨-, d, -, h, -⟩
      cases hinvoke.symm.trans (invoke_eq_ok.mpr h)
    | .ok .empty =>
      rw [hinvoke] at hdetail
      obtain ⟨read, hd⟩ := hdetail
      rw [getOrderStatus_returned hs hd]
      refine iff_of_false ?_ id
      rintro ⟨-, d, -, h, -⟩
      cases hinvoke.symm.trans (invoke_eq_ok.mpr h)
    | .ok (.record d) =>
      rw [hinvoke] at hdetail
      obtain ⟨read, hd, hq, hp⟩ := hdetail
      rw [getOrderStatus_returned hs hd]
      refine Iff.trans ?_ (takes_iff (s := dhanStatus s) hq hp)
      obtain ⟨raw, hraw, rfl⟩ := getOrderStatus_ok hs
      constructor
      · rintro ⟨raw', d', hr, hd', -, ht⟩
        rw [invoke_eq_ok.mp hinvoke] at hd'
        cases hd'
        exact ht
      · exact fun ht => ⟨raw, d, hraw, invoke_eq_ok.mp hinvoke, rfl, ht⟩

end Call

section Poll
variable {cfg : Config} {orderId : String} {w : World}

private def isPop : Obs → Bool
  | .popped _ _ => true
  | _ => false

private def pops (t : List Obs) : List Obs := t.filter isPop

private theorem pops_append (t u : List Obs) : pops (t ++ u) = pops t ++ pops u := List.filter_append _ _

private theorem pops_log {o : Obs} (h : isPop o = false) (t : List Obs) : pops (t ++ [o]) = pops t := by
  rw [pops_append, pops, pops, List.filter_cons_of_neg (by rw [h]; decide), List.filter_nil, List.append_nil]

private theorem touch_pops (status : Option OrderStatus) : pops (touch orderId status w).trace = pops w.trace := by
  rw [touch.eq_def]
  split
  · rfl
  · exact pops_log rfl _

private theorem countStale_pops : pops (countStale cfg orderId w).trace = pops w.trace := by
  have hmiss : pops (w.update orderId Record.miss (.missed orderId)).trace = pops w.trace := pops_log rfl _
  rw [countStale]
  split
  · exact hmiss
  · split
    · exact (pops_log rfl _).trans hmiss
    · exact hmiss

/-- A refresh that fails drops no order for its status. -/
private theorem refresh_pops {i : PollInput} (h : ∀ report, i.refresh ≠ .ok report) :
    pops (refresh cfg orderId i w).trace = pops w.trace := by
  have hask : pops (w.log (.asked orderId)).trace = pops w.trace := pops_log rfl _
  unfold refresh
  dsimp only
  split
  · next report hr => exact absurd hr (h report)
  · exact (touch_pops _).trans hask
  · refine countStale_pops.trans ?_
    exact (touch_pops _).trans hask

private theorem pollOne_pops {i : PollInput} (h : ∀ report, i.refresh ≠ .ok report) :
    pops (pollOne cfg orderId i w).trace = pops w.trace := by
  rw [pollOne]
  split
  · rfl
  · split
    · dsimp only
      split
      · exact countStale_pops
      · split
        · exact (refresh_pops h).trans countStale_pops
        · exact countStale_pops
    · exact refresh_pops h

end Poll

/-- What holds of every call holds of every drop. -/
private theorem AllOrNothing.drops {order : Order} {status : Except Fault String} {detail : Except Fault Payload}
    (h : AllOrNothing order status detail) : DropsRefreshed order status detail := by
  intro cfg orderId i mono w r new _ _ hi ht hpop
  rw [AllOrNothing] at h
  match hcall : DhanBroker.getOrderStatus order status detail with
  | (after, .ok ()) =>
    rw [hcall] at h
    exact h
  | (after, .error e) =>
    have hfail : ∀ report, i.refresh ≠ .ok report := by
      rw [hi, DhanBroker.refreshOf, hcall]
      cases e with
      | rateLimited message => exact fun _ => nofun
      | other message => exact fun _ => nofun
    have hnew : pops (pollOne cfg orderId i w).trace = pops w.trace := pollOne_pops hfail
    rw [ht, pops_append] at hnew
    have hnone : pops new = [] := List.append_right_eq_self.mp hnew
    rcases hpop with hpop | hpop
    · exact absurd rfl (List.filter_eq_nil_iff.mp hnone _ hpop)
    · exact absurd rfl (List.filter_eq_nil_iff.mp hnone _ hpop)

/-- A status refresh brings status and figures or nothing, and no poll drops an order that it did not
refresh, exactly where the call is refreshable. -/
theorem status_refresh_iff (order : Order) (filled : Int) (avg : Rat) (status : Except Fault String)
    (detail : Except Fault Payload) :
    AllOrNothing (withFigures order filled avg) status detail ∧ DropsRefreshed (withFigures order filled avg) status detail ↔
      Refreshable (withFigures order filled avg) status detail :=
  (and_iff_left_of_imp AllOrNothing.drops).trans allOrNothing_iff

def unfilled : Order := withFigures { side := .buy, quantity := 10, orderId := some "1" } 0 0

/-- The order is traded, and the request for its detail times out: the call returns, and the poll drops the
order as completed. -/
theorem swallowed_detail :
    ¬AllOrNothing unfilled (.ok "TRADED") (.error (.other "read timed out")) ∧
      ¬DropsRefreshed unfilled (.ok "TRADED") (.error (.other "read timed out")) := by
  have hnone (order : Order) : ¬Refreshed order (.ok "TRADED") (.error (.other "read timed out")) := by
    rintro ⟨-, d, -, h, -⟩
    cases h
  have hdrop : ¬DropsRefreshed unfilled (.ok "TRADED") (.error (.other "read timed out")) := by
    intro h
    let w : World := { exec := { openOrders := Dict.empty.set "1" (track marketBuy unfilled 0) } }
    let i : PollInput :=
      { refresh := DhanBroker.refreshOf unfilled (.ok "TRADED") (.error (.other "read timed out")) 0 }
    refine hnone _ (h oneStock "1" i 0 w (track marketBuy unfilled 0) _ rfl rfl rfl (List.nil_append _).symm (.inl ?_))
    decide +kernel
  exact ⟨fun h => hdrop h.drops, hdrop⟩

end NTrade.Brokers
