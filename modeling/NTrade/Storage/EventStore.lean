import NTrade.Execution.Tracking

/-! The event log and what recovery reads out of it: the orders that were still open when
the log ended, with the shares they had filled. -/
namespace NTrade.Storage
open NTrade.Domain NTrade.Events NTrade.Execution NTrade.Lib

/-- The entry of an accepted order while the log is walked. -/
structure OpenOrder where
  quantity : Int
  filled : Int := 0
  symbol : String
  exchange : String
  side : String
  strategy : String
  status : String := "PENDING"
  placedAt : Rat
  deriving DecidableEq

namespace OpenOrder

def ofAccepted (e : OrderAccepted) : OpenOrder where
  quantity := e.quantity
  symbol := e.symbol
  exchange := e.exchange
  side := e.side
  strategy := e.strategy
  placedAt := e.ts

def fill (n : Int) (entry : OpenOrder) : OpenOrder := { entry with filled := entry.filled + n }

def update (e : OrderUpdated) (entry : OpenOrder) : OpenOrder :=
  { entry with status := e.status, filled := if entry.filled < e.filledQty then e.filledQty else entry.filled }

def reject (entry : OpenOrder) : OpenOrder := { entry with status := "REJECTED" }

def isOpen (entry : OpenOrder) : Bool := entry.status ∉ OrderStatus.TERMINAL && 0 < entry.quantity - entry.filled

def toDelta (entry : OpenOrder) : Delta where
  quantity := entry.quantity
  filled := entry.filled
  remaining := entry.quantity - entry.filled
  symbol := entry.symbol
  exchange := entry.exchange
  side := entry.side
  strategy := entry.strategy
  status := entry.status
  placedAt := entry.placedAt

end OpenOrder

def walkStep (deltas : Dict String OpenOrder) : Event → Dict String OpenOrder
  | .accepted e => deltas.set e.orderId (.ofAccepted e)
  | .filled e => deltas.modify e.orderId (·.fill e.quantity)
  | .updated e => deltas.modify e.orderId (·.update e)
  | .rejected e => deltas.modify e.orderId (·.reject)
  | _ => deltas

def walk (events : List Event) : Dict String OpenOrder := events.foldl walkStep Dict.empty

/-- `open_order_deltas`: every accepted order that is neither terminal nor filled. -/
def openOrderDeltas (events : List Event) : List (String × Delta) :=
  (walk events).entries.filterMap fun e => if e.2.isOpen then some (e.1, e.2.toDelta) else none

def entryStep (orderId : String) (entry : Option OpenOrder) : Event → Option OpenOrder
  | .accepted e => if e.orderId = orderId then some (.ofAccepted e) else entry
  | .filled e => if e.orderId = orderId then entry.map (·.fill e.quantity) else entry
  | .updated e => if e.orderId = orderId then entry.map (·.update e) else entry
  | .rejected e => if e.orderId = orderId then entry.map (·.reject) else entry
  | _ => entry

theorem get_walkStep (deltas : Dict String OpenOrder) (e : Event) (orderId : String) :
    (walkStep deltas e).get orderId = entryStep orderId (deltas.get orderId) e := by
  cases e <;> simp only [walkStep, entryStep, Dict.get_set, Dict.get_modify, eq_comm]

/-- The walk keeps each order's entry apart from the others. -/
theorem get_walk_concat (events : List Event) (e : Event) (orderId : String) :
    (walk (events ++ [e])).get orderId = entryStep orderId ((walk events).get orderId) e := by
  rw [walk, List.foldl_concat]
  exact get_walkStep _ _ _

theorem entryStep_of_ne {orderId : String} {e : Event} (h : e.orderId ≠ some orderId) (entry : Option OpenOrder) :
    entryStep orderId entry e = entry := by
  cases e with
  | accepted e => exact if_neg fun he => h (congrArg some he)
  | filled e => exact if_neg fun he => h (congrArg some he)
  | updated e => exact if_neg fun he => h (congrArg some he)
  | rejected e => exact if_neg fun he => h (congrArg some he)
  | _ => rfl

theorem mem_openOrderDeltas {events : List Event} {orderId : String} {delta : Delta} :
    (orderId, delta) ∈ openOrderDeltas events ↔
      ∃ entry, (walk events).get orderId = some entry ∧ entry.isOpen = true ∧ entry.toDelta = delta := by
  simp only [openOrderDeltas, List.mem_filterMap, Prod.exists]
  constructor
  · rintro ⟨id, entry, hm, he⟩
    split at he
    · next ho =>
      obtain ⟨rfl, hd⟩ := Prod.mk.inj (Option.some.inj he)
      exact ⟨entry, (Dict.mem_entries_iff _ _ _).mp hm, ho, hd⟩
    · cases he
  · rintro ⟨entry, hg, ho, rfl⟩
    exact ⟨orderId, entry, (Dict.mem_entries_iff _ _ _).mpr hg, by simp [ho]⟩

private theorem filterMap_keys_sublist (entries : List (String × OpenOrder)) :
    ((entries.filterMap fun e => if e.2.isOpen then some (e.1, e.2.toDelta) else none).map Prod.fst).Sublist
      (entries.map Prod.fst) := by
  induction entries with
  | nil => exact .slnil
  | cons e entries ih =>
    rw [List.filterMap_cons]
    split
    · exact ih.cons _
    · next d hd =>
      split at hd
      · obtain rfl := Option.some.inj hd
        exact ih.cons_cons _
      · cases hd

/-- No order is listed twice. -/
theorem openOrderDeltas_nodup (events : List Event) : ((openOrderDeltas events).map Prod.fst).Nodup :=
  (walk events).nodup.sublist (filterMap_keys_sublist _)

end NTrade.Storage
