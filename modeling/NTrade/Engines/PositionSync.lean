import NTrade.Lib.Dict
import NTrade.Domain.Order
import NTrade.Domain.Portfolio
import NTrade.Events.Event
import NTrade.Execution.Costs

/-! The reconciliation of the broker's positions and cash into the kernel. The rows of a
report are taken in by symbol, so that of several rows the last one stands for the symbol. -/
namespace NTrade.Engines
open NTrade.Domain NTrade.Events NTrade.Execution NTrade.Lib

structure BrokerPosition where
  symbol : String
  quantity : Wire
  avgPrice : Wire := none
  ltp : Wire := none
  product : String := ""
  exchange : String := ""
  /-- `metadata["strategy"]`, where the row has one. -/
  strategy : Option String := none

/-- The broker's answers to a sync: none for a request that fails. -/
structure BrokerReport where
  positions : Option (List BrokerPosition)
  balance : Option Rat := none
  reportsCash : Bool := true

structure Synced where
  ctx : TradingContext
  updates : List PositionUpdated := []
  balanceChanged : Option BalanceChanged := none
  rebase : Option Rat := none

def imported (bp : BrokerPosition) (localPos : Option Domain.Position) : Domain.Position where
  symbol := bp.symbol
  quantity := toInt bp.quantity
  avgPrice := toFloat bp.avgPrice
  ltp := toFloat bp.ltp
  product := (localPos.map Domain.Position.product).getD (if bp.product = "" then "MIS" else bp.product)
  exchange := (localPos.map Domain.Position.exchange).getD (if bp.exchange = "" then "NSE" else bp.exchange)
  strategy := bp.strategy.or (localPos.bind Domain.Position.strategy)

def rowChanges (bp : BrokerPosition) (localPos : Option Domain.Position) : Bool :=
  match localPos with
  | none => toInt bp.quantity ≠ 0 || toFloat bp.avgPrice ≠ 0 || bp.ltp ≠ some (toFloat bp.ltp)
  | some p => p.quantity ≠ toInt bp.quantity || p.avgPrice ≠ toFloat bp.avgPrice || p.ltp ≠ toFloat bp.ltp

/-- One row of the first pass: update the local position of the symbol, or add one. -/
def upsert (now : Rat) (s : Synced) (bp : BrokerPosition) : Synced :=
  let localPos := s.ctx.position bp.symbol
  let p := imported bp localPos
  let positions :=
    match localPos with
    | none => s.ctx.positions ++ [p]
    | some _ => Keyed.revise Domain.Position.symbol bp.symbol (fun _ => p) s.ctx.positions
  let update : PositionUpdated :=
    { symbol := bp.symbol, exchange := p.exchange, quantity := p.quantity, avgPrice := p.avgPrice,
      ltp := p.ltp, ts := now }
  { s with
    ctx := { s.ctx with positions }
    updates := if rowChanges bp localPos then s.updates ++ [update] else s.updates }

/-- The second pass: drop the local positions the broker does not report. -/
def dropUnreported (now : Rat) (symbols : List String) (s : Synced) : Synced :=
  let gone := s.ctx.positions.filter fun p => p.symbol ∉ symbols
  { s with
    ctx := { s.ctx with positions := s.ctx.positions.filter fun p => p.symbol ∈ symbols }
    updates := s.updates ++ gone.map fun p =>
      { symbol := p.symbol, exchange := p.exchange, quantity := 0, avgPrice := 0, ltp := 0, ts := now } }

/-- Cash is imported from brokers that report real money. -/
def importCash (now : Rat) (broker : BrokerReport) (s : Synced) : Synced :=
  match if broker.reportsCash then broker.balance else none with
  | none => s
  | some balance =>
    let s := { s with rebase := some balance }
    if balance = s.ctx.balance then s
    else
      let balance := round balance PRICE_PRECISION
      { s with
        ctx := { s.ctx with balance }
        balanceChanged := some { balance, ts := now } }

/-- `PositionSyncEngine.sync`: a failed fetch keeps the state. -/
def sync (broker : BrokerReport) (now : Rat) (ctx : TradingContext) : Synced :=
  match broker.positions with
  | none => { ctx }
  | some reported =>
    let bySymbol := Dict.collect BrokerPosition.symbol reported
    let s := (bySymbol.entries.map Prod.snd).foldl (upsert now) { ctx }
    importCash now broker (dropUnreported now bySymbol.keys s)

def rowsOf (symbol : String) (reported : List BrokerPosition) : List BrokerPosition :=
  reported.filter fun bp => bp.symbol = symbol

def rowQuantity (rows : List BrokerPosition) : Int := (rows.map fun bp => toInt bp.quantity).sum

section Passes
variable {now : Rat} {s : Synced} {symbol : String}

theorem position_upsert (bp : BrokerPosition) :
    (upsert now s bp).ctx.position symbol =
      if symbol = bp.symbol then some (imported bp (s.ctx.position symbol)) else s.ctx.position symbol := by
  have hsym (p : Option Domain.Position) : (imported bp p).symbol = bp.symbol := rfl
  unfold upsert
  dsimp only
  split
  · next hp =>
    have hp : Keyed.lookup Domain.Position.symbol bp.symbol s.ctx.positions = none := hp
    show Keyed.lookup _ _ _ = _
    rw [Keyed.lookup_concat, hsym]
    by_cases hs : symbol = bp.symbol
    · rw [hs, if_pos rfl, if_pos rfl, hp]
      rfl
    · rw [if_neg hs, if_neg (Ne.symm hs), Option.or_none]
      rfl
  · next p hp =>
    have hp : Keyed.lookup Domain.Position.symbol bp.symbol s.ctx.positions = some p := hp
    show Keyed.lookup _ _ _ = _
    rw [Keyed.lookup_revise fun _ _ => hsym _]
    by_cases hs : symbol = bp.symbol
    · rw [hs, if_pos rfl, if_pos rfl, hp]
      rfl
    · rw [if_neg hs, if_neg hs]
      rfl

/-- Every row that is taken in writes its symbol, once. -/
theorem position_upserts (bps : List BrokerPosition) (hn : (bps.map BrokerPosition.symbol).Nodup) :
    (bps.foldl (upsert now) s).ctx.position symbol =
      match Keyed.lookup BrokerPosition.symbol symbol bps with
      | none => s.ctx.position symbol
      | some bp => some (imported bp (s.ctx.position symbol)) := by
  induction bps generalizing s with
  | nil => rfl
  | cons bp bps ih =>
    obtain ⟨hnot, hn⟩ := List.nodup_cons.mp hn
    rw [List.foldl_cons, ih hn, Keyed.lookup_cons, position_upsert]
    by_cases hs : symbol = bp.symbol
    · subst hs
      rw [if_pos rfl, if_pos rfl, Keyed.lookup_eq_none.mpr hnot]
    · rw [if_neg hs, if_neg (Ne.symm hs)]

theorem nodup_upsert (bp : BrokerPosition) (h : (s.ctx.positions.map Domain.Position.symbol).Nodup) :
    ((upsert now s bp).ctx.positions.map Domain.Position.symbol).Nodup := by
  have hsym (p : Option Domain.Position) : (imported bp p).symbol = bp.symbol := rfl
  unfold upsert
  dsimp only
  split
  · next hp => exact Keyed.nodup_concat h hp
  · rw [Keyed.map_key_revise fun _ _ => hsym _]
    exact h

theorem nodup_upserts (bps : List BrokerPosition) (h : (s.ctx.positions.map Domain.Position.symbol).Nodup) :
    ((bps.foldl (upsert now) s).ctx.positions.map Domain.Position.symbol).Nodup := by
  induction bps generalizing s with
  | nil => exact h
  | cons bp bps ih => exact ih (nodup_upsert bp h)

theorem position_dropUnreported (symbols : List String) :
    (dropUnreported now symbols s).ctx.position symbol =
      if symbol ∈ symbols then s.ctx.position symbol else none := by
  show Keyed.lookup Domain.Position.symbol symbol (s.ctx.positions.filter fun p => p.symbol ∈ symbols) = _
  exact Keyed.lookup_filter (· ∈ symbols)

theorem positions_importCash (broker : BrokerReport) :
    (importCash now broker s).ctx.positions = s.ctx.positions := by
  unfold importCash
  split
  · rfl
  · dsimp only
    split
    · rfl
    · rfl

theorem balance_upserts (bps : List BrokerPosition) : (bps.foldl (upsert now) s).ctx.balance = s.ctx.balance := by
  induction bps generalizing s with
  | nil => rfl
  | cons bp bps ih => exact ih

end Passes

section Sync
variable {reported : List BrokerPosition} {symbol : String}

theorem entry_symbol {k : String} {bp : BrokerPosition}
    (h : (k, bp) ∈ (Dict.collect BrokerPosition.symbol reported).entries) : bp.symbol = k := by
  have hg := (Dict.mem_entries_iff _ _ _).mp h
  rw [Dict.get_collect] at hg
  simpa using (List.mem_filter.mp (List.mem_of_getLast? hg)).2

theorem map_symbol_collect :
    ((Dict.collect BrokerPosition.symbol reported).entries.map Prod.snd).map BrokerPosition.symbol =
      (Dict.collect BrokerPosition.symbol reported).keys := by
  rw [List.map_map]
  apply List.map_congr_left
  rintro ⟨k, bp⟩ h
  exact entry_symbol h

private theorem lookup_collect :
    Keyed.lookup BrokerPosition.symbol symbol ((Dict.collect BrokerPosition.symbol reported).entries.map Prod.snd) =
      (rowsOf symbol reported).getLast? := by
  have hg := Dict.get_collect BrokerPosition.symbol reported symbol
  have hn : (((Dict.collect BrokerPosition.symbol reported).entries.map Prod.snd).map BrokerPosition.symbol).Nodup := by
    rw [map_symbol_collect]
    exact Dict.keys_nodup _
  rw [rowsOf, ← hg]
  cases h : (Dict.collect BrokerPosition.symbol reported).get symbol with
  | none =>
    rw [Keyed.lookup_eq_none, map_symbol_collect, ← Dict.get_eq_none_iff]
    exact h
  | some bp =>
    have hm := (Dict.mem_entries_iff _ _ _).mpr h
    have hl := Keyed.lookup_mem hn (List.mem_map_of_mem hm)
    rwa [entry_symbol hm] at hl

/-- After a successful sync the position of a symbol is that of its last row. -/
theorem position_sync (broker : BrokerReport) (now : Rat) (ctx : TradingContext) (h : broker.positions = some reported) :
    (sync broker now ctx).ctx.position symbol =
      (rowsOf symbol reported).getLast?.map fun bp => imported bp (ctx.position symbol) := by
  have hn : (((Dict.collect BrokerPosition.symbol reported).entries.map Prod.snd).map BrokerPosition.symbol).Nodup := by
    rw [map_symbol_collect]
    exact Dict.keys_nodup _
  simp only [sync, h]
  rw [TradingContext.position, positions_importCash]
  refine (position_dropUnreported _).trans ?_
  rw [position_upserts _ hn, lookup_collect]
  have hk : symbol ∈ (Dict.collect BrokerPosition.symbol reported).keys ↔ (rowsOf symbol reported).getLast? ≠ none := by
    rw [rowsOf, ← Dict.get_collect, Ne, Dict.get_eq_none_iff, not_not]
  cases hl : (rowsOf symbol reported).getLast? with
  | none => rw [if_neg (by rw [hk, hl]; simp), Option.map_none]
  | some bp => rw [if_pos (by rw [hk, hl]; simp)]; rfl

/-- A sync keeps one position for each symbol. -/
theorem nodup_sync (broker : BrokerReport) (now : Rat) (ctx : TradingContext)
    (h : (ctx.positions.map Domain.Position.symbol).Nodup) :
    ((sync broker now ctx).ctx.positions.map Domain.Position.symbol).Nodup := by
  unfold sync
  split
  · exact h
  · rw [positions_importCash]
    exact (nodup_upserts _ h).sublist (List.filter_sublist.map _)

/-- The cash that a sync leaves: the broker's, rounded, where it differs. -/
theorem balance_sync (broker : BrokerReport) (now : Rat) (ctx : TradingContext) (h : broker.positions = some reported) :
    (sync broker now ctx).ctx.balance =
      match if broker.reportsCash then broker.balance else none with
      | none => ctx.balance
      | some balance => if balance = ctx.balance then ctx.balance else round balance PRICE_PRECISION := by
  have hkeep (symbols : List String) (s : Synced) : (dropUnreported now symbols s).ctx.balance = s.ctx.balance := rfl
  simp only [sync, h]
  unfold importCash
  split
  · rw [hkeep, balance_upserts]
  · dsimp only
    rw [hkeep, balance_upserts]
    split
    · rw [hkeep, balance_upserts]
    · rfl

theorem quantity_sync (broker : BrokerReport) (now : Rat) (ctx : TradingContext) (h : broker.positions = some reported) :
    (sync broker now ctx).ctx.quantity symbol =
      (((rowsOf symbol reported).getLast?).map fun bp => toInt bp.quantity).getD 0 := by
  rw [TradingContext.quantity, position_sync broker now ctx h, Option.map_map]
  rfl

end Sync

/-- A successful sync leaves every symbol with the sum of its rows exactly when the rows of
each symbol before its last one add up to nothing. -/
theorem sync_aggregates_iff (broker : BrokerReport) (reported : List BrokerPosition) (now : Rat)
    (ctx : TradingContext) (h : broker.positions = some reported) :
    (∀ symbol, (sync broker now ctx).ctx.quantity symbol = rowQuantity (rowsOf symbol reported)) ↔
      ∀ symbol, rowQuantity (rowsOf symbol reported).dropLast = 0 := by
  apply forall_congr'
  intro symbol
  rw [quantity_sync broker now ctx h]
  rcases List.eq_nil_or_concat (rowsOf symbol reported) with hr | ⟨rows, bp, hr⟩
  · simp [hr, rowQuantity]
  · rw [hr, List.concat_eq_append]
    simp only [List.getLast?_concat, List.dropLast_concat, rowQuantity, List.map_append, List.map_singleton,
      List.sum_append, List.sum_singleton, Option.map_some, Option.getD_some]
    omega

def twoRows : List BrokerPosition :=
  [{ symbol := "TCS", quantity := some 10, product := "MIS" }, { symbol := "TCS", quantity := some 5, product := "CNC" }]

/-- The rows of one symbol overwrite each other. -/
theorem rows_of_symbol_overwrite :
    ¬ ∀ symbol, (sync { positions := some twoRows } 0 {}).ctx.quantity symbol =
      rowQuantity (rowsOf symbol twoRows) := by
  intro h
  have ht := h "TCS"
  revert ht
  decide +kernel

def singleRows : List BrokerPosition :=
  [{ symbol := "TCS", quantity := some 10 }, { symbol := "INFY", quantity := some (-5) }]

def heldElsewhere : TradingContext :=
  { positions := [{ symbol := "SBIN", quantity := 7, avgPrice := 500 }] }

private theorem singleRows_dropLast (symbol : String) :
    rowQuantity (rowsOf symbol singleRows).dropLast = 0 := by
  by_cases ht : "TCS" = symbol
  · subst ht
    decide +kernel
  · by_cases hi : "INFY" = symbol
    · subst hi
      decide +kernel
    · simp [singleRows, rowsOf, rowQuantity, ht, hi]

/-- Rows of different symbols are imported as they are, and what they do not name is closed. -/
theorem sync_aggregates_single_rows :
    (sync { positions := some singleRows } 0 heldElsewhere).ctx.quantity "TCS" = 10 ∧
      (sync { positions := some singleRows } 0 heldElsewhere).ctx.quantity "INFY" = -5 ∧
      (sync { positions := some singleRows } 0 heldElsewhere).ctx.quantity "SBIN" = 0 := by
  have h := (sync_aggregates_iff { positions := some singleRows } singleRows 0 heldElsewhere rfl).mpr
    singleRows_dropLast
  refine ⟨?_, ?_, ?_⟩
  · rw [h "TCS"]
    decide +kernel
  · rw [h "INFY"]
    decide +kernel
  · rw [h "SBIN"]
    decide +kernel

end NTrade.Engines
