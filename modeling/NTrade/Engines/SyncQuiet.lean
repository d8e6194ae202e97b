import NTrade.Engines.PositionSync
import NTrade.Engines.RiskEngine

/-! A sync that fails and a sync that finds nothing new. What is stored after a sync is
compared with the next report. -/
namespace NTrade.Engines
open NTrade.Domain NTrade.Events NTrade.Execution NTrade.Lib

structure SyncState where
  ctx : TradingContext
  engine : Option RiskEngine

def syncInto (broker : BrokerReport) (now : Rat) (s : SyncState) :
    SyncState × List PositionUpdated × Option BalanceChanged :=
  let done := sync broker now s.ctx
  let engine :=
    match done.rebase with
    | none => s.engine
    | some balance => s.engine.map (·.rebase balance)
  ({ ctx := done.ctx, engine }, done.updates, done.balanceChanged)

/-- A failed fetch of positions changes nothing, and a second sync of the same report neither. -/
structure SafeAndQuiet (broker : BrokerReport) (s : SyncState) : Prop where
  safe : ∀ now, broker.positions = none → syncInto broker now s = (s, [], none)
  quiet : ∀ now later, syncInto broker later (syncInto broker now s).1 = ((syncInto broker now s).1, [], none)

/-- The cash that is imported, if any, is the cash at hand or has four decimals. -/
def StorableCash (broker : BrokerReport) (s : SyncState) : Prop :=
  broker.positions ≠ none → broker.reportsCash = true → ∀ balance, broker.balance = some balance →
    balance = s.ctx.balance ∨ round balance PRICE_PRECISION = balance

section Rows
variable {bp : BrokerPosition} {now : Rat} {s : Synced} {ctx : TradingContext}

/-- A row that was imported is imported again as it is. -/
theorem imported_imported (localPos : Option Domain.Position) :
    imported bp (some (imported bp localPos)) = imported bp localPos := by
  rw [imported, imported]
  simp only [Option.map_some, Option.getD_some, Option.bind_some]
  congr 1
  cases bp.strategy <;> rfl

theorem rowChanges_imported (localPos : Option Domain.Position) : rowChanges bp (some (imported bp localPos)) = false := by
  simp [rowChanges, imported]

def Stored (ctx : TradingContext) (bp : BrokerPosition) : Prop :=
  ∃ localPos, ctx.position bp.symbol = some (imported bp localPos)

theorem upsert_of_stored (h : Stored s.ctx bp) : upsert now s bp = s := by
  obtain ⟨localPos, h⟩ := h
  rw [upsert, h]
  dsimp only
  rw [rowChanges_imported, imported_imported]
  have hk : Keyed.revise Domain.Position.symbol bp.symbol (fun _ => imported bp localPos) s.ctx.positions = s.ctx.positions :=
    Keyed.revise_const h
  rw [hk]
  rfl

theorem upserts_of_stored {bps : List BrokerPosition} (h : ∀ bp ∈ bps, Stored s.ctx bp) : bps.foldl (upsert now) s = s := by
  induction bps with
  | nil => rfl
  | cons bp bps ih =>
    rw [List.foldl_cons, upsert_of_stored (h bp List.mem_cons_self)]
    exact ih fun b hb => h b (List.mem_cons_of_mem _ hb)

theorem dropUnreported_of_forall {symbols : List String} (h : ∀ p ∈ s.ctx.positions, p.symbol ∈ symbols) :
    dropUnreported now symbols s = s := by
  have hkeep : s.ctx.positions.filter (fun p => p.symbol ∈ symbols) = s.ctx.positions :=
    List.filter_eq_self.mpr fun p hp => decide_eq_true (h p hp)
  have hgone : s.ctx.positions.filter (fun p => p.symbol ∉ symbols) = [] :=
    List.filter_eq_nil_iff.mpr fun p hp => by simpa using h p hp
  rw [dropUnreported, hkeep, hgone]
  exact congrArg (fun updates => ({ s with updates } : Synced)) (List.append_nil _)

end Rows

section Second
variable {broker : BrokerReport} {reported : List BrokerPosition} {now later : Rat} {ctx : TradingContext}

/-- Every row that was taken in is stored. -/
theorem stored_sync (h : broker.positions = some reported) {bp : BrokerPosition}
    (hbp : bp ∈ (Dict.collect BrokerPosition.symbol reported).entries.map Prod.snd) : Stored (sync broker now ctx).ctx bp := by
  obtain ⟨⟨symbol, row⟩, hm, rfl⟩ := List.mem_map.mp hbp
  have hg := (Dict.mem_entries_iff _ _ _).mp hm
  rw [← entry_symbol hm, Dict.get_collect] at hg
  refine ⟨ctx.position row.symbol, ?_⟩
  rw [position_sync broker now ctx h, rowsOf]
  exact congrArg (Option.map _) hg

/-- Every position that is left is one of the report's. -/
theorem reported_of_mem_sync (h : broker.positions = some reported) {p : Domain.Position}
    (hp : p ∈ (sync broker now ctx).ctx.positions) : p.symbol ∈ (Dict.collect BrokerPosition.symbol reported).keys := by
  rw [sync, h] at hp
  dsimp only at hp
  rw [positions_importCash] at hp
  exact of_decide_eq_true (List.mem_filter.mp hp).2

/-- A second sync of the same report is left with the cash. -/
theorem sync_sync (h : broker.positions = some reported) :
    sync broker later (sync broker now ctx).ctx = importCash later broker { ctx := (sync broker now ctx).ctx } := by
  rw [sync.eq_def broker later, h]
  dsimp only
  rw [upserts_of_stored (s := { ctx := (sync broker now ctx).ctx }) fun bp hbp => stored_sync h hbp,
    dropUnreported_of_forall (s := { ctx := (sync broker now ctx).ctx }) fun p hp => reported_of_mem_sync h hp]

/-- What an import of cash leaves where it finds the cash that it reports. -/
theorem importCash_of_eq {s : Synced} {balance : Rat} (h : (if broker.reportsCash then broker.balance else none) = some balance) :
    importCash now broker s =
      if balance = s.ctx.balance then { s with rebase := some balance }
      else
        { s with
          rebase := some balance
          ctx := { s.ctx with balance := round balance PRICE_PRECISION }
          balanceChanged := some { balance := round balance PRICE_PRECISION, ts := now } } := by
  rw [importCash, h]

theorem rebase_rebase (e : RiskEngine) (balance : Rat) : (e.rebase balance).rebase balance = e.rebase balance := by
  cases hr : e.rebased <;> simp [RiskEngine.rebase, hr]

theorem rebase_upserts (bps : List BrokerPosition) (s : Synced) : (bps.foldl (upsert now) s).rebase = s.rebase := by
  induction bps generalizing s with
  | nil => rfl
  | cons bp bps ih => exact ih _

/-- The balance handed to the risk engine is the one imported, whether or not it is news. -/
theorem rebase_sync (h : broker.positions = some reported) :
    (sync broker now ctx).rebase = if broker.reportsCash then broker.balance else none := by
  rw [sync, h]
  dsimp only
  cases hc : if broker.reportsCash then broker.balance else none with
  | none =>
    rw [importCash, hc]
    exact rebase_upserts _ _
  | some balance =>
    rw [importCash_of_eq hc]
    split <;> rfl

end Second

/-- A sync is safe where it fails and quiet where it is repeated exactly if the cash that it imports is the cash at
hand, or has no more decimals than are stored. -/
theorem safe_and_quiet_iff (broker : BrokerReport) (s : SyncState) : SafeAndQuiet broker s ↔ StorableCash broker s := by
  cases hp : broker.positions with
  | none =>
    have hs (now : Rat) (s : SyncState) : syncInto broker now s = (s, [], none) := by
      rw [syncInto, sync, hp]
    refine iff_of_true ⟨fun now _ => hs now s, fun now later => ?_⟩ fun hne => absurd hp hne
    rw [hs, hs]
  | some reported =>
    have hfirst : ∀ now, (syncInto broker now s).1.ctx = (sync broker now s.ctx).ctx := fun _ => rfl
    cases hc : if broker.reportsCash then broker.balance else none with
    | none =>
      have hsecond (now later : Rat) : syncInto broker later (syncInto broker now s).1 = ((syncInto broker now s).1, [], none) := by
        rw [syncInto.eq_def broker later, hfirst, sync_sync hp, importCash, hc]
        rfl
      refine iff_of_true ⟨fun _ hne => (by cases hp.symm.trans hne), hsecond⟩ ?_
      intro _ hr balance hb
      rw [if_pos hr, hb] at hc
      cases hc
    | some balance =>
      have hbalance (now : Rat) : (sync broker now s.ctx).ctx.balance =
          if balance = s.ctx.balance then s.ctx.balance else round balance PRICE_PRECISION := by
        rw [balance_sync broker now s.ctx hp, hc]
      have hengine (now : Rat) : (syncInto broker now s).1.engine = s.engine.map (·.rebase balance) := by
        rw [syncInto]
        dsimp only
        rw [rebase_sync hp, hc]
      have hquiet (now later : Rat) : syncInto broker later (syncInto broker now s).1 = ((syncInto broker now s).1, [], none) ↔
          balance = (sync broker now s.ctx).ctx.balance := by
        rw [syncInto.eq_def broker later, hfirst, sync_sync hp, importCash_of_eq hc, hengine]
        constructor
        · intro h
          by_contra hne
          rw [if_neg hne] at h
          cases (Prod.ext_iff.mp (Prod.ext_iff.mp h).2).2
        · intro he
          rw [if_pos he]
          have htwice : (s.engine.map (·.rebase balance)).map (·.rebase balance) = (syncInto broker now s).1.engine := by
            rw [hengine, Option.map_map]
            exact congrArg (s.engine.map ·) (funext fun e => rebase_rebase e balance)
          dsimp only
          rw [htwice]
          rfl
      have hstored : StorableCash broker s ↔ (balance = s.ctx.balance ∨ round balance PRICE_PRECISION = balance) := by
        obtain ⟨hr, hb⟩ : broker.reportsCash = true ∧ broker.balance = some balance := by
          split_ifs at hc with hr
          exact ⟨hr, hc⟩
        constructor
        · intro h
          exact h (fun hne => by cases hp.symm.trans hne) hr balance hb
        · intro h _ _ b hb'
          obtain rfl := Option.some.inj (hb.symm.trans hb')
          exact h
      rw [hstored]
      constructor
      · intro h
        have he := (hquiet 0 0).mp (h.quiet 0 0)
        rw [hbalance] at he
        split_ifs at he with hb
        · exact .inl hb
        · exact .inr he.symm
      · intro h
        refine ⟨fun _ hne => (by cases hp.symm.trans hne), fun now later => (hquiet now later).mpr ?_⟩
        rw [hbalance]
        split_ifs with hb
        · exact hb
        · exact (h.resolve_left hb).symm

private def finerCash : BrokerReport := { positions := some [], balance := some (9900012345 / 100000) }

/-- Every sync of such a balance announces it again, though what is stored stays. -/
theorem fine_cash_is_announced_again :
    ¬ SafeAndQuiet finerCash { ctx := { balance := 100000 }, engine := none } ∧
      (syncInto finerCash 1 (syncInto finerCash 0 { ctx := { balance := 100000 }, engine := none }).1).2.2 =
        some { balance := 990001234 / 10000, ts := 1 } := by
  have hagain : (syncInto finerCash 1 (syncInto finerCash 0 { ctx := { balance := 100000 }, engine := none }).1).2.2 =
      some { balance := 990001234 / 10000, ts := 1 } := by
    decide +kernel
  refine ⟨fun h => ?_, hagain⟩
  rw [h.quiet 0 1] at hagain
  nomatch hagain

end NTrade.Engines
