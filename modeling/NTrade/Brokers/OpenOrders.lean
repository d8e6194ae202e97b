import NTrade.Brokers.Dhan

/-! Which rows of the broker's order book reconciliation adopts, against which of them the status
refresh takes to be open. The first goes by the names of the domain, the second by the broker's. -/
namespace NTrade.Brokers
open NTrade.Domain NTrade.Execution NTrade.Lib

def rawStatus (r : WireRecord) : String := (getOr r "status" "orderState" (.text "")).str

structure Eligible (cfg : Config) (w : World) (entry : OrderBookEntry) : Prop where
  backed : cfg.brokerBacked entry.symbol ≠ none
  sided : ∃ side, OrderSide.ofValue entry.side.toUpper = .ok side
  untracked : entry.orderId ∉ w.exec.openOrders.keys

def Adopts (cfg : Config) (now : Rat) (w : World) (rows : List OrderBookEntry) (entry : OrderBookEntry) : Prop :=
  ∃ r, (reconcileOpen cfg (rows ++ [entry]) now w).trace =
    (reconcileOpen cfg rows now w).trace ++ [.adopted entry.orderId r]

/-- Every eligible row is adopted exactly if the status refresh would take its status to be open. -/
def Agrees (cfg : Config) (now : Rat) (w : World) (records : List WireRecord) : Prop :=
  ∀ before r after, records = before ++ r :: after → ∀ rows entry, normalizeOrderbook before = .ok rows →
    entryFromRow r = .ok entry → Eligible cfg w entry →
    (Adopts cfg now w rows entry ↔ (dhanStatus (Literal.upper (rawStatus r))).isTerminal = false)

/-- The statuses that reconciliation adopts, and those that the status refresh takes to be final. -/
def adoptedStatuses : List String := ["", "PENDING", "PARTIALLY_FILLED"]

def finalStatuses : List String := ["COMPLETE", "TRADED", "CANCELLED", "REJECTED", "EXPIRED"]

def Known (r : WireRecord) (entry : OrderBookEntry) : Prop :=
  entry.orderId ≠ "" ∧ rawStatus r ∈ adoptedStatuses ∨ Literal.upper (rawStatus r) ∈ finalStatuses

section Row
variable {cfg : Config} {now : Rat} {w : World} {entry : OrderBookEntry} {r : WireRecord}

private theorem dhanStatus_terminal_iff (s : String) : (dhanStatus s).isTerminal = true ↔ s ∈ finalStatuses := by
  by_cases hs : s ∈ finalStatuses
  · refine iff_of_true ?_ hs
    rw [finalStatuses, List.mem_cons, List.mem_cons, List.mem_cons, List.mem_cons, List.mem_singleton] at hs
    rcases hs with rfl | rfl | rfl | rfl | rfl
    all_goals rfl
  · refine iff_of_false ?_ hs
    simp only [finalStatuses, List.mem_cons, List.not_mem_nil, or_false, not_or] at hs
    rw [dhanStatus, if_neg (not_or.mpr ⟨hs.1, hs.2.1⟩)]
    split
    · exact Bool.false_ne_true
    · rw [if_neg (not_or.mpr ⟨hs.2.2.1, hs.2.2.2.2⟩), if_neg hs.2.2.2.1]
      exact Bool.false_ne_true

/-- No status is both adopted and final. -/
private theorem not_final_of_adopted {s : String} (h : s ∈ adoptedStatuses) : Literal.upper s ∉ finalStatuses := by
  revert s
  decide +kernel

private theorem adopt_isSome_iff (h : Eligible cfg w entry) :
    (adopt cfg entry now).isSome = true ↔ entry.status ∈ adoptedStatuses := by
  obtain ⟨instrument, hinst⟩ := Option.ne_none_iff_exists'.mp h.backed
  obtain ⟨side, hside⟩ := h.sided
  rw [adopt, hinst, hside]
  by_cases hs : entry.status ∈ adoptedStatuses
  · refine iff_of_true ?_ hs
    rw [adoptedStatuses, List.mem_cons, List.mem_cons, List.mem_singleton] at hs
    rcases hs with h | h | h
    · rw [h]
      rfl
    · rw [h]
      rfl
    · rw [h]
      rfl
  · refine iff_of_false ?_ hs
    split
    · exact Bool.false_ne_true
    · next hterm =>
      simp only [adoptedStatuses, OrderStatus.TERMINAL, OrderStatus.value, List.mem_cons, List.not_mem_nil, or_false,
        not_or] at hs hterm
      rw [if_neg hs.1, OrderStatus.ofValue, if_neg hs.2.1, if_neg hterm.1, if_neg hterm.2.1, if_neg hterm.2.2,
        if_neg hs.2.2]
      exact Bool.false_ne_true

private theorem reconcileOpen_concat (rows : List OrderBookEntry) :
    reconcileOpen cfg (rows ++ [entry]) now w =
      if entry.orderId = "" ∨ entry.orderId ∈ w.exec.openOrders.keys then reconcileOpen cfg rows now w
      else
        match adopt cfg entry now with
        | none => reconcileOpen cfg rows now w
        | some r => (reconcileOpen cfg rows now w).put entry.orderId r (.adopted entry.orderId r) := by
  rw [reconcileOpen, List.foldl_append]
  rfl

private theorem adopts_iff (rows : List OrderBookEntry) :
    Adopts cfg now w rows entry ↔
      entry.orderId ≠ "" ∧ entry.orderId ∉ w.exec.openOrders.keys ∧ (adopt cfg entry now).isSome = true := by
  rw [Adopts, reconcileOpen_concat]
  split
  · next h =>
    refine iff_of_false ?_ fun hn => h.elim hn.1 hn.2.1
    rintro ⟨r, hr⟩
    exact absurd (List.self_eq_append_right.mp hr) (List.cons_ne_nil _ _)
  · next h =>
    rw [not_or] at h
    cases adopt cfg entry now with
    | none =>
      refine iff_of_false ?_ fun hn => Bool.false_ne_true hn.2.2
      rintro ⟨r, hr⟩
      exact absurd (List.self_eq_append_right.mp hr) (List.cons_ne_nil _ _)
    | some r => exact iff_of_true ⟨r, rfl⟩ ⟨h.1, h.2, rfl⟩

private theorem entryFromRow_status (h : entryFromRow r = .ok entry) : entry.status = rawStatus r := by
  rw [entryFromRow] at h
  dsimp only at h
  split at h
  all_goals
    obtain ⟨quantity, -, h⟩ := bind_eq_ok h
    split at h
    all_goals
      obtain ⟨price, -, h⟩ := bind_eq_ok h
      cases h
      rfl

/-- An eligible row is treated alike on both sides exactly if it is known. -/
private theorem row_agrees_iff (rows : List OrderBookEntry) (h : Eligible cfg w entry) (hr : entryFromRow r = .ok entry) :
    (Adopts cfg now w rows entry ↔ (dhanStatus (Literal.upper (rawStatus r))).isTerminal = false) ↔ Known r entry := by
  have hopen : (dhanStatus (Literal.upper (rawStatus r))).isTerminal = false ↔ Literal.upper (rawStatus r) ∉ finalStatuses := by
    rw [← dhanStatus_terminal_iff, Bool.not_eq_true]
  have hadopts : Adopts cfg now w rows entry ↔ entry.orderId ≠ "" ∧ rawStatus r ∈ adoptedStatuses := by
    rw [adopts_iff, adopt_isSome_iff h, entryFromRow_status hr]
    exact and_congr_right fun _ => and_iff_right h.untracked
  rw [hadopts, hopen, Known]
  by_cases ha : entry.orderId ≠ "" ∧ rawStatus r ∈ adoptedStatuses
  · exact iff_of_true (iff_of_true ha (not_final_of_adopted ha.2)) (.inl ha)
  · by_cases hf : Literal.upper (rawStatus r) ∈ finalStatuses
    · exact iff_of_true (iff_of_false ha (not_not_intro hf)) (.inr hf)
    · exact iff_of_false (fun hiff => ha (hiff.mpr hf)) (not_or.mpr ⟨ha, hf⟩)

private theorem getOrderbook_ok {records : List WireRecord} {book : List OrderBookEntry}
    (h : DhanBroker.getOrderbook (.ok records) = .ok book) : normalizeOrderbook records = .ok book := by
  rw [DhanBroker.getOrderbook, show DhanTransport.invoke (.ok records) = .ok records from rfl] at h
  dsimp only at h
  cases hn : normalizeOrderbook records with
  | ok rows =>
    rw [hn] at h
    cases h
    rfl
  | error message =>
    rw [hn] at h
    cases h

/-- The rows before one that is read are read. -/
private theorem normalizeOrderbook_split {before after : List WireRecord} {book : List OrderBookEntry}
    (h : normalizeOrderbook (before ++ r :: after) = .ok book) :
    ∃ rows entry, normalizeOrderbook before = .ok rows ∧ entryFromRow r = .ok entry := by
  induction before generalizing book with
  | nil =>
    rw [List.nil_append, normalizeOrderbook, List.mapM_cons] at h
    obtain ⟨entry, hr, -⟩ := bind_eq_ok h
    exact ⟨[], entry, rfl, hr⟩
  | cons b before ih =>
    rw [List.cons_append, normalizeOrderbook, List.mapM_cons] at h
    obtain ⟨first, hb, h⟩ := bind_eq_ok h
    obtain ⟨rest, hrest, -⟩ := bind_eq_ok h
    obtain ⟨rows, entry, hrows, hr⟩ := ih hrest
    refine ⟨first :: rows, entry, ?_, hr⟩
    rw [normalizeOrderbook] at hrows
    rw [normalizeOrderbook, List.mapM_cons, hb, hrows]
    rfl

end Row

/-- Reconciliation and the status refresh agree on which rows of a book are open exactly if every row
that can be adopted is known to both. -/
theorem reconciliation_agrees_iff (cfg : Config) (now : Rat) (w : World) (records : List WireRecord)
    (book : List OrderBookEntry) (hbook : DhanBroker.getOrderbook (.ok records) = .ok book) :
    Agrees cfg now w records ↔
      ∀ r ∈ records, ∀ entry, entryFromRow r = .ok entry → Eligible cfg w entry → Known r entry := by
  constructor
  · intro h r hr entry hentry he
    obtain ⟨before, after, rfl⟩ := List.append_of_mem hr
    obtain ⟨rows, -, hrows, -⟩ := normalizeOrderbook_split (getOrderbook_ok hbook)
    exact (row_agrees_iff rows he hentry).mp (h before r after rfl rows entry hrows hentry he)
  · rintro h before r after rfl rows entry - hr he
    exact (row_agrees_iff rows he hr).mpr (h r (by simp) entry hr he)

def buyRow (status : String) : WireRecord :=
  ((((Dict.empty.set "orderId" (.text "1")).set "tradingSymbol" (.text "TCS")).set "transactionType" (.text "BUY")).set
    "quantity" (.int 10)).set "status" (.text status)

theorem pending_row_agrees : Agrees oneStock 0 {} [buyRow "PENDING", buyRow "TRADED"] := by
  obtain ⟨book, hbook⟩ : ∃ book, DhanBroker.getOrderbook (.ok [buyRow "PENDING", buyRow "TRADED"]) = .ok book := ⟨_, rfl⟩
  refine (reconciliation_agrees_iff oneStock 0 {} _ book hbook).mpr fun r hr entry he _ => ?_
  rcases List.mem_pair.mp hr with rfl | rfl
  · cases he
    exact .inl (by decide +kernel)
  · exact .inr (by decide +kernel)

/-- An order in transit is live, and is not adopted. -/
theorem transit_row_disagrees : ¬Agrees oneStock 0 {} [buyRow "TRANSIT"] := by
  intro h
  let entry : OrderBookEntry := { symbol := "TCS", orderId := "1", side := "BUY", quantity := 10, status := "TRANSIT" }
  have hrow : entryFromRow (buyRow "TRANSIT") = .ok entry := by rfl
  have heligible : Eligible oneStock {} entry := ⟨by decide +kernel, ⟨.buy, by decide +kernel⟩, List.not_mem_nil⟩
  have hopen : (dhanStatus (Literal.upper (rawStatus (buyRow "TRANSIT")))).isTerminal = false := by decide +kernel
  obtain ⟨r, hr⟩ := (h [] _ [] rfl [] entry rfl hrow heligible).mpr hopen
  have hnone : (reconcileOpen oneStock [entry] 0 {}).trace = [] := by decide +kernel
  rw [List.nil_append, hnone] at hr
  exact List.cons_ne_nil _ _ hr.symm

end NTrade.Brokers
