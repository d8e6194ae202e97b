import NTrade.Lib.UpperCase
import NTrade.Lib.IsoFormat
import NTrade.Lib.Grouping
import NTrade.Lib.Dict
import NTrade.Domain.Order
import Mathlib.Data.Prod.Lex
import Mathlib.Data.List.TakeWhile

/-! The instrument master: the futures contracts in a dump of the broker's, by their roots, and the lookups of them. -/
namespace NTrade.Api.FuturesMaster
open NTrade.Domain NTrade.Lib NTrade.Lib.Grouping NTrade.Lib.Literal

structure CalendarDate where
  year : Nat
  month : Nat
  day : Nat
  deriving DecidableEq

namespace CalendarDate

def key (d : CalendarDate) : Nat ×ₗ Nat ×ₗ Nat := toLex (d.year, toLex (d.month, d.day))

def isoformat (d : CalendarDate) : String :=
  String.ofList (DateTime.pad 4 d.year ++ '-' :: DateTime.pad 2 d.month ++ '-' :: DateTime.pad 2 d.day)

/-- `%b` -/
def monthName (month : Nat) : String :=
  ["Jan", "Feb", "Mar", "Apr", "May", "Jun", "Jul", "Aug", "Sep", "Oct", "Nov", "Dec"].getD (month - 1) "Dec"

/-- `%d%b%y` -/
def dayMonthYear (d : CalendarDate) : String :=
  String.ofList (DateTime.pad 2 d.day ++ (monthName d.month).toList ++ DateTime.pad 2 (d.year % 100))

/-- A number of so many digits at most, and not more than a bound. -/
def number (digits bound : Nat) (cs : List Char) : Option Nat :=
  if cs ≠ [] ∧ cs.length ≤ digits ∧ cs.all Char.isDigit then
    some (Nat.ofDigitChars 10 cs 0) |>.filter (· ≤ bound)
  else none

def isClock (clock : List Char) : Bool :=
  let (hour, clock) := clock.span (· ≠ ':')
  let (minute, clock) := clock.tail.span (· ≠ ':')
  (number 2 23 hour).isSome && (number 2 59 minute).isSome && clock.head? = some ':' && (number 2 59 clock.tail).isSome

def ofTexts (year month day : List Char) : Option CalendarDate :=
  if year.length = 4 then
    (number 4 9999 year).bind fun year => (number 2 12 month).bind fun month => (number 2 31 day).bind fun day =>
      if 1 ≤ year ∧ 1 ≤ month ∧ 1 ≤ day ∧ day ≤ Fields.daysInMonth year month then some ⟨year, month, day⟩ else none
  else none

def takeDay : List Char → List Char × List Char
  | ' ' :: c :: cs => ([c], cs)
  | cs => cs.span fun c => !isSpace c

/-- The date of a text, as `strptime` reads it by `%Y-%m-%d %H:%M:%S`. -/
def strptime (text : List Char) : Option CalendarDate :=
  let (year, rest) := text.span (· ≠ '-')
  let (month, rest) := rest.tail.span (· ≠ '-')
  let (day, rest) := takeDay rest.tail
  let clock := rest.dropWhile isSpace
  if clock.length < rest.length ∧ isClock clock then ofTexts year month day else none

example : strptime "2026-10-27 14:30:00".toList = some ⟨2026, 10, 27⟩ := by decide +kernel

end CalendarDate

structure Contract where
  contractId : String
  symbol : String
  root : String
  exchange : String
  expiry : CalendarDate
  lotSize : Rat
  tickSize : Rat
  securityId : Option Int
  instrumentName : String
  deriving DecidableEq

def Contract.isIndex (c : Contract) : Bool := c.instrumentName = "FUTIDX"

abbrev Row := List String

abbrev Master := Dict String (List Contract)

/-- The first row whose second field is the name of the exchange column, and the rows after it; a row of one field
before it raises. -/
def findHeader : List Row → Except String (Option (Row × List Row))
  | [] => .ok none
  | [] :: rows => findHeader rows
  | r :: rows =>
    match r[1]? with
    | none => .error "list index out of range"
    | some name => if name = "SEM_EXM_EXCH_ID" then .ok (some (r, rows)) else findHeader rows

/-- The columns by name; the last one of a name counts. -/
def columns (header : Row) : Dict String Nat :=
  header.zipIdx.foldl (fun d e => d.set e.1 e.2) Dict.empty

/-- `row[idx[name]]` -/
def field (idx : Dict String Nat) (row : Row) (name : String) : Except String String :=
  match idx.get name with
  | none => .error name
  | some i => .ok (row.getD i "")

def intOrNone (text : String) : Option Int :=
  if strip text.toList = [] then none else some (toInt (Literal.float text))

/-- The contract in a row, where there is one that is not there yet. -/
def contractOf (idx : Dict String Nat) (seen : List String) (row : Row) : Except String (Option Contract) := do
  let instType := clean (← field idx row "SEM_EXCH_INSTRUMENT_TYPE")
  if instType ≠ "FUT" ∧ instType ≠ "FUTCOM" then return none
  let custom := clean (← field idx row "SEM_CUSTOM_SYMBOL")
  let trading := String.ofList (strip (← field idx row "SEM_TRADING_SYMBOL").toList)
  if custom = "" ∨ trading = "" ∨ ' ' ∉ custom.toList then return none
  let root := String.ofList (custom.toList.takeWhile (· ≠ ' '))
  match CalendarDate.strptime (strip (← field idx row "SEM_EXPIRY_DATE").toList) with
  | none => return none
  | some expiry =>
    if trading ∈ seen then return none
    let exchId := ((idx.get "SEM_EXM_EXCH_ID").map fun i => clean (row.getD i "")).getD ""
    return some {
      contractId := trading
      symbol := custom
      root
      exchange := if exchId = "MCX" then "MCX" else "NFO"
      expiry
      lotSize := toFloat (Literal.float (← field idx row "SEM_LOT_UNITS"))
      tickSize := toFloat (Literal.float (← field idx row "SEM_TICK_SIZE"))
      securityId := intOrNone (← field idx row "SEM_SMST_SECURITY_ID")
      instrumentName := clean (← field idx row "SEM_INSTRUMENT_NAME") }

/-- `by_root.setdefault(root, []).append(contract)` -/
def push (byRoot : Master) (c : Contract) : Master := byRoot.set c.root (byRoot.getD c.root [] ++ [c])

def loadRows (idx : Dict String Nat) (width : Nat) : List Row → Master × List String → Except String (Master × List String)
  | [], s => .ok s
  | row :: rows, s =>
    if row.length < width then loadRows idx width rows s
    else
      match contractOf idx s.2 row with
      | .error e => .error e
      | .ok none => loadRows idx width rows s
      | .ok (some c) => loadRows idx width rows (push s.1 c, s.2 ++ [c.contractId])

def load (rows : List Row) : Except String Master :=
  match findHeader rows with
  | .error e => .error e
  | .ok none => .error "instrument master has no header"
  | .ok (some (header, rows)) =>
    (loadRows (columns header) header.length rows (Dict.empty, [])).map fun s =>
      s.1.map fun contracts => sortBy (fun c => c.expiry.key) contracts

def create : List (List Row) → Master
  | [] => Dict.empty
  | rows :: dumps =>
    match load rows with
    | .ok master => master
    | .error _ => create dumps

section Queries
variable (master : Master)

def all : List Contract := master.values.flatten

def words (cs : List Char) : List (List Char) := (cs.splitOnP isSpace).filter (· ≠ [])

def dated (root : String) (c : Contract) : List String :=
  [root ++ " " ++ c.expiry.isoformat, root ++ " " ++ c.expiry.dayMonthYear]

def resolve (symbol : String) : Option Contract :=
  let symbol := clean symbol
  match (all master).find? fun c => c.symbol = symbol ∨ c.contractId = symbol with
  | some c => some c
  | none =>
    match words symbol.toList with
    | root :: _ :: _ =>
      (master.getD (String.ofList root) []).find? fun c => symbol ∈ dated (String.ofList root) c
    | _ => none

def contracts (root : String) : List Contract := master.getD (upper root) []

def frontMonth (root : String) (today : CalendarDate) : Option Contract :=
  let active := (contracts master root).filter fun c => today.key ≤ c.expiry.key
  match active with
  | c :: _ => some c
  | [] => (contracts master root).head?

/-- `roots`: those with an index contract first. -/
def roots : List String :=
  let idx := sortBy id ((master.entries.filter fun e => e.2.any Contract.isIndex).map Prod.fst)
  let others := sortBy id (master.keys.filter (· ∉ idx))
  idx ++ others

end Queries

section Loading
variable {idx : Dict String Nat} {seen : List String} {row : Row} {c : Contract}

/-- What every contract that is read has: a symbol in upper case that begins with its root, an id, one of two
exchanges, and an expiry that is a date. -/
structure Reads (c : Contract) : Prop where
  symbol : clean c.symbol = c.symbol
  root : ∃ rest, c.symbol.toList = c.root.toList ++ ' ' :: rest
  root_ne : c.root ≠ ""
  no_space : ' ' ∉ c.root.toList
  contractId_ne : c.contractId ≠ ""
  contractId : Trimmed c.contractId.toList
  exchange : c.exchange = "MCX" ∨ c.exchange = "NFO"
  month : 1 ≤ c.expiry.month ∧ c.expiry.month ≤ 12
  day : 1 ≤ c.expiry.day ∧ c.expiry.day ≤ Fields.daysInMonth c.expiry.year c.expiry.month

/-- The dump's contracts by root: each under its own, the earliest expiry first, and no id twice. -/
structure WellFormed (master : Master) : Prop where
  filed : ∀ root cs, master.get root = some cs → cs ≠ [] ∧ ∀ c ∈ cs, c.root = root ∧ Reads c
  sorted : ∀ root cs, master.get root = some cs → cs.Pairwise fun a b => a.expiry.key ≤ b.expiry.key
  ids : ((all master).map Contract.contractId).Nodup

private theorem bind_ok {α β : Type} {x : Except String α} {f : α → Except String β} {r : β} (h : x >>= f = .ok r) :
    ∃ a, x = .ok a ∧ f a = .ok r := by
  cases x with
  | error e => cases h
  | ok a => exact ⟨a, rfl, h⟩

theorem strptime_valid {text : List Char} {d : CalendarDate} (h : CalendarDate.strptime text = some d) :
    (1 ≤ d.month ∧ d.month ≤ 12) ∧ 1 ≤ d.day ∧ d.day ≤ Fields.daysInMonth d.year d.month := by
  have hbound {k b n : Nat} {cs : List Char} (h : CalendarDate.number k b cs = some n) : n ≤ b := by
    rw [CalendarDate.number] at h
    split_ifs at h
    simpa using (Option.filter_eq_some_iff.mp h).2
  rw [CalendarDate.strptime] at h
  dsimp only at h
  split_ifs at h
  rw [CalendarDate.ofTexts] at h
  split_ifs at h
  obtain ⟨year, -, h⟩ := Option.bind_eq_some_iff.mp h
  obtain ⟨month, hmonth, h⟩ := Option.bind_eq_some_iff.mp h
  obtain ⟨day, -, h⟩ := Option.bind_eq_some_iff.mp h
  split_ifs at h with hdate
  rw [← Option.some.inj h]
  exact ⟨⟨hdate.2.1, hbound hmonth⟩, hdate.2.2⟩

/-- The text before the first blank, of a text that does not begin with one. -/
theorem takeWhile_blank {cs : List Char} (ht : Trimmed cs) (hmem : ' ' ∈ cs) :
    (∃ rest, cs = cs.takeWhile (· ≠ ' ') ++ ' ' :: rest) ∧ cs.takeWhile (· ≠ ' ') ≠ [] ∧ ' ' ∉ cs.takeWhile (· ≠ ' ') := by
  have hnot : ' ' ∉ cs.takeWhile (· ≠ ' ') := fun h => by simpa using List.mem_takeWhile_imp h
  have hsplit := List.takeWhile_append_dropWhile (p := (· ≠ ' ')) (l := cs)
  refine ⟨?_, ?_, hnot⟩
  · cases hdrop : cs.dropWhile (· ≠ ' ') with
    | nil =>
      rw [hdrop, List.append_nil] at hsplit
      rw [hsplit] at hnot
      exact absurd hmem hnot
    | cons d rest =>
      have hd := head?_dropWhile (p := (· ≠ ' ')) cs d (by rw [hdrop]; rfl)
      obtain rfl : d = ' ' := by simpa using hd
      exact ⟨rest, by rw [← hdrop, hsplit]⟩
  · cases cs with
    | nil => cases hmem
    | cons c cs =>
      have hc : c ≠ ' ' := by
        rintro rfl
        exact absurd (ht.1 ' ' rfl) (by decide)
      rw [List.takeWhile_cons_of_pos (by simpa using hc)]
      exact List.cons_ne_nil _ _

private theorem ite_ok {α : Type} {P : Prop} [Decidable P] {x y : Except String (Option α)} {r : α}
    (h : (if P then x else y) = .ok (some r)) (hx : x = .ok none) : ¬ P ∧ y = .ok (some r) := by
  by_cases hP : P
  · rw [if_pos hP, hx] at h
    cases h
  · exact ⟨hP, by rwa [if_neg hP] at h⟩

theorem contractOf_spec (h : contractOf idx seen row = .ok (some c)) : Reads c ∧ c.contractId ∉ seen := by
  rw [contractOf] at h
  obtain ⟨instType, -, h⟩ := bind_ok h
  obtain ⟨-, h⟩ := ite_ok h (Eq.refl _)
  obtain ⟨custom, -, h⟩ := bind_ok h
  obtain ⟨trading, -, h⟩ := bind_ok h
  obtain ⟨hnames, h⟩ := ite_ok h (Eq.refl _)
  obtain ⟨date, -, h⟩ := bind_ok h
  split at h
  · cases h
  next expiry hexpiry =>
    obtain ⟨hseen, h⟩ := ite_ok h (Eq.refl _)
    obtain ⟨lot, -, h⟩ := bind_ok h
    obtain ⟨tick, -, h⟩ := bind_ok h
    obtain ⟨security, -, h⟩ := bind_ok h
    obtain ⟨name, -, h⟩ := bind_ok h
    obtain rfl := Option.some.inj (Except.ok.inj h)
    obtain ⟨hcustom, htrading, hblank⟩ : clean custom ≠ "" ∧ String.ofList (strip trading.toList) ≠ "" ∧ ' ' ∈ (clean custom).toList := by
      simpa [not_or] using hnames
    obtain ⟨⟨rest, hrest⟩, hne, hno⟩ := takeWhile_blank (trimmed_clean custom) hblank
    obtain ⟨hmonth, hday⟩ := strptime_valid hexpiry
    refine ⟨⟨clean_clean custom, ⟨rest, ?_⟩, ?_, ?_, htrading, ?_, ?_, hmonth, hday⟩, hseen⟩
    · rw [String.toList_ofList]
      exact hrest
    · intro h
      exact hne (by simpa using congrArg String.toList h)
    · rw [String.toList_ofList]
      exact hno
    · rw [String.toList_ofList]
      exact trimmed_strip _
    · dsimp only
      split_ifs
      · exact .inl rfl
      · exact .inr rfl

def countId (x : String) (cs : List Contract) : Int := ((cs.map Contract.contractId).count x : Nat)

structure Loaded (s : Master × List String) : Prop where
  filed : ∀ root cs, s.1.get root = some cs → cs ≠ [] ∧ ∀ c ∈ cs, c.root = root ∧ Reads c
  count : ∀ x, s.1.total (countId x) = (s.2.count x : Nat)
  nodup : s.2.Nodup

theorem loaded_push {s : Master × List String} (hs : Loaded s) (hread : Reads c) (hid : c.contractId ∉ s.2) :
    Loaded (push s.1 c, s.2 ++ [c.contractId]) where
  filed root cs hcs := by
    rw [push, Dict.get_set] at hcs
    split_ifs at hcs with hroot
    · rw [← Option.some.inj hcs]
      refine ⟨by simp, fun c' hc' => ?_⟩
      rcases List.mem_append.mp hc' with hc' | hc'
      · cases hold : s.1.get c.root with
        | none =>
          rw [Dict.getD, hold] at hc'
          cases hc'
        | some old =>
          rw [Dict.getD, hold] at hc'
          exact hroot ▸ (hs.filed c.root old hold).2 c' hc'
      · rw [List.mem_singleton.mp hc']
        exact ⟨hroot.symm, hread⟩
    · exact hs.filed root cs hcs
  count x := by
    have hnew : countId x (s.1.getD c.root [] ++ [c]) = countId x (s.1.getD c.root []) + countId x [c] := by
      simp [countId]
    have hold : ((s.1.get c.root).map (countId x)).getD 0 = countId x (s.1.getD c.root []) := by
      rw [Dict.getD]
      cases s.1.get c.root <;> rfl
    have hone : (([c.contractId].count x : Nat) : Int) = countId x [c] := rfl
    rw [push, Dict.total_set, hold, hnew, hs.count x, List.count_append, Nat.cast_add, hone]
    abel
  nodup := by
    refine hs.nodup.append (List.nodup_singleton _) fun x hx hx' => hid ?_
    rwa [← List.mem_singleton.mp hx']

theorem loaded_loadRows {width : Nat} {rows : List Row} {s s' : Master × List String} (hs : Loaded s)
    (h : loadRows idx width rows s = .ok s') : Loaded s' := by
  induction rows generalizing s with
  | nil =>
    rw [← Except.ok.inj h]
    exact hs
  | cons row rows ih =>
    rw [loadRows] at h
    split at h
    · exact ih hs h
    · split at h
      · cases h
      · exact ih hs h
      · next c hc =>
        obtain ⟨hread, hid⟩ := contractOf_spec hc
        exact ih (loaded_push hs hread hid) h

theorem mem_all {master : Master} {c : Contract} : c ∈ all master ↔ ∃ root cs, master.get root = some cs ∧ c ∈ cs := by
  rw [all, List.mem_flatten]
  constructor
  · rintro ⟨cs, hcs, hc⟩
    obtain ⟨e, he, rfl⟩ := List.mem_map.mp hcs
    exact ⟨e.1, e.2, (Dict.mem_entries_iff _ _ _).mp he, hc⟩
  · rintro ⟨root, cs, hcs, hc⟩
    exact ⟨cs, List.mem_map.mpr ⟨(root, cs), (Dict.mem_entries_iff _ _ _).mpr hcs, rfl⟩, hc⟩

private theorem count_all (master : Master) (x : String) :
    (((all master).map Contract.contractId).count x : Int) = master.total (countId x) := by
  rw [all, Dict.values, Dict.total]
  induction master.entries with
  | nil => rfl
  | cons e entries ih =>
    rw [List.map_cons, List.flatten_cons, List.map_append, List.count_append, Nat.cast_add, ih, List.map_cons, List.sum_cons,
      countId]

/-- A loop that is through leaves, with each list sorted, a well-formed master. -/
theorem wellFormed_sort {s : Master × List String} (hs : Loaded s) :
    WellFormed (s.1.map fun contracts => sortBy (fun c => c.expiry.key) contracts) where
  filed root cs hcs := by
    rw [Dict.get_map] at hcs
    obtain ⟨old, hold, rfl⟩ := Option.map_eq_some_iff.mp hcs
    obtain ⟨hne, hall⟩ := hs.filed root old hold
    have hperm := perm_sortBy (fun c : Contract => c.expiry.key) old
    exact ⟨fun hnil => hne (List.perm_nil.mp (hnil ▸ hperm.symm)), fun c hc => hall c (hperm.mem_iff.mp hc)⟩
  sorted root cs hcs := by
    rw [Dict.get_map] at hcs
    obtain ⟨old, -, rfl⟩ := Option.map_eq_some_iff.mp hcs
    exact pairwise_sortBy _ old
  ids := by
    rw [List.nodup_iff_count_le_one]
    intro x
    have hsame (cs : List Contract) : countId x (sortBy (fun c => c.expiry.key) cs) = countId x cs := by
      rw [countId, countId, ((perm_sortBy _ cs).map _).count_eq]
    have htotal : (s.1.map fun contracts => sortBy (fun c => c.expiry.key) contracts).total (countId x) = s.1.total (countId x) := by
      rw [Dict.total, Dict.total, Dict.map, List.map_map]
      exact congrArg List.sum (List.map_congr_left fun e _ => hsame e.2)
    have hcount := count_all (s.1.map fun contracts => sortBy (fun c => c.expiry.key) contracts) x
    rw [htotal, hs.count x] at hcount
    have hone := List.nodup_iff_count_le_one.mp hs.nodup x
    omega

theorem wellFormed_empty : WellFormed Dict.empty where
  filed _ _ h := by cases h
  sorted _ _ h := by cases h
  ids := List.nodup_nil

theorem wellFormed_of_create (dumps : List (List Row)) : WellFormed (create dumps) := by
  induction dumps with
  | nil => exact wellFormed_empty
  | cons rows dumps ih =>
    rw [create]
    split
    · next master hload =>
      rw [load] at hload
      split at hload
      · cases hload
      · cases hload
      · next header rest _ =>
        cases hrows : loadRows (columns header) header.length rest (Dict.empty, []) with
        | error e =>
          rw [hrows] at hload
          cases hload
        | ok s =>
          rw [hrows] at hload
          rw [← Except.ok.inj hload]
          refine wellFormed_sort (loaded_loadRows ⟨fun _ _ h => ?_, fun x => ?_, List.nodup_nil⟩ hrows)
          · cases h
          · rfl
    · exact ih

private theorem mem_index_iff {master : Master} {e : String × List Contract} (he : e ∈ master.entries) :
    e.1 ∈ (master.entries.filter fun e => e.2.any Contract.isIndex).map Prod.fst ↔ e.2.any Contract.isIndex = true := by
  constructor
  · intro h
    obtain ⟨e', he', hkey⟩ := List.mem_map.mp h
    obtain ⟨hmem, hany⟩ := List.mem_filter.mp he'
    rwa [← List.inj_on_of_nodup_map master.nodup hmem he hkey]
  · exact fun h => List.mem_map.mpr ⟨e, List.mem_filter.mpr ⟨he, h⟩, rfl⟩

/-- Whatever the dumps hold, the contracts of the master are under their roots, in the order of their expiries, under
ids that differ, and each has the fields that are looked for. Its roots are listed once each, those with an index
contract before the others. -/
theorem create_spec (dumps : List (List Row)) : WellFormed (create dumps) ∧ (roots (create dumps)).Perm (create dumps).keys ∧
    ∃ idx others, roots (create dumps) = idx ++ others ∧ idx.Pairwise (· ≤ ·) ∧ others.Pairwise (· ≤ ·) ∧
      ∀ root, root ∈ idx ↔ ∃ c ∈ (create dumps).getD root [], c.isIndex = true := by
  have hidx (root : String) : root ∈ sortBy id (((create dumps).entries.filter fun e => e.2.any Contract.isIndex).map Prod.fst) ↔
      ∃ c ∈ (create dumps).getD root [], c.isIndex = true := by
    rw [(perm_sortBy id _).mem_iff]
    constructor
    · intro h
      obtain ⟨e, he, rfl⟩ := List.mem_map.mp h
      obtain ⟨hmem, hany⟩ := List.mem_filter.mp he
      rw [Dict.getD, (Dict.mem_entries_iff _ _ _).mp hmem]
      exact List.any_eq_true.mp hany
    · rintro ⟨c, hc, hindex⟩
      rw [Dict.getD] at hc
      cases hget : (create dumps).get root with
      | none =>
        rw [hget] at hc
        cases hc
      | some cs =>
        rw [hget] at hc
        have hmem := (Dict.mem_entries_iff _ _ _).mpr hget
        exact (mem_index_iff hmem).mpr (List.any_eq_true.mpr ⟨c, hc, hindex⟩)
  refine ⟨wellFormed_of_create dumps, ?_, _, _, rfl, pairwise_sortBy id _, pairwise_sortBy id _, hidx⟩
  have hfilter : ((create dumps).entries.filter fun e => e.2.any Contract.isIndex).map Prod.fst =
      (create dumps).keys.filter fun r => r ∈ sortBy id (((create dumps).entries.filter fun e => e.2.any Contract.isIndex).map Prod.fst) := by
    rw [Dict.keys, List.filter_map]
    congr 1
    apply List.filter_congr
    intro e he
    rw [Function.comp, Bool.eq_iff_iff, decide_eq_true_iff, (perm_sortBy id _).mem_iff, mem_index_iff he]
  have hsplit := List.filter_append_perm (fun r => decide (r ∈ sortBy id (((create dumps).entries.filter fun e =>
    e.2.any Contract.isIndex).map Prod.fst))) (create dumps).keys
  rw [← hfilter] at hsplit
  refine List.Perm.trans ?_ hsplit
  refine (perm_sortBy id _).append ((perm_sortBy id _).trans (List.Perm.of_eq ?_))
  apply List.filter_congr
  intro r _
  simp

end Loading

section Lookups
variable {master : Master} {c : Contract}

theorem WellFormed.reads (h : WellFormed master) (hc : c ∈ all master) : Reads c ∧ c ∈ master.getD c.root [] := by
  obtain ⟨root, cs, hcs, hmem⟩ := mem_all.mp hc
  obtain ⟨hroot, hread⟩ := (h.filed root cs hcs).2 c hmem
  refine ⟨hread, ?_⟩
  rw [hroot, Dict.getD, hcs]
  exact hmem

/-- The text of a month has a letter that upper case changes. -/
theorem exists_isLower_monthName (month : Nat) : ∃ c ∈ (CalendarDate.monthName month).toList, c.isLower = true := by
  have hall : ∀ name ∈ ["Jan", "Feb", "Mar", "Apr", "May", "Jun", "Jul", "Aug", "Sep", "Oct", "Nov", "Dec"],
      name.toList.any Char.isLower = true := by decide +kernel
  rw [CalendarDate.monthName, List.getD_eq_getElem?_getD]
  cases hname : ["Jan", "Feb", "Mar", "Apr", "May", "Jun", "Jul", "Aug", "Sep", "Oct", "Nov", "Dec"][month - 1]? with
  | none => exact List.any_eq_true.mp (hall "Dec" (by decide))
  | some name => exact List.any_eq_true.mp (hall name (List.mem_of_getElem? hname))

/-- No text that is looked up is a root with a day, the name of a month and a year. -/
theorem clean_ne_dayMonthYear (text root : String) (d : CalendarDate) : clean text ≠ root ++ " " ++ d.dayMonthYear := by
  intro h
  obtain ⟨ch, hch, hlower⟩ := exists_isLower_monthName d.month
  have hmem : ch ∈ (clean text).toList := by
    rw [h, CalendarDate.dayMonthYear]
    simp [hch]
  have hsettled := (settled_of_mem_upper hmem).1
  rw [hlower] at hsettled
  cases hsettled

/-- Dated texts are found by the ISO form alone. -/
theorem resolve_eq (master : Master) (text : String) : resolve master text =
    match (all master).find? fun c => c.symbol = clean text ∨ c.contractId = clean text with
    | some c => some c
    | none =>
      match words (clean text).toList with
      | root :: _ :: _ =>
        (master.getD (String.ofList root) []).find? fun c => clean text = String.ofList root ++ " " ++ c.expiry.isoformat
      | _ => none := by
  have hdated (root : String) (c : Contract) : clean text ∈ dated root c ↔ clean text = root ++ " " ++ c.expiry.isoformat := by
    simp [dated, clean_ne_dayMonthYear]
  rw [resolve]
  simp only [hdated]

private theorem resolve_of_mem {text : String} (hc : c ∈ all master) (h : c.symbol = clean text ∨ c.contractId = clean text) :
    ∃ c' ∈ all master, resolve master text = some c' ∧ (c'.symbol = clean text ∨ c'.contractId = clean text) := by
  cases hfind : (all master).find? fun c => c.symbol = clean text ∨ c.contractId = clean text with
  | none => exact absurd h (by simpa using List.find?_eq_none.mp hfind c hc)
  | some c' =>
    refine ⟨c', List.mem_of_find?_eq_some hfind, ?_, by simpa using List.find?_some hfind⟩
    rw [resolve, hfind]

private theorem blank_not_mem {s : String} (h : ∀ ch ∈ s.toList, isSpace ch = false) : ∀ ch ∈ (upper s).toList, isSpace ch = false := by
  intro ch hch
  rw [upper, String.toList_ofList] at hch
  obtain ⟨d, hd, hmem⟩ := List.mem_flatMap.mp hch
  exact isSpace_of_mem_foldedChar (h d hd) hmem

/-- An id without blanks is found exactly if it is in upper case. -/
private theorem resolve_contractId (hm : WellFormed master) (hc : c ∈ all master)
    (hblank : ∀ ch ∈ c.contractId.toList, isSpace ch = false) :
    resolve master c.contractId = some c ↔ upper c.contractId = c.contractId := by
  have hclean : clean c.contractId = upper c.contractId := by
    rw [clean, strip_of_trimmed (hm.reads hc).1.contractId, String.ofList_toList]
  have hblank' := blank_not_mem hblank
  have hsymbol {c' : Contract} (hc' : c' ∈ all master) : c'.symbol ≠ clean c.contractId := by
    intro h
    obtain ⟨rest, hrest⟩ := (hm.reads hc').1.root
    have := hblank' ' ' (by rw [← hclean, ← h, hrest]; simp)
    exact absurd this (by decide)
  constructor
  · intro h
    rw [resolve] at h
    split at h
    · next c' hfind =>
      obtain rfl := Option.some.inj h
      have hgoes : c'.symbol = clean c'.contractId ∨ c'.contractId = clean c'.contractId := by
        simpa using List.find?_some hfind
      exact hclean ▸ (hgoes.resolve_left (hsymbol hc)).symm
    · rw [words, hclean, List.splitOnP_eq_singleton hblank'] at h
      split at h
      · next hwords =>
        have hlen := congrArg List.length hwords
        have hle := List.length_filter_le (· ≠ []) [(upper c.contractId).toList]
        simp only [List.length_cons, List.length_nil] at hlen hle
        omega
      · cases h
  · intro h
    obtain ⟨c', hc', hres, hgoes⟩ := resolve_of_mem hc (.inr (hclean.trans h).symm)
    have hid := hgoes.resolve_left (hsymbol hc')
    rw [hclean, h] at hid
    rw [hres, List.inj_on_of_nodup_map hm.ids hc' hc hid]

private theorem settled_pad (w n : Nat) : ∀ ch ∈ DateTime.pad w n, Settled ch ∧ isSpace ch = false := by
  induction w generalizing n with
  | zero => exact fun ch h => by cases h
  | succ w ih =>
    intro ch hch
    rw [DateTime.pad] at hch
    rcases List.mem_cons.mp hch with rfl | hch
    · have hdigit : ∀ d : Fin 10, Settled (Json.digit d) ∧ isSpace (Json.digit d) = false := by decide +kernel
      exact hdigit _
    · exact ih n ch hch

private theorem settled_isoformat (d : CalendarDate) : ∀ ch ∈ d.isoformat.toList, Settled ch ∧ isSpace ch = false := by
  intro ch hch
  have hdash : Settled '-' ∧ isSpace '-' = false := by decide
  rw [CalendarDate.isoformat, String.toList_ofList] at hch
  simp only [List.mem_append, List.mem_cons] at hch
  rcases hch with (hch | rfl | hch) | rfl | hch
  · exact settled_pad 4 d.year ch hch
  · exact hdash
  · exact settled_pad 2 d.month ch hch
  · exact hdash
  · exact settled_pad 2 d.day ch hch

/-- A root without blanks in it, with an expiry, finds a contract that goes by it. -/
private theorem resolve_isoformat (hm : WellFormed master) (hc : c ∈ all master)
    (hblank : ∀ ch ∈ c.root.toList, isSpace ch = false) :
    ∃ c', resolve master (c.root ++ " " ++ c.expiry.isoformat) = some c' ∧
      (c'.symbol = c.root ++ " " ++ c.expiry.isoformat ∨ c'.contractId = c.root ++ " " ++ c.expiry.isoformat ∨
        c' ∈ master.getD c.root [] ∧ c'.expiry.isoformat = c.expiry.isoformat) := by
  obtain ⟨hread, hmem⟩ := hm.reads hc
  have hiso := settled_isoformat c.expiry
  have htext : (c.root ++ " " ++ c.expiry.isoformat).toList = c.root.toList ++ ' ' :: c.expiry.isoformat.toList := by simp
  have hsettled : ∀ ch ∈ (c.root ++ " " ++ c.expiry.isoformat).toList, Settled ch := by
    intro ch hch
    rw [htext] at hch
    rcases List.mem_append.mp hch with hch | hch
    · obtain ⟨rest, hrest⟩ := hread.root
      exact settled_of_mem_upper (s := String.ofList (strip c.symbol.toList)) (by
        rw [← clean, hread.symbol, hrest]
        exact List.mem_append_left _ hch)
    · rcases List.mem_cons.mp hch with rfl | hch
      · decide
      · exact (hiso ch hch).1
  have htrimmed : Trimmed (c.root ++ " " ++ c.expiry.isoformat).toList := by
    rw [htext]
    have hroot : c.root.toList ≠ [] := fun h => hread.root_ne (by simpa using h)
    constructor
    · intro ch hch
      rw [List.head?_append_of_ne_nil _ hroot] at hch
      exact hblank ch (List.mem_of_head? hch)
    · intro ch hch
      have hne : c.expiry.isoformat.toList ≠ [] := by
        rw [CalendarDate.isoformat, String.toList_ofList]
        simp
      rw [List.append_cons, List.getLast?_append_of_ne_nil _ hne] at hch
      exact (hiso ch (List.mem_of_getLast? hch)).2
  have hclean := clean_of_settled htrimmed hsettled
  rw [resolve_eq, hclean]
  cases hfind : (all master).find? fun c' => c'.symbol = c.root ++ " " ++ c.expiry.isoformat ∨
      c'.contractId = c.root ++ " " ++ c.expiry.isoformat with
  | some c' =>
    have hgoes : c'.symbol = c.root ++ " " ++ c.expiry.isoformat ∨ c'.contractId = c.root ++ " " ++ c.expiry.isoformat := by
      simpa using List.find?_some hfind
    exact ⟨c', rfl, hgoes.imp_right .inl⟩
  | none =>
    have hwords : words (c.root ++ " " ++ c.expiry.isoformat).toList = [c.root.toList, c.expiry.isoformat.toList] := by
      rw [words, htext, List.splitOnP_append_cons_of_forall_mem hblank ' ' (by decide),
        List.splitOnP_eq_singleton fun ch hch => (hiso ch hch).2]
      have hroot : c.root.toList ≠ [] := fun h => hread.root_ne (by simpa using h)
      have hne : c.expiry.isoformat.toList ≠ [] := by
        rw [CalendarDate.isoformat, String.toList_ofList]
        simp
      simp [hroot, hne]
    rw [hwords]
    dsimp only
    rw [String.ofList_toList]
    cases hdated : (master.getD c.root []).find? fun c' =>
        c.root ++ " " ++ c.expiry.isoformat = c.root ++ " " ++ c'.expiry.isoformat with
    | none => exact absurd (List.find?_eq_none.mp hdated c hmem) (by simp)
    | some c' =>
      have hsame : c.root ++ " " ++ c.expiry.isoformat = c.root ++ " " ++ c'.expiry.isoformat := by
        simpa using List.find?_some hdated
      have hlist := congrArg String.toList hsame
      rw [htext] at hlist
      refine ⟨c', rfl, .inr (.inr ⟨List.mem_of_find?_eq_some hdated, ?_⟩)⟩
      have hcut : c.expiry.isoformat.toList = c'.expiry.isoformat.toList := by simpa using hlist
      exact (String.toList_inj.mp hcut).symm

/-- Under the symbol of a contract one is found that goes by it. Under its id, if that has no blanks, the contract is
found exactly if the id is in upper case, as every text is before it is looked up; and under its root, if that has
none, with its expiry one that goes by that text or is of that root and expiry. -/
theorem resolve_spec (dumps : List (List Row)) (hc : c ∈ all (create dumps)) :
    (∃ c' ∈ all (create dumps), resolve (create dumps) c.symbol = some c' ∧
        (c'.symbol = c.symbol ∨ c'.contractId = c.symbol)) ∧
      ((∀ ch ∈ c.contractId.toList, isSpace ch = false) →
        (resolve (create dumps) c.contractId = some c ↔ upper c.contractId = c.contractId)) ∧
      ((∀ ch ∈ c.root.toList, isSpace ch = false) →
        ∃ c', resolve (create dumps) (c.root ++ " " ++ c.expiry.isoformat) = some c' ∧
          (c'.symbol = c.root ++ " " ++ c.expiry.isoformat ∨ c'.contractId = c.root ++ " " ++ c.expiry.isoformat ∨
            c' ∈ (create dumps).getD c.root [] ∧ c'.expiry.isoformat = c.expiry.isoformat)) := by
  have hm := wellFormed_of_create dumps
  have hsymbol := (hm.reads hc).1.symbol
  refine ⟨?_, resolve_contractId hm hc, resolve_isoformat hm hc⟩
  obtain ⟨c', hc', hres, hgoes⟩ := resolve_of_mem hc (.inl hsymbol.symm)
  rw [hsymbol] at hgoes
  exact ⟨c', hc', hres, hgoes⟩

def october : List Row :=
  [["SEM_SMST_SECURITY_ID", "SEM_EXM_EXCH_ID", "SEM_EXCH_INSTRUMENT_TYPE", "SEM_CUSTOM_SYMBOL", "SEM_TRADING_SYMBOL",
      "SEM_EXPIRY_DATE", "SEM_LOT_UNITS", "SEM_TICK_SIZE", "SEM_INSTRUMENT_NAME"],
    ["35001", "NSE", "FUT", "NIFTY OCT FUT", "NIFTY-Oct2026-FUT", "2026-10-27 14:30:00", "75.0", "0.1", "FUTIDX"]]

/-- The id that the master itself gives is not found. -/
theorem resolve_spec_october :
    let master := create [october]
    let c : Contract := ⟨"NIFTY-Oct2026-FUT", "NIFTY OCT FUT", "NIFTY", "NFO", ⟨2026, 10, 27⟩, 75, 1 / 10, some 35001, "FUTIDX"⟩
    c ∈ all master ∧ (resolve master c.contractId = some c ↔ upper c.contractId = c.contractId) ∧
      upper c.contractId ≠ c.contractId := by
  intro master c
  have hc : c ∈ all master := by decide +kernel
  have hfull : c.contractId.toList.all (fun ch => !isSpace ch) = true := by decide +kernel
  have hspace (ch : Char) (hch : ch ∈ c.contractId.toList) : isSpace ch = false := by
    simpa using List.all_eq_true.mp hfull ch hch
  exact ⟨hc, (resolve_spec [october] hc).2.1 hspace, by decide +kernel⟩

end Lookups

section FrontMonth
variable {c : Contract}

theorem pairwise_contracts (dumps : List (List Row)) (root : String) :
    (contracts (create dumps) root).Pairwise fun a b => a.expiry.key ≤ b.expiry.key := by
  rw [contracts, Dict.getD]
  cases h : (create dumps).get (upper root) with
  | none => exact List.Pairwise.nil
  | some cs => exact (wellFormed_of_create dumps).sorted _ cs h

private theorem le_of_head {cs : List Contract} (h : cs.Pairwise fun a b => a.expiry.key ≤ b.expiry.key)
    (hc : cs.head? = some c) : ∀ c' ∈ cs, c.expiry.key ≤ c'.expiry.key := by
  cases cs with
  | nil => cases hc
  | cons a cs =>
    obtain rfl := Option.some.inj hc
    intro c' hc'
    rcases List.mem_cons.mp hc' with rfl | hc'
    · exact le_rfl
    · exact List.rel_of_pairwise_cons h hc'

/-- The front month is the next contract of a root to expire; where all of them have, it is the one that expired
first. -/
theorem frontMonth_spec (dumps : List (List Row)) (root : String) (today : CalendarDate) :
    (frontMonth (create dumps) root today = none ↔ contracts (create dumps) root = []) ∧
      ∀ c, frontMonth (create dumps) root today = some c → c ∈ contracts (create dumps) root ∧
        ((today.key ≤ c.expiry.key ∧
            ∀ c' ∈ contracts (create dumps) root, today.key ≤ c'.expiry.key → c.expiry.key ≤ c'.expiry.key) ∨
          ∀ c' ∈ contracts (create dumps) root, c'.expiry.key < today.key ∧ c.expiry.key ≤ c'.expiry.key) := by
  have hsorted := pairwise_contracts dumps root
  rw [frontMonth]
  cases hactive : (contracts (create dumps) root).filter fun c => today.key ≤ c.expiry.key with
  | nil =>
    dsimp only
    refine ⟨List.head?_eq_none_iff, fun c hc => ⟨List.mem_of_head? hc, .inr fun c' hc' => ⟨?_, le_of_head hsorted hc c' hc'⟩⟩⟩
    have hnot := List.filter_eq_nil_iff.mp hactive c' hc'
    exact not_le.mp (by simpa using hnot)
  | cons c rest =>
    have hmem : c ∈ (contracts (create dumps) root).filter fun c => today.key ≤ c.expiry.key := by
      rw [hactive]
      exact List.mem_cons_self
    obtain ⟨hc, hday⟩ := List.mem_filter.mp hmem
    dsimp only
    refine ⟨iff_of_false (by simp) (List.ne_nil_of_mem hc), fun c' hc' => ?_⟩
    obtain rfl := Option.some.inj hc'
    refine ⟨hc, .inl ⟨of_decide_eq_true hday, fun c' hc' hday' => ?_⟩⟩
    have hfilter := hsorted.filter fun c => today.key ≤ c.expiry.key
    exact le_of_head hfilter (by rw [hactive]; rfl) c' (List.mem_filter.mpr ⟨hc', decide_eq_true hday'⟩)

end FrontMonth
end NTrade.Api.FuturesMaster
