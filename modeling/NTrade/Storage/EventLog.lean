import NTrade.Storage.Codec
import NTrade.Lib.JsonCut
import Mathlib.Data.List.DropRight

/-! The log file of an event store: one line for each event, appended after the event is in
memory. A crash leaves part of the last line; the next line is written right behind it. -/
namespace NTrade.Storage
open NTrade.Lib

section Store

structure Log where
  events : List PyValue := []
  file : List Char := []

def lineOf (j : Json) : List Char := Json.text j ++ ['\n']

/-- `append`, and whether it raised. `failed` is a write that raised with so many characters of
the line in the file. -/
def append (failed : Option Nat) (log : Log) (e : Recorded) : Log × Bool :=
  let log := { log with events := log.events ++ [e.toPy] }
  match toJson (encode e.toPy), failed with
  | none, _ => (log, true)
  | some j, none => ({ log with file := log.file ++ lineOf j }, false)
  | some j, some n => ({ log with file := log.file ++ (lineOf j).take n }, true)

def isSpace (c : Char) : Bool :=
  (9 ≤ c.toNat && c.toNat ≤ 13) || (28 ≤ c.toNat && c.toNat ≤ 32) || c.toNat = 0x85 || c.toNat = 0xA0 ||
    c.toNat = 0x1680 || (0x2000 ≤ c.toNat && c.toNat ≤ 0x200A) || c.toNat = 0x2028 || c.toNat = 0x2029 ||
    c.toNat = 0x202F || c.toNat = 0x205F || c.toNat = 0x3000

def strip (cs : List Char) : List Char := (cs.dropWhile isSpace).rdropWhile isSpace

/-- The lines of a file opened as text; blank ones between `\r` and `\n` are skipped like any. -/
def lines (file : List Char) : List (List Char) := file.splitOnP fun c => c = '\n' ∨ c = '\r'

variable (iso : IsoParser) (uuid : String)

/-- What one line adds to the events; `none` is an exception. Blank lines, lines that are no JSON
and events of unknown classes add nothing. -/
def loadLine (line : List Char) : Option (List PyValue) :=
  match strip line with
  | [] => some []
  | c :: cs =>
    match Json.parse (c :: cs) with
    | none => some []
    | some data =>
      match decode iso uuid data with
      | none => none
      | some .none => some []
      | some v => some [v]

def loadLines : List (List Char) → Option (List PyValue)
  | [] => some []
  | line :: rest =>
    match loadLine iso uuid line, loadLines rest with
    | some events, some more => some (events ++ more)
    | _, _ => none

def load (file : List Char) : Option Log := (loadLines iso uuid (lines file)).map fun events => { events, file }

end Store

section Entry

/-- An event that `append` can write, with its members in the log. -/
structure Entry extends Recorded where
  members : List (String × Json)
  encodes : toJsonEntries (encodeFields fields) = some members

namespace Entry

def json (e : Entry) : Json := .obj (("__type__", .str e.cls.name) :: e.members)

def text (e : Entry) : List Char := Json.text e.json

theorem toJson_eq (e : Entry) : toJson (encode e.toPy) = some e.json := by
  rw [Recorded.toPy, encode, toJson, toJsonEntries, keyText, toJson, e.encodes]
  rfl

/-- The text of an entry starts with its tag. -/
theorem text_eq (e : Entry) : ∃ rest, e.text = '{' :: '"' :: '_' :: rest := by
  have hq : Json.quoted "__type__" = '"' :: '_' :: (Json.quoted "__type__").tail.tail := by decide +kernel
  rw [text, json, Json.text, hq]
  exact ⟨_, rfl⟩

theorem text_concat (e : Entry) : ∃ body, e.text = body ++ ['}'] := Json.text_obj_concat _

theorem text_ne_nil (e : Entry) : e.text ≠ [] := by
  obtain ⟨rest, h⟩ := e.text_eq
  rw [h]
  exact List.cons_ne_nil _ _

def line (e : Entry) : List Char := lineOf e.json

theorem length_line (e : Entry) : e.line.length = e.text.length + 1 := List.length_append

theorem take_line (e : Entry) {cut : Nat} (h : cut ≤ e.text.length) : e.line.take cut = e.text.take cut :=
  List.take_append_of_le_length h

/-- An entry is one line. -/
theorem no_newline (e : Entry) : ∀ c ∈ e.text, decide (c = '\n' ∨ c = '\r') = false := by
  intro c hc
  have hp := Json.printable_text _ c hc
  rw [decide_eq_false_iff_not]
  rintro (rfl | rfl)
  · exact absurd hp (by decide)
  · exact absurd hp (by decide)

end Entry

end Entry

section Lines
variable (iso : IsoParser) (uuid : String)

/-- What an object leaves of white space around it. -/
private theorem strip_object {t body : List Char} (h : '{' :: t = body ++ ['}']) : strip ('{' :: t) = '{' :: t := by
  rw [strip, List.dropWhile_cons_of_neg (by decide), h, List.rdropWhile_concat_neg _ _ _ (by decide)]

private theorem strip_cut {t : List Char} : ∃ q, strip ('{' :: t) = '{' :: q ∧ '{' :: q <+: '{' :: t := by
  have hs : strip ('{' :: t) = ('{' :: t).rdropWhile isSpace := by
    rw [strip, List.dropWhile_cons_of_neg (by decide)]
  have hp : ('{' :: t).rdropWhile isSpace <+: '{' :: t := List.rdropWhile_prefix _ _
  rcases List.prefix_cons_iff.mp hp with hn | ⟨q, hq, -⟩
  · have hall := List.rdropWhile_eq_nil_iff.mp hn '{' (List.mem_cons_self ..)
    exact absurd hall (by decide)
  · rw [hs, hq]
    rw [hq] at hp
    exact ⟨q, rfl, hp⟩

private theorem loadLine_of_parse {line : List Char} {c : Char} {cs : List Char} (hs : strip line = c :: cs)
    (hp : Json.parse (c :: cs) = none) : loadLine iso uuid line = some [] := by
  rw [loadLine, hs]
  dsimp only
  rw [hp]

/-- A torn line is skipped. -/
theorem loadLine_torn (e : Entry) {p : List Char} (hp : p <+: e.text) (hne : p ≠ e.text) :
    loadLine iso uuid p = some [] := by
  obtain ⟨rest, htext⟩ := e.text_eq
  cases p with
  | nil => rfl
  | cons c p =>
    have hc : c = '{' := by
      rw [htext] at hp
      exact (List.cons_prefix_cons.mp hp).1
    subst hc
    obtain ⟨q, hs, hq⟩ := strip_cut (t := p)
    refine loadLine_of_parse iso uuid hs ?_
    refine Json.parse_cut (hq.trans hp) (List.cons_ne_nil _ _) ?_
    intro he
    have hlen := hq.length_le
    rw [he] at hlen
    exact hne (hp.eq_of_length_le hlen)

/-- What is written behind a torn line, or behind a line without its end, is skipped with it. -/
theorem loadLine_joined (e f : Entry) {p : List Char} (hp : p <+: e.text) (hn : p ≠ []) :
    loadLine iso uuid (p ++ f.text) = some [] := by
  obtain ⟨rest, htext⟩ := f.text_eq
  obtain ⟨body, hbody⟩ := f.text_concat
  obtain ⟨rest', htext'⟩ := e.text_eq
  have hparse : Json.parse (p ++ f.text) = none := by
    by_cases he : p = e.text
    · rw [he, htext]
      exact Json.parse_text_append _ (by unfold Json.Leads; decide) (by decide) _
    · exact Json.parse_cut_append hp hn he htext
  cases p with
  | nil => exact absurd rfl hn
  | cons c p =>
    have hc : c = '{' := by
      rw [htext'] at hp
      exact (List.cons_prefix_cons.mp hp).1
    subst hc
    have hends : '{' :: (p ++ f.text) = '{' :: (p ++ body) ++ ['}'] := by
      rw [hbody, List.cons_append, List.append_assoc]
    exact loadLine_of_parse iso uuid (strip_object hends) hparse

/-- A whole line is decoded. -/
theorem loadLine_text (e : Entry) :
    loadLine iso uuid e.text =
      match roundTrip iso uuid e.toPy with
      | none => none
      | some .none => some []
      | some v => some [v] := by
  obtain ⟨rest, htext⟩ := e.text_eq
  obtain ⟨body, hbody⟩ := e.text_concat
  have hs : strip e.text = e.text := by
    rw [htext] at hbody ⊢
    exact strip_object hbody
  have hparse : Json.parse e.text = some (Json.normalize e.json) := by
    have hl := Json.loads_dumps e.json
    rwa [Json.loads, Json.dumps, String.toList_ofList] at hl
  rw [roundTrip, e.toJson_eq]
  dsimp only
  rw [Json.loads_dumps, loadLine, hs]
  rw [htext] at hparse ⊢
  dsimp only
  rw [hparse]

theorem loadLine_text_iff (e : Entry) : loadLine iso uuid e.text = some [e.toPy] ↔ Preserved iso e.toPy := by
  rw [← survives_iff iso uuid _ e.wellFormed_toPy, ← roundTrip_eq_survives, loadLine_text]
  split
  · next h =>
    rw [h]
    exact iff_of_false nofun nofun
  · next h =>
    rw [h]
    exact iff_of_false (nofun) (fun he => nomatch Option.some.inj he)
  · next v _ h =>
    rw [h, Option.some.injEq, Option.some.injEq, List.cons.injEq, and_iff_left rfl]

theorem loadLine_length {line : List Char} {events : List PyValue} (h : loadLine iso uuid line = some events) :
    events.length ≤ 1 := by
  rw [loadLine] at h
  split at h
  · cases h
    exact Nat.zero_le 1
  · split at h
    · cases h
      exact Nat.zero_le 1
    · split at h
      · cases h
      · cases h
        exact Nat.zero_le 1
      · cases h
        exact Nat.le_refl 1

theorem loadLines_append (ls ls' : List (List Char)) :
    loadLines iso uuid (ls ++ ls') =
      match loadLines iso uuid ls, loadLines iso uuid ls' with
      | some events, some more => some (events ++ more)
      | _, _ => none := by
  induction ls with
  | nil =>
    rw [List.nil_append, loadLines]
    cases loadLines iso uuid ls' <;> rfl
  | cons l ls ih =>
    rw [List.cons_append, loadLines, loadLines, ih]
    cases loadLine iso uuid l with
    | none => rfl
    | some a =>
      cases loadLines iso uuid ls with
      | none => rfl
      | some b =>
        cases loadLines iso uuid ls' with
        | none => rfl
        | some c => simp

/-- A line that adds nothing can be left out. -/
theorem loadLines_skip {line : List Char} (h : loadLine iso uuid line = some []) (ls ls' : List (List Char)) :
    loadLines iso uuid (ls ++ line :: ls') = loadLines iso uuid (ls ++ ls') := by
  have hl : loadLines iso uuid (line :: ls') = loadLines iso uuid ls' := by
    rw [loadLines, h]
    cases loadLines iso uuid ls' <;> rfl
  rw [loadLines_append, hl, ← loadLines_append]

theorem loadLines_length {ls : List (List Char)} {events : List PyValue} (h : loadLines iso uuid ls = some events) :
    events.length ≤ ls.length := by
  induction ls generalizing events with
  | nil =>
    cases h
    exact Nat.le_refl 0
  | cons l ls ih =>
    rw [loadLines] at h
    split at h
    · next a b ha hb =>
      cases h
      have hone := loadLine_length iso uuid ha
      have hrest := ih hb
      rw [List.length_append, List.length_cons]
      omega
    · cases h

/-- A log of whole lines is read as the events it was written for exactly where the codec
preserves each of them. -/
theorem loadLines_texts_iff (es : List Entry) :
    loadLines iso uuid (es.map Entry.text) = some (es.map fun e => e.toPy) ↔ ∀ e ∈ es, Preserved iso e.toPy := by
  induction es with
  | nil => exact iff_of_true rfl fun _ h => absurd h List.not_mem_nil
  | cons e es ih =>
    rw [List.forall_mem_cons, ← ih, ← loadLine_text_iff iso uuid, List.map_cons, List.map_cons, loadLines]
    constructor
    · intro h
      split at h
      · next a b ha hb =>
        have hlen := congrArg List.length (Option.some.inj h)
        have hone := loadLine_length iso uuid ha
        have hrest := loadLines_length iso uuid hb
        rw [List.length_append, List.length_cons, List.length_map] at hlen
        rw [List.length_map] at hrest
        match a, hone, h with
        | [], _, _ =>
          rw [List.length_nil] at hlen
          omega
        | [v], _, h =>
          obtain ⟨rfl, rfl⟩ := List.cons.inj (Option.some.inj h)
          exact ⟨ha, hb⟩
      · cases h
    · rintro ⟨ha, hb⟩
      rw [ha, hb]
      rfl

end Lines

section Crash
variable (iso : IsoParser) (uuid : String)

def appendAll (log : Log) (es : List Entry) : Log := es.foldl (fun log e => (append none log e.toRecorded).1) log

def afterCrash (es : List Entry) (last : Entry) (cut : Nat) : List Char :=
  (append (some cut) (appendAll {} es) last.toRecorded).1.file

def reloaded (es : List Entry) (last : Entry) (cut : Nat) (fs : List Entry) : Option (List PyValue) :=
  match load iso uuid (afterCrash es last cut) with
  | none => none
  | some log => (load iso uuid (appendAll log fs).file).map Log.events

def written (es : List Entry) (last : Entry) (cut : Nat) : List Entry :=
  if last.text.length ≤ cut then es ++ [last] else es

private def file (es : List Entry) : List Char := (es.map Entry.line).flatten

private theorem file_append (es fs : List Entry) : file (es ++ fs) = file es ++ file fs := by
  rw [file, List.map_append, List.flatten_append]
  rfl

private theorem appendAll_file (log : Log) (es : List Entry) : (appendAll log es).file = log.file ++ file es := by
  induction es generalizing log with
  | nil => exact (List.append_nil _).symm
  | cons e es ih =>
    have hstep : (append none log e.toRecorded).1.file = log.file ++ e.line := by
      simp only [append, e.toJson_eq]
      rfl
    rw [appendAll, List.foldl_cons]
    refine (ih _).trans ?_
    rw [hstep, List.append_assoc]
    rfl

private theorem afterCrash_eq (es : List Entry) (last : Entry) (cut : Nat) :
    afterCrash es last cut = file es ++ last.line.take cut := by
  simp only [afterCrash, append, last.toJson_eq]
  exact congrArg (· ++ last.line.take cut) (appendAll_file {} es)

private theorem lines_file (es : List Entry) (tail : List Char) :
    lines (file es ++ tail) = es.map Entry.text ++ lines tail := by
  induction es with
  | nil => rfl
  | cons e es ih =>
    have hl : file (e :: es) ++ tail = e.text ++ '\n' :: (file es ++ tail) := by
      simp [file, Entry.line, lineOf, Entry.text]
    rw [hl, lines, List.splitOnP_append_cons_of_forall_mem e.no_newline '\n' (by decide)]
    exact congrArg (e.text :: ·) ih

private theorem lines_cut (e : Entry) {p : List Char} (hp : p <+: e.text) : lines p = [p] :=
  List.splitOnP_eq_singleton fun c hc => e.no_newline c (hp.subset hc)

private theorem lines_joined (e f : Entry) (fs : List Entry) {p : List Char} (hp : p <+: e.text) :
    lines (p ++ file (f :: fs)) = (p ++ f.text) :: fs.map Entry.text ++ [[]] := by
  have hl : p ++ file (f :: fs) = (p ++ f.text) ++ '\n' :: (file fs ++ []) := by
    simp [file, Entry.line, lineOf, Entry.text]
  have hn : ∀ c ∈ p ++ f.text, decide (c = '\n' ∨ c = '\r') = false :=
    List.forall_mem_append.mpr ⟨fun c hc => e.no_newline c (hp.subset hc), f.no_newline⟩
  rw [hl, lines, List.splitOnP_append_cons_of_forall_mem hn '\n' (by decide)]
  exact congrArg ((p ++ f.text) :: ·) (lines_file fs [])

/-- A log of whole lines. -/
private theorem loadLines_file_iff (es : List Entry) :
    loadLines iso uuid (lines (file es)) = some (es.map fun e => e.toPy) ↔ ∀ e ∈ es, Preserved iso e.toPy := by
  have hl : lines (file es) = es.map Entry.text ++ [[]] := by
    rw [← List.append_nil (file es), lines_file]
    rfl
  rw [hl, loadLines_skip iso uuid rfl, List.append_nil, loadLines_texts_iff]

/-- The log as the crash left it. -/
private theorem loadLines_afterCrash_iff (es : List Entry) (last : Entry) (cut : Nat) :
    loadLines iso uuid (lines (afterCrash es last cut)) = some ((written es last cut).map fun e => e.toPy) ↔
      ∀ e ∈ written es last cut, Preserved iso e.toPy := by
  rw [afterCrash_eq, written]
  by_cases hline : last.line.length ≤ cut
  · have hlen := last.length_line
    have hfile : file es ++ last.line.take cut = file (es ++ [last]) := by
      rw [List.take_of_length_le hline, file_append]
      simp [file]
    rw [hfile, if_pos (by omega)]
    exact loadLines_file_iff iso uuid (es ++ [last])
  · have hlen := last.length_line
    have htake := last.take_line (by omega : cut ≤ last.text.length)
    have hp : last.text.take cut <+: last.text := List.take_prefix _ _
    rw [htake, lines_file, lines_cut last hp]
    split
    · next h =>
      have hm : es.map Entry.text ++ [last.text] = (es ++ [last]).map Entry.text := by
        rw [List.map_append]
        rfl
      rw [List.take_of_length_le h, hm, loadLines_texts_iff]
    · next h =>
      have hne : last.text.take cut ≠ last.text := by
        intro he
        have hl := congrArg List.length he
        rw [List.length_take] at hl
        omega
      rw [loadLines_skip iso uuid (loadLine_torn iso uuid last hp hne), List.append_nil, loadLines_texts_iff]

/-- The log as the appends after the crash left it, where the crash left nothing of a line or all
of it. -/
private theorem file_of_clean (es : List Entry) (last : Entry) {cut : Nat} (h : cut = 0 ∨ last.line.length ≤ cut)
    (fs : List Entry) : afterCrash es last cut ++ file fs = file (written es last cut ++ fs) := by
  have hlen := last.length_line
  rw [afterCrash_eq, file_append, written]
  rcases h with rfl | h
  · have hpos := List.length_pos_of_ne_nil last.text_ne_nil
    rw [if_neg (by omega), List.take_zero, List.append_nil]
  · rw [if_pos (by omega), List.take_of_length_le h, file_append]
    simp [file]

/-- Where it left a part of a line, the first event after the crash is lost with that part. -/
private theorem loadLines_joined (es : List Entry) (last : Entry) {cut : Nat} (h : cut ≠ 0) (h' : cut < last.line.length)
    (f : Entry) (fs : List Entry) :
    loadLines iso uuid (lines (afterCrash es last cut ++ file (f :: fs))) =
      loadLines iso uuid (es.map Entry.text ++ fs.map Entry.text) := by
  have hlen := last.length_line
  have hp : last.text.take cut <+: last.text := List.take_prefix _ _
  have hne : last.text.take cut ≠ [] := by
    intro he
    rcases List.take_eq_nil_iff.mp he with hc | ht
    · exact h hc
    · exact last.text_ne_nil ht
  have htake := last.take_line (by omega : cut ≤ last.text.length)
  rw [afterCrash_eq, htake, List.append_assoc, lines_file, lines_joined last f fs hp, List.cons_append,
    loadLines_skip iso uuid (loadLine_joined iso uuid last f hp hne), ← List.append_assoc,
    loadLines_skip iso uuid rfl, List.append_nil]

private theorem reloaded_eq (es : List Entry) (last : Entry) (cut : Nat) (fs : List Entry) :
    reloaded iso uuid es last cut fs =
      match loadLines iso uuid (lines (afterCrash es last cut)) with
      | none => none
      | some _ => loadLines iso uuid (lines (afterCrash es last cut ++ file fs)) := by
  rw [reloaded, load]
  cases loadLines iso uuid (lines (afterCrash es last cut)) with
  | none => rfl
  | some events =>
    dsimp only [Option.map_some]
    rw [load, appendAll_file, Option.map_map]
    exact Option.map_id'

/-- The log read after a crash, further appends and a restart holds what it should exactly where
the codec preserves it all and nothing was written behind a part of a line. -/
theorem reloaded_iff (es : List Entry) (last : Entry) (cut : Nat) (fs : List Entry) :
    reloaded iso uuid es last cut fs = some ((written es last cut ++ fs).map fun e => e.toPy) ↔
      (∀ e ∈ written es last cut ++ fs, Preserved iso e.toPy) ∧ (cut = 0 ∨ last.line.length ≤ cut ∨ fs = []) := by
  have hfirst := loadLines_afterCrash_iff iso uuid es last cut
  rw [reloaded_eq]
  cases fs with
  | nil =>
    rw [show file ([] : List Entry) = [] from rfl, List.append_nil, List.append_nil, ← hfirst]
    rw [and_iff_left (.inr (.inr rfl))]
    cases loadLines iso uuid (lines (afterCrash es last cut)) with
    | none => exact Iff.rfl
    | some events => exact Iff.rfl
  | cons f fs =>
    by_cases hclean : cut = 0 ∨ last.line.length ≤ cut
    · have hc : cut = 0 ∨ last.line.length ≤ cut ∨ f :: fs = [] := by
        rcases hclean with h | h
        · exact .inl h
        · exact .inr (.inl h)
      rw [and_iff_left hc, file_of_clean es last hclean, ← loadLines_file_iff iso uuid]
      constructor
      · intro h
        split at h
        · cases h
        · exact h
      · intro h
        have hall := (loadLines_file_iff iso uuid _).mp h
        rw [hfirst.mpr fun e he => hall e (List.mem_append_left _ he)]
        exact h
    · obtain ⟨hzero, hwhole⟩ := not_or.mp hclean
      refine iff_of_false ?_ ?_
      · intro h
        split at h
        · cases h
        · rw [loadLines_joined iso uuid es last hzero (by omega)] at h
          have hlen := loadLines_length iso uuid h
          have hw : es.length ≤ (written es last cut).length := by
            rw [written]
            split
            · rw [List.length_append]
              omega
            · exact Nat.le_refl _
          simp only [List.length_map, List.length_append, List.length_cons] at hlen
          omega
      · rintro ⟨-, h | h | h⟩
        · exact hzero h
        · exact hwhole h
        · cases h

/-- An append that raises leaves the event in memory. -/
theorem append_raised_iff (failed : Option Nat) (log : Log) (e : Recorded) :
    ((append failed log e).2 = true → (append failed log e).1 = log) ↔
      (toJson (encode e.toPy)).isSome = true ∧ failed = none := by
  have hmem : (append failed log e).1.events = log.events ++ [e.toPy] := by
    rw [append.eq_def]
    dsimp only
    split <;> rfl
  have hne : (append failed log e).1 ≠ log := by
    intro h
    rw [h] at hmem
    have hlen := congrArg List.length hmem
    rw [List.length_append] at hlen
    exact Nat.succ_ne_self _ hlen.symm
  have hraised : (append failed log e).2 = true ↔ ¬((toJson (encode e.toPy)).isSome = true ∧ failed = none) := by
    rw [append.eq_def]
    cases toJson (encode e.toPy) with
    | none => exact iff_of_true rfl fun h => nomatch h.1
    | some j =>
      cases failed with
      | none => exact iff_of_false nofun fun h => h ⟨rfl, rfl⟩
      | some n => exact iff_of_true rfl fun h => nomatch h.2
  constructor
  · intro h
    by_contra hn
    exact hne (h (hraised.mpr hn))
  · intro h hr
    exact absurd h (hraised.mp hr)

/-- The store survives a crash exactly where the codec preserves the events, no later event was
written behind a part of a line, and no append raises. -/
theorem crash_consistent_iff (es : List Entry) (last : Entry) (cut : Nat) (fs : List Entry) (failed : Option Nat)
    (log : Log) (e : Recorded) :
    (reloaded iso uuid es last cut fs = some ((written es last cut ++ fs).map fun e => e.toPy) ∧
        ((append failed log e).2 = true → (append failed log e).1 = log)) ↔
      ((∀ e ∈ written es last cut ++ fs, Preserved iso e.toPy) ∧ (cut = 0 ∨ last.line.length ≤ cut ∨ fs = [])) ∧
        (toJson (encode e.toPy)).isSome = true ∧ failed = none := by
  rw [reloaded_iff, append_raised_iff]

end Crash

section Swallowed

def heartbeat : Entry where
  cls := .heartbeatEvent
  fields := [("ts", .datetime opening), ("event_id", .str "3f2a9c1b7d4e"), ("correlation_id", .none),
    ("causation_id", .none), ("tick_count", .int 1), ("open_orders", .int 0)]
  registered := by simp [EVENT_TYPES]
  named := rfl
  wellFormed := by simp [WellFormedFields, WellFormed, PyValue.int]
  members := [("ts", .str opening.isoformat), ("event_id", .str "3f2a9c1b7d4e"), ("correlation_id", .null),
    ("causation_id", .null), ("tick_count", .num { whole := 1 }), ("open_orders", .num { whole := 0 })]
  encodes := rfl

def watchlist : Recorded where
  cls := .watchlistReady
  fields := [("ts", .datetime opening), ("event_id", .str "3f2a9c1b7d4e"), ("correlation_id", .none),
    ("causation_id", .none), ("results", .tuple [.object "ScannerResult"]), ("strategy", .str "momentum")]
  registered := by simp [EVENT_TYPES]
  named := rfl
  wellFormed := by simp [WellFormedFields, WellFormed, WellFormedItems]

/-- One character of a torn line swallows the heartbeat after it, and so does a whole line without
its end; the watchlist whose append raises stays in memory. -/
theorem torn_tail_swallows_the_next_event :
    reloaded .python310 "c0ffee" [] heartbeat 1 [heartbeat] ≠
        some ((written [] heartbeat 1 ++ [heartbeat]).map fun e => e.toPy) ∧
      reloaded .python310 "c0ffee" [] heartbeat heartbeat.text.length [heartbeat] ≠
        some ((written [] heartbeat heartbeat.text.length ++ [heartbeat]).map fun e => e.toPy) ∧
      (append none {} watchlist).2 = true ∧ (append none {} watchlist).1 ≠ {} := by
  have hlen := heartbeat.length_line
  have hpos := List.length_pos_of_ne_nil heartbeat.text_ne_nil
  refine ⟨?_, ?_, rfl, ?_⟩
  · rw [Ne, reloaded_iff]
    rintro ⟨-, h | h | h⟩
    · cases h
    · omega
    · cases h
  · rw [Ne, reloaded_iff]
    rintro ⟨-, h | h | h⟩
    · omega
    · omega
    · cases h
  · intro h
    cases congrArg (fun log => log.events.length) h

end Swallowed

end NTrade.Storage
