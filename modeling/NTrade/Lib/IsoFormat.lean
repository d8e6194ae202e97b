import NTrade.Lib.JsonText
import Mathlib.Tactic.Ring

/-! Points in time and their ISO 8601 text. What reads such texts may accept more of them from
one release to the next; it inverts `isoformat` in each. -/
namespace NTrade.Lib
open Json (digit digitVal digitVal_digit)

structure Fields where
  year : Nat
  month : Nat
  day : Nat
  hour : Nat := 0
  minute : Nat := 0
  second : Nat := 0
  microsecond : Nat := 0
  /-- Whether the clock is behind UTC, and by how many microseconds it is off; `none` for a naive
  time. -/
  offset : Option (Bool × Nat) := none
  deriving DecidableEq, Repr

namespace Fields

def daysInMonth (year month : Nat) : Nat :=
  if month = 2 then if year % 4 = 0 ∧ (year % 100 ≠ 0 ∨ year % 400 = 0) then 29 else 28
  else if month = 4 ∨ month = 6 ∨ month = 9 ∨ month = 11 then 30
  else 31

def ValidOffset (o : Bool × Nat) : Prop := o.2 < 24 * 60 * 60 * 1000000 ∧ (o.1 = true → o.2 ≠ 0)

instance (o : Bool × Nat) : Decidable (ValidOffset o) := inferInstanceAs (Decidable (_ ∧ _))

def Valid (f : Fields) : Prop :=
  (1 ≤ f.year ∧ f.year ≤ 9999) ∧ (1 ≤ f.month ∧ f.month ≤ 12) ∧ (1 ≤ f.day ∧ f.day ≤ daysInMonth f.year f.month) ∧
    f.hour < 24 ∧ f.minute < 60 ∧ f.second < 60 ∧ f.microsecond < 1000000 ∧ ∀ o ∈ f.offset, ValidOffset o

instance (f : Fields) : Decidable f.Valid := inferInstanceAs (Decidable (_ ∧ _))

end Fields

structure DateTime where
  fields : Fields
  valid : fields.Valid
  deriving DecidableEq

namespace DateTime

section Text

def pad : Nat → Nat → List Char
  | 0, _ => []
  | w + 1, n => digit (Fin.ofNat 10 (n / 10 ^ w)) :: pad w n

def fractionText (microsecond : Nat) : List Char := if microsecond = 0 then [] else '.' :: pad 6 microsecond

def offsetText : Option (Bool × Nat) → List Char
  | none => []
  | some (negative, us) =>
    (if negative then '-' else '+') :: (pad 2 (us / 3600000000) ++ ':' :: (pad 2 (us / 60000000 % 60) ++
      if us / 1000000 % 60 = 0 ∧ us % 1000000 = 0 then [] else
        ':' :: (pad 2 (us / 1000000 % 60) ++ fractionText (us % 1000000))))

def isoformat (d : DateTime) : String :=
  String.ofList (pad 4 d.fields.year ++ '-' :: (pad 2 d.fields.month ++ '-' :: (pad 2 d.fields.day ++ 'T' ::
    (pad 2 d.fields.hour ++ ':' :: (pad 2 d.fields.minute ++ ':' :: (pad 2 d.fields.second ++
      (fractionText d.fields.microsecond ++ offsetText d.fields.offset)))))))

end Text

section Parser

def takeDigits : Nat → Nat → List Char → Option (Nat × List Char)
  | 0, n, cs => some (n, cs)
  | _ + 1, _, [] => none
  | w + 1, n, c :: cs =>
    match digitVal c with
    | none => none
    | some d => takeDigits w (10 * n + d.val) cs

def takeAfter (sign : Char) (w : Nat) : List Char → Option (Option Nat × List Char)
  | [] => some (none, [])
  | c :: cs => if c = sign then (takeDigits w 0 cs).map fun r => (some r.1, r.2) else some (none, c :: cs)

/-- `[.fff[fff]]` -/
def takeFraction : List Char → Option (Nat × List Char)
  | [] => some (0, [])
  | c :: cs =>
    if c = '.' then
      match takeDigits 6 0 cs with
      | some r => some r
      | none => (takeDigits 3 0 cs).map fun r => (r.1 * 1000, r.2)
    else some (0, c :: cs)

/-- `[:SS[.fff[fff]]]` -/
def takeSeconds (cs : List Char) : Option ((Nat × Nat) × List Char) :=
  match takeAfter ':' 2 cs with
  | none => none
  | some (none, rest) => some ((0, 0), rest)
  | some (some second, rest) => (takeFraction rest).map fun r => ((second, r.1), r.2)

/-- `HH[:MM[:SS[.fff[fff]]]]` -/
def takeClock (cs : List Char) : Option ((Nat × Nat × Nat × Nat) × List Char) :=
  match takeDigits 2 0 cs with
  | none => none
  | some (hour, rest) =>
    match takeAfter ':' 2 rest with
    | none => none
    | some (none, rest) => some ((hour, 0, 0, 0), rest)
    | some (some minute, rest) => (takeSeconds rest).map fun r => ((hour, minute, r.1.1, r.1.2), r.2)

/-- `[+HH:MM[:SS[.ffffff]]]`, to the end. -/
def takeOffset : List Char → Option (Option (Bool × Nat))
  | [] => some none
  | c :: cs =>
    if c = '+' ∨ c = '-' then
      match takeDigits 2 0 cs with
      | none => none
      | some (hour, rest) =>
        match takeAfter ':' 2 rest with
        | some (some minute, rest) =>
          match takeSeconds rest with
          | some ((second, microsecond), []) =>
            let us := ((hour * 60 + minute) * 60 + second) * 1000000 + microsecond
            some (some (c = '-' && us ≠ 0, us))
          | _ => none
        | _ => none
    else none

def takeDate (cs : List Char) : Option ((Nat × Nat × Nat) × List Char) :=
  match takeDigits 4 0 cs with
  | none => none
  | some (year, rest) =>
    match takeAfter '-' 2 rest with
    | some (some month, rest) =>
      match takeAfter '-' 2 rest with
      | some (some day, rest) => some ((year, month, day), rest)
      | _ => none
    | _ => none

def ofFields (f : Fields) : Option DateTime := if h : f.Valid then some ⟨f, h⟩ else none

/-- `YYYY-MM-DD[*HH[:MM[:SS[.fff[fff]]]][+HH:MM[:SS[.ffffff]]]]`, where `*` is any character. -/
def fromisoformat (s : String) : Option DateTime :=
  match takeDate s.toList with
  | none => none
  | some ((year, month, day), []) => ofFields { year, month, day }
  | some ((year, month, day), _ :: cs) =>
    match takeClock cs with
    | none => none
    | some ((hour, minute, second, microsecond), rest) =>
      match takeOffset rest with
      | none => none
      | some offset => ofFields { year, month, day, hour, minute, second, microsecond, offset }

end Parser

section Inverse

theorem takeDigits_pad (w acc n : Nat) (rest : List Char) :
    takeDigits w acc (pad w n ++ rest) = some (acc * 10 ^ w + n % 10 ^ w, rest) := by
  induction w generalizing acc with
  | zero => simp [takeDigits, pad, Nat.mod_one]
  | succ w ih =>
    rw [pad, List.cons_append, takeDigits, digitVal_digit]
    dsimp only
    rw [ih, Fin.val_ofNat, Nat.mod_pow_succ]
    congr 2
    ring

theorem takeDigits_pad_of_lt {w n : Nat} (h : n < 10 ^ w) (rest : List Char) :
    takeDigits w 0 (pad w n ++ rest) = some (n, rest) := by
  rw [takeDigits_pad, Nat.zero_mul, Nat.zero_add, Nat.mod_eq_of_lt h]

private theorem takeAfter_pad {sign : Char} {w n : Nat} (h : n < 10 ^ w) (rest : List Char) :
    takeAfter sign w (sign :: (pad w n ++ rest)) = some (some n, rest) := by
  rw [takeAfter, if_pos rfl, takeDigits_pad_of_lt h]
  rfl

private def Follows (rest : List Char) : Prop := ∀ c ∈ rest.head?, c = '+' ∨ c = '-'

private theorem follows_offsetText (o : Option (Bool × Nat)) : Follows (offsetText o) := by
  intro c hc
  rcases o with _ | ⟨negative, us⟩
  · cases hc
  · cases negative with
    | false => exact .inl (Option.some.inj hc).symm
    | true => exact .inr (Option.some.inj hc).symm

private theorem follows_nil : Follows [] := fun _ h => nomatch h

private theorem takeFraction_text {us : Nat} (h : us < 1000000) {rest : List Char} (hr : Follows rest) :
    takeFraction (fractionText us ++ rest) = some (us, rest) := by
  rw [fractionText]
  split
  · next hz =>
    subst hz
    cases rest with
    | nil => rfl
    | cons c cs =>
      rcases hr c rfl with rfl | rfl <;> rfl
  · rw [List.cons_append, takeFraction, if_pos rfl, takeDigits_pad_of_lt h]

private theorem takeSeconds_text {second us : Nat} (hs : second < 60) (h : us < 1000000) {rest : List Char}
    (hr : Follows rest) :
    takeSeconds (':' :: (pad 2 second ++ (fractionText us ++ rest))) = some ((second, us), rest) := by
  rw [takeSeconds, takeAfter_pad (Nat.lt_trans hs (by decide))]
  dsimp only
  rw [takeFraction_text h hr]
  rfl

private theorem takeClock_text {hour minute second us : Nat} (hh : hour < 24) (hm : minute < 60) (hs : second < 60)
    (h : us < 1000000) {rest : List Char} (hr : Follows rest) :
    takeClock (pad 2 hour ++ ':' :: (pad 2 minute ++ ':' :: (pad 2 second ++ (fractionText us ++ rest)))) =
      some ((hour, minute, second, us), rest) := by
  rw [takeClock, takeDigits_pad_of_lt (Nat.lt_trans hh (by decide))]
  dsimp only
  rw [takeAfter_pad (Nat.lt_trans hm (by decide))]
  dsimp only
  rw [takeSeconds_text hs h hr]
  rfl

private theorem takeOffset_text (o : Option (Bool × Nat)) (h : ∀ x ∈ o, Fields.ValidOffset x) :
    takeOffset (offsetText o) = some o := by
  rcases o with _ | ⟨negative, us⟩
  · rfl
  · obtain ⟨hus, hneg⟩ := h _ rfl
    dsimp only at hus hneg
    have hh : us / 3600000000 < 10 ^ 2 := by omega
    have hm : us / 60000000 % 60 < 10 ^ 2 := by omega
    have hsum : ((us / 3600000000 * 60 + us / 60000000 % 60) * 60 + us / 1000000 % 60) * 1000000 + us % 1000000 = us := by
      omega
    have hsec : takeSeconds (if us / 1000000 % 60 = 0 ∧ us % 1000000 = 0 then [] else
        ':' :: (pad 2 (us / 1000000 % 60) ++ fractionText (us % 1000000))) =
        some ((us / 1000000 % 60, us % 1000000), []) := by
      split
      · next hz =>
        rw [hz.1, hz.2]
        rfl
      · have hs : us / 1000000 % 60 < 60 := Nat.mod_lt _ (by decide)
        have hf : us % 1000000 < 1000000 := Nat.mod_lt _ (by decide)
        have ht := takeSeconds_text hs hf follows_nil
        rwa [List.append_nil] at ht
    have hbody (c : Char) (hc : c = '+' ∨ c = '-') : takeOffset (c :: (pad 2 (us / 3600000000) ++ ':' ::
        (pad 2 (us / 60000000 % 60) ++ if us / 1000000 % 60 = 0 ∧ us % 1000000 = 0 then [] else
          ':' :: (pad 2 (us / 1000000 % 60) ++ fractionText (us % 1000000))))) =
        some (some (c = '-' && us ≠ 0, us)) := by
      rw [takeOffset, if_pos hc, takeDigits_pad_of_lt hh]
      dsimp only
      rw [takeAfter_pad hm]
      dsimp only
      rw [hsec]
      dsimp only
      rw [hsum]
    cases negative with
    | false => exact hbody '+' (.inl rfl)
    | true =>
      refine (hbody '-' (.inr rfl)).trans ?_
      simp [hneg rfl]

/-- The text of a point in time is read as that point. -/
theorem fromisoformat_isoformat (d : DateTime) : fromisoformat d.isoformat = some d := by
  obtain ⟨f, hv⟩ := d
  obtain ⟨hy, hmo, hd, hh, hm, hs, hus, ho⟩ := id hv
  have hday : f.day < 10 ^ 2 := by
    have hl : Fields.daysInMonth f.year f.month ≤ 31 := by
      rw [Fields.daysInMonth]
      split_ifs <;> decide
    omega
  have hdate (rest : List Char) : takeDate (pad 4 f.year ++ '-' :: (pad 2 f.month ++ '-' :: (pad 2 f.day ++ rest))) =
      some ((f.year, f.month, f.day), rest) := by
    rw [takeDate, takeDigits_pad_of_lt (by omega)]
    dsimp only
    rw [takeAfter_pad (by omega)]
    dsimp only
    rw [takeAfter_pad hday]
  rw [fromisoformat, isoformat, String.toList_ofList, hdate]
  dsimp only
  rw [takeClock_text hh hm hs hus (follows_offsetText _)]
  dsimp only
  rw [takeOffset_text _ ho]
  dsimp only
  rw [ofFields, dif_pos hv]

end Inverse

end DateTime

/-- What reads a text as a point in time; it reads every text that `isoformat` writes. -/
structure IsoParser where
  fromisoformat : String → Option DateTime
  inverse : ∀ d : DateTime, fromisoformat d.isoformat = some d

/-- The texts of Python 3.10. -/
def IsoParser.python310 : IsoParser := ⟨DateTime.fromisoformat, DateTime.fromisoformat_isoformat⟩

end NTrade.Lib
