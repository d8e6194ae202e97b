import NTrade.Lib.Dict

/-! JSON values and their text. `dumps` writes ASCII only, `loads` reads the whole of a text:
white space, one value, white space. -/
namespace NTrade.Lib

/-- There are digits. -/
instance ten_neZero : NeZero 10 := ⟨by decide⟩

structure Number where
  negative : Bool := false
  whole : Nat := 0
  fraction : List (Fin 10) := []
  /-- Whether the exponent is negative, and its digits. -/
  exponent : Option (Bool × Fin 10 × List (Fin 10)) := none
  deriving DecidableEq, Repr

inductive Json where
  | null
  | bool (b : Bool)
  | num (n : Number)
  | nan
  | infinite (negative : Bool)
  | str (s : String)
  | arr (items : List Json)
  | obj (members : List (String × Json))

namespace Json

section Text

def digit (d : Fin 10) : Char := Nat.digitChar d

def numberText (n : Number) : List Char :=
  (if n.negative then ['-'] else []) ++ (Nat.toDigits 10 n.whole ++
    ((match n.fraction with
      | [] => []
      | d :: ds => '.' :: (d :: ds).map digit) ++
    match n.exponent with
      | none => []
      | some (negative, d, ds) => 'e' :: (if negative then '-' else '+') :: (d :: ds).map digit))

/-- `\uXXXX` -/
def unicodeEscape (n : Nat) : List Char :=
  ['\\', 'u', Nat.digitChar (n / 4096 % 16), Nat.digitChar (n / 256 % 16), Nat.digitChar (n / 16 % 16),
    Nat.digitChar (n % 16)]

def shortEscapes : List (Char × Char) :=
  [('"', '"'), ('\\', '\\'), ('\n', 'n'), ('\r', 'r'), ('\t', 't'), ('\x08', 'b'), ('\x0c', 'f')]

/-- What is not printable ASCII is escaped, beyond the basic plane as a surrogate pair. -/
def escape (c : Char) : List Char :=
  match shortEscapes.lookup c with
  | some e => ['\\', e]
  | none =>
    if 32 ≤ c.toNat ∧ c.toNat < 127 then [c]
    else if c.toNat < 0x10000 then unicodeEscape c.toNat
    else unicodeEscape (0xD800 + (c.toNat - 0x10000) / 0x400) ++ unicodeEscape (0xDC00 + (c.toNat - 0x10000) % 0x400)

def quoted (s : String) : List Char := '"' :: (s.toList.flatMap escape ++ ['"'])

mutual
def text : Json → List Char
  | .null => ['n', 'u', 'l', 'l']
  | .bool true => ['t', 'r', 'u', 'e']
  | .bool false => ['f', 'a', 'l', 's', 'e']
  | .num n => numberText n
  | .nan => ['N', 'a', 'N']
  | .infinite false => ['I', 'n', 'f', 'i', 'n', 'i', 't', 'y']
  | .infinite true => ['-', 'I', 'n', 'f', 'i', 'n', 'i', 't', 'y']
  | .str s => quoted s
  | .arr [] => ['[', ']']
  | .arr (x :: xs) => '[' :: (text x ++ itemsText xs)
  | .obj [] => ['{', '}']
  | .obj ((k, x) :: ms) => '{' :: (quoted k ++ ':' :: ' ' :: (text x ++ membersText ms))
def itemsText : List Json → List Char
  | [] => [']']
  | x :: xs => ',' :: ' ' :: (text x ++ itemsText xs)
def membersText : List (String × Json) → List Char
  | [] => ['}']
  | (k, x) :: ms => ',' :: ' ' :: (quoted k ++ ':' :: ' ' :: (text x ++ membersText ms))
end

def dumps (j : Json) : String := String.ofList (text j)

end Text

section Parser

def skipWs (cs : List Char) : List Char := cs.dropWhile fun c => c = ' ' ∨ c = '\t' ∨ c = '\n' ∨ c = '\r'

def digitVal (c : Char) : Option (Fin 10) := (List.finRange 10).find? fun d => digit d = c

def hexVal (c : Char) : Option Nat :=
  if '0' ≤ c ∧ c ≤ '9' then some (c.toNat - 48)
  else if 'a' ≤ c ∧ c ≤ 'f' then some (c.toNat - 87)
  else if 'A' ≤ c ∧ c ≤ 'F' then some (c.toNat - 55)
  else none

def scanHex : List Char → Option (Nat × List Char)
  | a :: b :: c :: d :: rest =>
    match hexVal a, hexVal b, hexVal c, hexVal d with
    | some a, some b, some c, some d => some (((a * 16 + b) * 16 + c) * 16 + d, rest)
    | _, _, _, _ => none
  | _ => none

/-- A `\u` escape, after the `u`; a high surrogate takes the low one after it along. -/
def scanUnicode (cs : List Char) : Option (Char × List Char) :=
  match scanHex cs with
  | none => none
  | some (hi, rest) =>
    if 0xD800 ≤ hi ∧ hi < 0xDC00 then
      match rest with
      | '\\' :: 'u' :: more =>
        match scanHex more with
        | none => none
        | some (lo, after) =>
          if 0xDC00 ≤ lo ∧ lo < 0xE000 then
            some (Char.ofNat (0x10000 + (hi - 0xD800) * 0x400 + (lo - 0xDC00)), after)
          else some (Char.ofNat hi, rest)
      | _ => some (Char.ofNat hi, rest)
    else some (Char.ofNat hi, rest)

def scanEscape : List Char → Option (Char × List Char)
  | [] => none
  | c :: cs =>
    if c = 'u' then scanUnicode cs
    else if c = '/' then some ('/', cs)
    else ((shortEscapes.map Prod.swap).lookup c).map fun e => (e, cs)

def scanString : Nat → List Char → Option (List Char × List Char)
  | 0, _ => none
  | _ + 1, [] => none
  | fuel + 1, c :: cs =>
    if c = '"' then some ([], cs)
    else if c = '\\' then
      match scanEscape cs with
      | none => none
      | some (e, rest) => (scanString fuel rest).map fun r => (e :: r.1, r.2)
    else if c.toNat < 32 then none
    else (scanString fuel cs).map fun r => (c :: r.1, r.2)

def scanDigits : List Char → List (Fin 10) × List Char
  | [] => ([], [])
  | c :: cs =>
    match digitVal c with
    | none => ([], c :: cs)
    | some d => (d :: (scanDigits cs).1, (scanDigits cs).2)

def ofDigits (ds : List (Fin 10)) : Nat := ds.foldl (fun n d => 10 * n + d.val) 0

def scanWhole (cs : List Char) : Option (Nat × List Char) :=
  match scanDigits cs with
  | ([], _) => none
  | (d :: ds, rest) => if d = 0 then some (0, cs.tail) else some (ofDigits (d :: ds), rest)

def scanFraction : List Char → List (Fin 10) × List Char
  | '.' :: cs =>
    match scanDigits cs with
    | ([], _) => ([], '.' :: cs)
    | (d :: ds, rest) => (d :: ds, rest)
  | cs => ([], cs)

def scanSign : List Char → Bool × List Char
  | '-' :: cs => (true, cs)
  | '+' :: cs => (false, cs)
  | cs => (false, cs)

def scanExponent : List Char → Option (Bool × Fin 10 × List (Fin 10)) × List Char
  | [] => (none, [])
  | c :: cs =>
    if c = 'e' ∨ c = 'E' then
      match scanDigits (scanSign cs).2 with
      | ([], _) => (none, c :: cs)
      | (d :: ds, rest) => (some ((scanSign cs).1, d, ds), rest)
    else (none, c :: cs)

def scanUnsigned (negative : Bool) (cs : List Char) : Option (Number × List Char) :=
  match scanWhole cs with
  | none => none
  | some (whole, cs) =>
    let (fraction, cs) := scanFraction cs
    let (exponent, cs) := scanExponent cs
    some ({ negative, whole, fraction, exponent }, cs)

def scanNumber : List Char → Option (Number × List Char)
  | '-' :: cs => scanUnsigned true cs
  | cs => scanUnsigned false cs

/-- Of several members with one key, the last one counts. -/
def object (members : List (String × Json)) : Json :=
  .obj (members.foldl (fun d m => d.set m.1 m.2) (Dict.empty : Dict String Json)).entries

mutual
def parseValue : Nat → List Char → Option (Json × List Char)
  | 0, _ => none
  | fuel + 1, cs =>
    match cs with
    | '"' :: cs => (scanString fuel cs).map fun r => (.str (String.ofList r.1), r.2)
    | '{' :: cs =>
      match skipWs cs with
      | '}' :: rest => some (.obj [], rest)
      | cs => (parseMembers fuel cs).map fun r => (object r.1, r.2)
    | '[' :: cs =>
      match skipWs cs with
      | ']' :: rest => some (.arr [], rest)
      | cs => (parseItems fuel cs).map fun r => (.arr r.1, r.2)
    | 'n' :: 'u' :: 'l' :: 'l' :: rest => some (.null, rest)
    | 't' :: 'r' :: 'u' :: 'e' :: rest => some (.bool true, rest)
    | 'f' :: 'a' :: 'l' :: 's' :: 'e' :: rest => some (.bool false, rest)
    | 'N' :: 'a' :: 'N' :: rest => some (.nan, rest)
    | 'I' :: 'n' :: 'f' :: 'i' :: 'n' :: 'i' :: 't' :: 'y' :: rest => some (.infinite false, rest)
    | '-' :: 'I' :: 'n' :: 'f' :: 'i' :: 'n' :: 'i' :: 't' :: 'y' :: rest => some (.infinite true, rest)
    | cs => (scanNumber cs).map fun r => (.num r.1, r.2)
def parseItems : Nat → List Char → Option (List Json × List Char)
  | 0, _ => none
  | fuel + 1, cs =>
    match parseValue fuel cs with
    | none => none
    | some (x, rest) =>
      match skipWs rest with
      | ']' :: rest => some ([x], rest)
      | ',' :: rest => (parseItems fuel (skipWs rest)).map fun r => (x :: r.1, r.2)
      | _ => none
def parseMembers : Nat → List Char → Option (List (String × Json) × List Char)
  | 0, _ => none
  | fuel + 1, cs =>
    match cs with
    | '"' :: cs =>
      match scanString fuel cs with
      | none => none
      | some (k, rest) =>
        match skipWs rest with
        | ':' :: rest =>
          match parseValue fuel (skipWs rest) with
          | none => none
          | some (x, rest) =>
            match skipWs rest with
            | '}' :: rest => some ([(String.ofList k, x)], rest)
            | ',' :: rest =>
              (parseMembers fuel (skipWs rest)).map fun r => ((String.ofList k, x) :: r.1, r.2)
            | _ => none
        | _ => none
    | _ => none
end

/-- The value of a text that has nothing else in it. -/
def parse (cs : List Char) : Option Json :=
  match parseValue (cs.length + 1) (skipWs cs) with
  | none => none
  | some (j, rest) => if skipWs rest = [] then some j else none

def loads (s : String) : Option Json := parse s.toList

end Parser

end Json
end NTrade.Lib
