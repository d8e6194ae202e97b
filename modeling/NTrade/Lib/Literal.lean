import Mathlib.Algebra.Order.Ring.Rat
import Mathlib.Data.String.Basic

/-! Text as a scripting language reads it: integer and decimal literals, and upper case. -/
namespace NTrade.Lib.Literal

def isSpace (c : Char) : Bool :=
  let n := c.toNat
  (9 ≤ n ∧ n ≤ 13) ∨ (28 ≤ n ∧ n ≤ 32) ∨ (0x2000 ≤ n ∧ n ≤ 0x200a) ∨
    n ∈ [0x85, 0xa0, 0x1680, 0x2028, 0x2029, 0x202f, 0x205f, 0x3000]

def strip (cs : List Char) : List Char := ((cs.dropWhile isSpace).reverse.dropWhile isSpace).reverse

/-- A character within a quoted text; those past ASCII stand as they are. -/
def escape (quote c : Char) : List Char :=
  if c = quote ∨ c = '\\' then ['\\', c]
  else if c = '\t' then ['\\', 't']
  else if c = '\n' then ['\\', 'n']
  else if c = '\r' then ['\\', 'r']
  else if c.toNat < 32 ∨ c.toNat = 127 then '\\' :: 'x' :: List.leftpad 2 '0' (Nat.toDigits 16 c.toNat)
  else [c]

/-- A text as a message shows it: in single quotes, unless it holds those and no double ones. -/
def repr (s : String) : String :=
  let quote := if '\'' ∈ s.toList ∧ '"' ∉ s.toList then '"' else '\''
  String.ofList (quote :: s.toList.flatMap (escape quote) ++ [quote])

def digitRun (cs : List Char) : Option (List Char) :=
  let groups := cs.splitOn '_'
  if groups.all fun g => !g.isEmpty && g.all Char.isDigit then some groups.flatten else none

/-- A sign, as the factor it stands for, and the rest of the text. -/
def signOf : List Char → Int × List Char
  | '-' :: cs => (-1, cs)
  | '+' :: cs => (1, cs)
  | cs => (1, cs)

def signedDigits (cs : List Char) : Option Int :=
  let (sign, cs) := signOf cs
  (digitRun cs).map fun ds => sign * Nat.ofDigitChars 10 ds 0

def int (s : String) : Option Int := signedDigits (strip s.toList)

/-- Digits with a point, as their digits and the number of them behind the point. -/
def pointRun (cs : List Char) : Option (List Char × Nat) :=
  match cs.splitOn '.' with
  | [whole] => (digitRun whole).map fun ds => (ds, 0)
  | [[], fraction] => (digitRun fraction).map fun ds => (ds, ds.length)
  | [whole, []] => (digitRun whole).map fun ds => (ds, 0)
  | [whole, fraction] => do
    let ds ← digitRun whole
    let es ← digitRun fraction
    return (ds ++ es, es.length)
  | _ => none

/-- The number that a text is a finite decimal literal of, in the digits of ASCII; `nan` and `inf` are no literals here. -/
def float (s : String) : Option Rat := do
  let (sign, cs) := signOf (strip s.toList)
  let (mantissa, exponent) := cs.span fun c => c ≠ 'e' ∧ c ≠ 'E'
  let (ds, places) ← pointRun mantissa
  let power ← if exponent = [] then some 0 else signedDigits exponent.tail
  return sign * Nat.ofDigitChars 10 ds 0 * 10 ^ (power - places)

def foldedChar (c : Char) : List Char :=
  match c.toNat with
  | 0xdf => ['S', 'S']
  | 0x131 => ['I']
  | 0x17f => ['S']
  | 0xfb00 => ['F', 'F']
  | 0xfb01 => ['F', 'I']
  | 0xfb02 => ['F', 'L']
  | 0xfb03 => ['F', 'F', 'I']
  | 0xfb04 => ['F', 'F', 'L']
  | 0xfb05 => ['S', 'T']
  | 0xfb06 => ['S', 'T']
  | _ => [c.toUpper]

/-- Upper case, exact wherever it is ASCII; other letters keep their case. -/
def upper (s : String) : String := String.ofList (s.toList.flatMap foldedChar)

/-- The lower case of a character, a dotted capital `I` and the Kelvin sign included; other letters keep their case. -/
def loweredChar (c : Char) : List Char :=
  match c.toNat with
  | 0x130 => ['i', Char.ofNat 0x307]
  | 0x212a => ['k']
  | _ => [c.toLower]

def lower (s : String) : String := String.ofList (s.toList.flatMap loweredChar)

def occursIn (s t : String) : Bool := t.toList.tails.any s.toList.isPrefixOf

example : int " -1_000 " = some (-1000) := by decide +kernel
example : float "1.25e1" = some (25 / 2) := by decide +kernel

end NTrade.Lib.Literal
