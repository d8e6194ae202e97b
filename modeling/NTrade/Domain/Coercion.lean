import NTrade.Domain.Order
import NTrade.Lib.Dict
import NTrade.Lib.Literal

/-! What a broker's records carry, and its conversion to the domain's types. -/
namespace NTrade.Domain
open NTrade.Lib

inductive Cell where
  | none
  | nan
  | int (n : Int)
  | float (q : Rat) (printed : String)
  | text (s : String)
  deriving DecidableEq

abbrev WireRecord := Dict String Cell

def Cell.isMissing : Cell → Bool
  | .none => true
  | .nan => true
  | .text s => s = ""
  | _ => false

/-- `str(v)`. -/
def Cell.str : Cell → String
  | .none => "None"
  | .nan => "nan"
  | .int n => toString n
  | .float _ printed => printed
  | .text s => s

/-- `float(v)`, where it is a number. -/
def Cell.wire : Cell → Wire
  | .none => Option.none
  | .nan => Option.none
  | .int n => some n
  | .float q _ => some q
  | .text s => Literal.float s

/-- Whether a value counts as false. -/
def Cell.isFalse : Cell → Bool
  | .none => true
  | .nan => false
  | .int n => n = 0
  | .float q _ => q = 0
  | .text s => s = ""

/-- `int(v)`, or the error it raises. -/
def Cell.toInteger : Cell → Except String Int
  | .none => .error "int() argument must be a string, a bytes-like object or a real number, not 'NoneType'"
  | .nan => .error "cannot convert float NaN to integer"
  | .int n => .ok n
  | .float q _ => .ok (toInt (some q))
  | .text s =>
    match Literal.int s with
    | some n => .ok n
    | Option.none => .error ("invalid literal for int() with base 10: '" ++ s ++ "'")

/-- `float(v)`, or the error it raises; a NaN price reads as no price. -/
def Cell.toPrice : Cell → Except String Rat
  | .none => .error "float() argument must be a string or a real number, not 'NoneType'"
  | .nan => .ok 0
  | .int n => .ok n
  | .float q _ => .ok q
  | .text s =>
    match Literal.float s with
    | some q => .ok q
    | Option.none => .error ("could not convert string to float: '" ++ s ++ "'")

/-- The first of some keys whose value is not missing. -/
def firstPresent (d : WireRecord) : List String → Option Cell
  | [] => Option.none
  | k :: ks =>
    match (d.get k).filter fun v => !v.isMissing with
    | some v => some v
    | Option.none => firstPresent d ks

theorem firstPresent_absent {d : WireRecord} {k : String} (ks : List String) (h : d.get k = Option.none) :
    firstPresent d (k :: ks) = firstPresent d ks := by
  rw [firstPresent, h, Option.filter_none]

theorem firstPresent_present {d : WireRecord} {k : String} {v : Cell} (ks : List String) (h : d.get k = some v)
    (hv : v.isMissing = false) : firstPresent d (k :: ks) = some v := by
  rw [firstPresent, h, Option.filter_some, hv]
  rfl

def firstStr (d : WireRecord) (keys : List String) : String := ((firstPresent d keys).map Cell.str).getD ""

def firstFloat (d : WireRecord) (keys : List String) : Rat := toFloat ((firstPresent d keys).bind Cell.wire)

def firstInt (d : WireRecord) (keys : List String) : Int := toInt ((firstPresent d keys).bind Cell.wire)

end NTrade.Domain
