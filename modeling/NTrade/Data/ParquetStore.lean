import NTrade.Domain.MarketHours
import NTrade.Lib.LastWrite
import Mathlib.Algebra.Order.Ring.Rat
import Mathlib.Data.List.Sort
import Mathlib.Data.String.Basic

/-! The store of price history: rows in partitions by symbol and month. A partition is created with the
rows that come first, and is merged with those that come later. -/
namespace NTrade.Data
open NTrade.Domain NTrade.Lib NTrade.Lib.LastWrite

section Months

local instance timeOrder : Preorder Int := Int.instLinearOrder.toPreorder

structure Calendar where
  month : Int → Int
  monotone : Monotone month

end Months

/-- A timestamp of a frame: what the clock on the wall shows, and its offset where it has one. -/
structure WallClock where
  wall : Int
  offset : Option Int := none
  deriving DecidableEq, Repr

/-- `strip_tz`: the wall time is kept. -/
def WallClock.stripTz (t : WallClock) : WallClock := { t with offset := none }

/-- A row of a frame; a number that is not there is `none`. -/
structure FrameRow where
  symbol : String
  exchange : String
  kind : Option String := none
  timeframe : String
  timestamp : WallClock
  open_ : Option Rat := none
  high : Option Rat := none
  low : Option Rat := none
  close : Option Rat := none
  volume : Option Rat := none
  deriving DecidableEq, Repr

structure StoredRow where
  symbol : String
  exchange : String
  kind : Option String := none
  timeframe : String
  timestamp : Int
  open_ : Option Rat := none
  high : Option Rat := none
  low : Option Rat := none
  close : Option Rat := none
  volume : Int := 0
  deriving DecidableEq, Repr

abbrev Key := String × String × Int

def StoredRow.key (r : StoredRow) : Key := (r.symbol, r.timeframe, r.timestamp)

/-- `_session_bar_mask`: daily bars, and bars within the session of their exchange. -/
def sessionBarMask (r : FrameRow) : Bool :=
  r.timeframe.toLower ∈ DAILY_TIMEFRAMES ∨ inSession r.exchange r.timestamp.wall

abbrev SessionFilter := FrameRow → Bool

inductive PrepareError where
  /-- A volume that is no whole number cannot be cast. -/
  | volume (v : Rat)
  deriving DecidableEq, Repr

/-- `fillna(0).astype("Int64")`. -/
def castVolume (volume : Option Rat) : Except PrepareError Int :=
  let v := volume.getD 0
  if v.den = 1 then .ok v.num else .error (.volume v)

def FrameRow.prepare (r : FrameRow) : Except PrepareError StoredRow := do
  return { r with timestamp := r.timestamp.wall, volume := ← castVolume r.volume }

def prepareFrame (sessionFilter : Option SessionFilter) (df : List FrameRow) : Except PrepareError (List StoredRow) :=
  ((df.map fun r => { r with timestamp := r.timestamp.stripTz }).filter (sessionFilter.getD sessionBarMask)).mapM
    FrameRow.prepare

structure ParquetStorage where
  calendar : Calendar
  sessionFilter : Option SessionFilter := none
  /-- The files, by symbol and month. -/
  files : Dict (String × Int) (List StoredRow) := Dict.empty

namespace ParquetStorage

def part (s : ParquetStorage) (r : StoredRow) : String × Int := (r.symbol, s.calendar.month r.timestamp)

def groups (s : ParquetStorage) (df : List StoredRow) : List ((String × Int) × List StoredRow) :=
  (uniques (df.map (·.symbol))).flatMap fun symbol =>
    let sub := df.filter fun r => r.symbol = symbol
    ((uniques (sub.map fun r => s.calendar.month r.timestamp)).insertionSort (· ≤ ·)).map fun month =>
      ((symbol, month), sub.filter fun r => s.calendar.month r.timestamp = month)

/-- `upsert`: the store afterwards, and the number of rows written. -/
def upsert (df : List FrameRow) (sessionFilter : Option SessionFilter) (s : ParquetStorage) :
    Except PrepareError (ParquetStorage × Nat) :=
  if df = [] then .ok (s, 0)
  else do
    let df ← prepareFrame (sessionFilter.or s.sessionFilter) df
    return ({ s with files := (s.groups df).foldl (write StoredRow.key) s.files },
      ((s.groups df).map fun g => g.2.length).sum)

def allSymbols (s : ParquetStorage) : List String :=
  (uniques (s.files.keys.map Prod.fst)).insertionSort (· ≤ ·)

/-- The slices of a list that start at every multiple of the size. -/
def batches {γ : Type} (size : Nat) (xs : List γ) : List (List γ) :=
  (List.range ((xs.length + size - 1) / size)).map fun i => (xs.drop (i * size)).take size

/-- The months from one wall time to another. -/
def periodRange (s : ParquetStorage) (start stop : Int) : List Int :=
  let first := s.calendar.month start
  (List.range (s.calendar.month stop + 1 - first).toNat).map fun (i : Nat) => first + (i : Int)

def pathsOf (s : ParquetStorage) (start stop : Option Int) (symbol : String) : List (List StoredRow) :=
  match start, stop with
  | some start, some stop => (s.periodRange start stop).filterMap fun month => s.files.get (symbol, month)
  | _, _ => (s.files.entries.filter fun e => e.1.1 = symbol).map Prod.snd

def inRange (start stop : Option Int) (timeframe : Option String) (r : StoredRow) : Bool :=
  (start.all fun t => t ≤ r.timestamp) && (stop.all fun t => r.timestamp ≤ t) && timeframe.all fun tf => r.timeframe = tf

def Before (r r' : StoredRow) : Prop := r.symbol < r'.symbol ∨ r.symbol = r'.symbol ∧ r.timestamp ≤ r'.timestamp

instance (r r' : StoredRow) : Decidable (Before r r') := inferInstanceAs (Decidable (_ ∨ _))

/-- The symbols to read; a universe is merged with them. -/
def effectiveSymbols (s : ParquetStorage) (symbols others : Option (List String)) : List String :=
  match symbols, others with
  | some symbols, some others => uniques (symbols ++ others)
  | some symbols, none => symbols
  | none, some others => others
  | none, none => s.allSymbols

def read (s : ParquetStorage) (symbols : Option (List String) := none) (start stop : Option Int := none)
    (timeframe : Option String := none) (batchSize : Int := 100) (others : Option (List String) := none) :
    List StoredRow :=
  let size := if batchSize ≤ 0 then 100 else batchSize.toNat
  let frames := (batches size (s.effectiveSymbols symbols others)).map fun batch =>
    ((batch.flatMap (s.pathsOf start stop)).flatten).filter (inRange start stop timeframe)
  frames.flatten.insertionSort Before

/-- The slices of a list are all of it. -/
theorem flatten_batches {γ : Type} {size : Nat} (h : 0 < size) (xs : List γ) : (batches size xs).flatten = xs := by
  have hslices (n : Nat) : ((List.range n).map fun i => (xs.drop (i * size)).take size).flatten = xs.take (n * size) := by
    induction n with
    | zero => simp
    | succ n ih => rw [List.range_succ, List.map_append, List.flatten_append, ih, Nat.succ_mul, List.take_add]; simp
  rw [batches, hslices, List.take_of_length_le]
  have := Nat.div_add_mod (xs.length + size - 1) size
  have := Nat.mod_lt (xs.length + size - 1) h
  rw [Nat.mul_comm]
  omega

/-- What is read, but for the order of the rows. -/
theorem read_perm (s : ParquetStorage) (symbols : Option (List String)) (start stop : Option Int)
    (timeframe : Option String) (batchSize : Int) (others : Option (List String)) :
    (s.read symbols start stop timeframe batchSize others).Perm
      ((((s.effectiveSymbols symbols others).flatMap (s.pathsOf start stop)).flatten).filter
        (inRange start stop timeframe)) := by
  refine (List.perm_insertionSort _ _).trans (List.Perm.of_eq ?_)
  have hsize : 0 < (if batchSize ≤ 0 then 100 else batchSize.toNat) := by split <;> omega
  conv_rhs => rw [← flatten_batches hsize (s.effectiveSymbols symbols others)]
  induction batches (if batchSize ≤ 0 then 100 else batchSize.toNat) (s.effectiveSymbols symbols others) with
  | nil => rfl
  | cons batch rest ih =>
    rw [List.map_cons, List.flatten_cons, ih, List.flatten_cons, List.flatMap_append, List.flatten_append,
      List.filter_append]

end ParquetStorage
end NTrade.Data
