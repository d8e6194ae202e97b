import NTrade.Data.MapRefinement

/-! Reading with filters against a scan of all files: neither the months of a range nor the batches of symbols
lose a row, and a row comes back more than once only if its symbol is repeated in the only list of names. -/
namespace NTrade.Data.ParquetStorage
open NTrade.Domain NTrade.Lib NTrade.Lib.LastWrite

def fullScan (s : ParquetStorage) : List StoredRow := s.files.entries.flatMap Prod.snd

def asked (symbols others : Option (List String)) (symbol : String) : Bool :=
  match symbols, others with
  | none, none => true
  | _, _ => symbol ∈ symbols.getD [] ++ others.getD []

/-- `read` at instants of any time zone, with a batch size that may be left to it. -/
def readAt (s : ParquetStorage) (symbols : Option (List String)) (start stop : Option WallClock)
    (timeframe : Option String) (batchSize : Option Int) (others : Option (List String)) : List StoredRow :=
  s.read symbols (start.map fun t => t.stripTz.wall) (stop.map fun t => t.stripTz.wall) timeframe (batchSize.getD 0)
    others

def wanted (symbols others : Option (List String)) (start stop : Option WallClock) (timeframe : Option String)
    (r : StoredRow) : Bool :=
  asked symbols others r.symbol &&
    inRange (start.map fun t => t.stripTz.wall) (stop.map fun t => t.stripTz.wall) timeframe r

/-- A name that is more than once in the only list that is given. -/
def Repeated (symbols others : Option (List String)) (symbol : String) : Prop :=
  match symbols, others with
  | some names, none => 1 < names.count symbol
  | none, some names => 1 < names.count symbol
  | _, _ => False

variable {s : ParquetStorage}

section Partitions

/-- The partitions of a symbol that a range can be in. -/
private def partsOf (s : ParquetStorage) (start stop : Option Int) (symbol : String) : List (String × Int) :=
  match start, stop with
  | some start, some stop => (s.periodRange start stop).map fun month => (symbol, month)
  | _, _ => s.files.keys.filter fun p => p.1 = symbol

private theorem flatMap_rowsAt_keys (s : ParquetStorage) (symbol : String) :
    ((s.files.entries.filter fun e => e.1.1 = symbol).map Prod.snd).flatten =
      (s.files.keys.filter fun p => p.1 = symbol).flatMap s.rowsAt := by
  rw [Dict.keys, List.filter_map, List.flatMap_map, List.flatMap_def]
  congr 1
  apply List.map_congr_left
  intro e he
  exact (mem_rowsAt (List.mem_filter.mp he).1).symm

/-- The files of a symbol are its partitions. -/
private theorem flatten_pathsOf (start stop : Option Int) (symbol : String) :
    (s.pathsOf start stop symbol).flatten = (s.partsOf start stop symbol).flatMap s.rowsAt := by
  match start, stop with
  | some start, some stop =>
    rw [pathsOf, partsOf]
    induction s.periodRange start stop with
    | nil => rfl
    | cons month months ih =>
      rw [List.map_cons, List.flatMap_cons, ← ih, List.filterMap_cons, rowsAt]
      cases s.files.get (symbol, month) <;> rfl
  | none, _ => exact flatMap_rowsAt_keys s symbol
  | some _, none => exact flatMap_rowsAt_keys s symbol

private theorem nodup_periodRange (start stop : Int) : (s.periodRange start stop).Nodup := by
  apply List.Nodup.map _ List.nodup_range
  intro i j h
  simpa using h

private theorem nodup_partsOf (start stop : Option Int) (symbol : String) : (s.partsOf start stop symbol).Nodup := by
  match start, stop with
  | some start, some stop => exact (nodup_periodRange start stop).map fun m m' h => (Prod.mk.inj h).2
  | none, _ => exact s.files.keys_nodup.filter _
  | some _, none => exact s.files.keys_nodup.filter _

/-- The partition of a row in the range is among those of its symbol only. -/
private theorem part_mem_partsOf {start stop : Option Int} {timeframe : Option String} {r : StoredRow} {symbol : String}
    (hrange : inRange start stop timeframe r = true) (hr : r ∈ s.rowsAt (s.part r)) :
    s.part r ∈ s.partsOf start stop symbol ↔ r.symbol = symbol := by
  have hkey : s.part r ∈ s.files.keys := by
    rw [Dict.mem_keys_iff]
    cases hget : s.files.get (s.part r) with
    | none =>
      rw [rowsAt, hget] at hr
      cases hr
    | some rows => exact ⟨rows, rfl⟩
  have hglob : s.part r ∈ s.files.keys.filter (fun p => p.1 = symbol) ↔ r.symbol = symbol := by
    rw [List.mem_filter]
    exact ⟨fun h => of_decide_eq_true h.2, fun h => ⟨hkey, decide_eq_true h⟩⟩
  cases start with
  | none => exact hglob
  | some start =>
    cases stop with
    | none => exact hglob
    | some stop =>
      simp only [inRange, Option.all_some, Bool.and_eq_true, decide_eq_true_eq] at hrange
      obtain ⟨⟨hstart, hstop⟩, -⟩ := hrange
      have hmonth := mem_periodRange.mpr ⟨s.calendar.monotone hstart, s.calendar.monotone hstop⟩
      rw [partsOf, List.mem_map]
      constructor
      · rintro ⟨month, -, h⟩
        exact (Prod.mk.inj h).1.symm
      · rintro rfl
        exact ⟨_, hmonth, rfl⟩

end Partitions

section Counting

/-- A row is only in its own partition. -/
private theorem count_rowsAt (h : s.Placed) (p : String × Int) (r : StoredRow) :
    (s.rowsAt p).count r = if s.part r = p then (s.rowsAt (s.part r)).count r else 0 := by
  split_ifs with hp
  · rw [hp]
  · exact List.count_eq_zero.mpr fun hr => hp (h p r hr)

private theorem count_scan (h : s.Placed) (ps : List (String × Int)) (r : StoredRow) :
    (ps.flatMap s.rowsAt).count r = ps.count (s.part r) * (s.rowsAt (s.part r)).count r := by
  induction ps with
  | nil => simp
  | cons p ps ih =>
    rw [List.flatMap_cons, List.count_append, ih, count_rowsAt h, List.count_cons, Nat.add_mul, Nat.add_comm]
    congr 1
    by_cases hp : s.part r = p
    · simp [hp]
    · simp [hp, Ne.symm hp]

theorem count_fullScan (h : s.Placed) (r : StoredRow) : s.fullScan.count r = (s.rowsAt (s.part r)).count r := by
  have hscan : s.fullScan = s.files.keys.flatMap s.rowsAt := by
    rw [fullScan, Dict.keys, List.flatMap_map]
    apply List.flatMap_congr
    intro e he
    exact (mem_rowsAt he).symm
  rw [hscan, count_scan h]
  by_cases hk : s.part r ∈ s.files.keys
  · rw [List.count_eq_one_of_mem s.files.keys_nodup hk, Nat.one_mul]
  · rw [rowsAt, (s.files.get_eq_none_iff _).mpr hk, Option.getD_none, List.count_nil, Nat.mul_zero]

/-- The files of a symbol hold the rows of it. -/
private theorem count_pathsOf (h : s.Placed) {start stop : Option Int} {timeframe : Option String} {r : StoredRow}
    (hrange : inRange start stop timeframe r = true) (symbol : String) :
    ((s.pathsOf start stop symbol).flatten).count r =
      if r.symbol = symbol then (s.rowsAt (s.part r)).count r else 0 := by
  rw [flatten_pathsOf, count_scan h]
  by_cases hr : r ∈ s.rowsAt (s.part r)
  · have hmem : s.part r ∈ s.partsOf start stop symbol ↔ _ := part_mem_partsOf hrange hr
    split_ifs with hs
    · rw [List.count_eq_one_of_mem (nodup_partsOf start stop symbol) (hmem.mpr hs), Nat.one_mul]
    · rw [List.count_eq_zero.mpr fun hp => hs (hmem.mp hp), Nat.zero_mul]
  · simp [List.count_eq_zero.mpr hr]

/-- A row in the range comes back once for each time its symbol is read. -/
private theorem count_read (h : s.Placed) (symbols : Option (List String)) (start stop : Option Int)
    (timeframe : Option String) (batchSize : Int) (others : Option (List String)) (r : StoredRow) :
    (s.read symbols start stop timeframe batchSize others).count r =
      if inRange start stop timeframe r then (s.effectiveSymbols symbols others).count r.symbol * s.fullScan.count r
      else 0 := by
  rw [(s.read_perm symbols start stop timeframe batchSize others).count_eq, count_fullScan h]
  split_ifs with hrange
  · rw [List.count_filter hrange]
    induction s.effectiveSymbols symbols others with
    | nil => simp
    | cons symbol rest ih =>
      rw [List.flatMap_cons, List.flatten_append, List.count_append, ih, count_pathsOf h hrange, List.count_cons,
        Nat.add_mul, Nat.add_comm]
      congr 1
      by_cases hs : r.symbol = symbol
      · simp [hs]
      · simp [hs, Ne.symm hs]
  · exact List.count_eq_zero.mpr fun hr => hrange (List.mem_filter.mp hr).2

/-- A read has the rows in the range whose symbols are read. -/
theorem mem_read (h : s.Placed) (symbols : Option (List String)) (start stop : Option Int)
    (timeframe : Option String) (batchSize : Int) (others : Option (List String)) {r : StoredRow} :
    r ∈ s.read symbols start stop timeframe batchSize others ↔
      inRange start stop timeframe r = true ∧ r.symbol ∈ s.effectiveSymbols symbols others ∧ r ∈ s.fullScan := by
  rw [← List.count_pos_iff, count_read h]
  split_ifs with hrange
  · rw [Nat.pos_iff_ne_zero, Nat.mul_ne_zero_iff, ← Nat.pos_iff_ne_zero, ← Nat.pos_iff_ne_zero, List.count_pos_iff,
      List.count_pos_iff]
    exact ⟨fun hr => ⟨hrange, hr⟩, fun hr => hr.2⟩
  · exact iff_of_false (lt_irrefl 0) fun hr => hrange hr.1

end Counting

section Names

private theorem symbol_mem_allSymbols (h : s.Placed) {r : StoredRow} (hr : r ∈ s.fullScan) : r.symbol ∈ s.allSymbols := by
  obtain ⟨e, he, hre⟩ := List.mem_flatMap.mp hr
  rw [← mem_rowsAt he] at hre
  rw [allSymbols, List.mem_insertionSort, mem_uniques]
  have hp : s.part r = e.1 := h e.1 r hre
  exact List.mem_map.mpr ⟨e.1, List.mem_map_of_mem he, by rw [← hp]; rfl⟩

private theorem nodup_allSymbols (s : ParquetStorage) : s.allSymbols.Nodup :=
  (List.perm_insertionSort _ _).nodup_iff.mpr (nodup_uniques _)

private theorem count_uniques (names : List String) (symbol : String) :
    (uniques names).count symbol = if symbol ∈ names then 1 else 0 := by
  split_ifs with hmem
  · exact List.count_eq_one_of_mem (nodup_uniques _) (mem_uniques.mpr hmem)
  · exact List.count_eq_zero.mpr fun hm => hmem (mem_uniques.mp hm)

private theorem count_names (names : List String) (symbol : String) :
    names.count symbol = (if symbol ∈ names then 1 else 0) ↔ ¬ 1 < names.count symbol := by
  split_ifs with hmem
  · have := List.count_pos_iff.mpr hmem
    omega
  · have := List.count_eq_zero.mpr hmem
    omega

/-- The symbol of a row is read once if it is asked for, unless it is repeated. -/
private theorem count_effectiveSymbols (h : s.Placed) {r : StoredRow} (hr : r ∈ s.fullScan)
    (symbols others : Option (List String)) :
    (s.effectiveSymbols symbols others).count r.symbol = (if asked symbols others r.symbol then 1 else 0) ↔
      ¬ Repeated symbols others r.symbol := by
  match symbols, others with
  | none, none =>
    exact iff_of_true (List.count_eq_one_of_mem (nodup_allSymbols s) (symbol_mem_allSymbols h hr)) id
  | some names, none => simpa [effectiveSymbols, asked, Repeated] using count_names names r.symbol
  | none, some names => simpa [effectiveSymbols, asked, Repeated] using count_names names r.symbol
  | some names, some names' =>
    refine iff_of_true ?_ id
    rw [effectiveSymbols, count_uniques]
    simp [asked]

end Names

private def storedBar : Call :=
  ([{ symbol := "SBIN", exchange := "NSE", timeframe := "5m", timestamp := { wall := 1704189600 * MICROS } }], none)

end NTrade.Data.ParquetStorage
