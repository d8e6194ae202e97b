import NTrade.Data.ParquetStore
import NTrade.Lib.Trace

/-! The store against a map from keys to rows: each key that was written has one row, the last one that
was written for it, as long as no frame brings a key twice into a partition that is created with it. -/
namespace NTrade.Data
open NTrade.Domain NTrade.Lib NTrade.Lib.LastWrite

abbrev Call := List FrameRow × Option SessionFilter

def Calendar.january : Calendar where
  month wall := 24288 + (wall - 1704067200 * MICROS) / (31 * DAY)
  monotone := by
    intro a b h
    have hle := Int.ediv_le_ediv (by decide : 0 < 31 * DAY) (Int.sub_le_sub_right h (1704067200 * MICROS))
    exact Int.add_le_add_left hle 24288

namespace ParquetStorage
variable {s : ParquetStorage}

/-- The rows of a call that get past the filter, none if the frame is refused. -/
def callRows (s : ParquetStorage) (c : Call) : List StoredRow :=
  match prepareFrame (c.2.or s.sessionFilter) c.1 with
  | .ok rows => rows
  | .error _ => []

def apply (s : ParquetStorage) (c : Call) : ParquetStorage :=
  match s.upsert c.1 c.2 with
  | .ok (s', _) => s'
  | .error _ => s

def run (s : ParquetStorage) (calls : List Call) : ParquetStorage := calls.foldl apply s

@[simp] theorem run_nil (s : ParquetStorage) : s.run [] = s := rfl

@[simp] theorem run_concat (s : ParquetStorage) (calls : List Call) (c : Call) :
    s.run (calls ++ [c]) = (s.run calls).apply c := by
  simp [run]

def history (s : ParquetStorage) (calls : List Call) : List StoredRow := calls.flatMap s.callRows

def rowsAt (s : ParquetStorage) (p : String × Int) : List StoredRow := (s.files.get p).getD []

def partOf (s : ParquetStorage) (k : Key) : String × Int := (k.1, s.calendar.month k.2.2)

theorem part_eq (r : StoredRow) : s.part r = s.partOf r.key := rfl

theorem mem_periodRange {start stop m : Int} :
    m ∈ s.periodRange start stop ↔ s.calendar.month start ≤ m ∧ m ≤ s.calendar.month stop := by
  simp only [periodRange, List.mem_map, List.mem_range]
  constructor
  · rintro ⟨i, hi, rfl⟩
    omega
  · rintro ⟨hstart, hstop⟩
    exact ⟨(m - s.calendar.month start).toNat, by omega, by omega⟩

section Groups

private theorem mem_groups {df : List StoredRow} {g : (String × Int) × List StoredRow} :
    g ∈ s.groups df ↔ (∃ r ∈ df, s.part r = g.1) ∧ g.2 = df.filter fun r => s.part r = g.1 := by
  obtain ⟨⟨symbol, month⟩, rows⟩ := g
  have hfilter : (df.filter fun r => r.symbol = symbol).filter (fun r => s.calendar.month r.timestamp = month) =
      df.filter fun r => s.part r = (symbol, month) := by
    rw [List.filter_filter]
    apply List.filter_congr
    intro r _
    rw [part, ← Bool.decide_and, decide_eq_decide, Prod.mk.injEq, and_comm]
  simp only [groups, List.mem_flatMap, mem_uniques, List.mem_map, List.mem_insertionSort, List.mem_filter,
    decide_eq_true_eq, Prod.mk.injEq]
  constructor
  · rintro ⟨_, ⟨r, hr, rfl⟩, _, ⟨r', ⟨hr', hs⟩, rfl⟩, ⟨rfl, rfl⟩, rfl⟩
    exact ⟨⟨r', hr', Prod.ext hs rfl⟩, hfilter⟩
  · rintro ⟨⟨r, hr, hp⟩, hrows⟩
    obtain ⟨rfl, rfl⟩ := Prod.mk.inj hp
    exact ⟨_, ⟨r, hr, rfl⟩, _, ⟨r, ⟨hr, rfl⟩, rfl⟩, ⟨rfl, rfl⟩, hfilter.trans hrows.symm⟩

private theorem nodup_groups (df : List StoredRow) : ((s.groups df).map Prod.fst).Nodup := by
  rw [groups, List.map_flatMap, List.nodup_flatMap]
  constructor
  · intro symbol _
    rw [List.map_map]
    refine List.Nodup.map (fun m m' h => (Prod.mk.inj h).2) ?_
    exact (List.perm_insertionSort _ _).nodup_iff.mpr (nodup_uniques _)
  · refine (nodup_uniques _).imp ?_
    intro symbol symbol' hne p hp hp'
    obtain ⟨g, hg, rfl⟩ := List.mem_map.mp hp
    obtain ⟨g', hg', he⟩ := List.mem_map.mp hp'
    obtain ⟨m, -, rfl⟩ := List.mem_map.mp hg
    obtain ⟨m', -, rfl⟩ := List.mem_map.mp hg'
    exact hne (Prod.mk.inj he).1.symm

private theorem find_groups (df : List StoredRow) (p : String × Int) :
    (s.groups df).find? (fun g => g.1 = p) =
      if df.filter (fun r => s.part r = p) = [] then none else some (p, df.filter fun r => s.part r = p) := by
  by_cases h : df.filter (fun r => s.part r = p) = []
  · rw [if_pos h, List.find?_eq_none]
    intro g hg hp
    rw [decide_eq_true_eq] at hp
    obtain ⟨⟨r, hr, he⟩, -⟩ := mem_groups.mp hg
    exact List.filter_eq_nil_iff.mp h r hr (decide_eq_true (he.trans hp))
  · rw [if_neg h]
    obtain ⟨r, hr⟩ := List.exists_mem_of_ne_nil _ h
    obtain ⟨hr, hp⟩ := List.mem_filter.mp hr
    have hg : (p, df.filter fun r => s.part r = p) ∈ s.groups df := mem_groups.mpr ⟨⟨r, hr, of_decide_eq_true hp⟩, rfl⟩
    obtain ⟨g, hf⟩ : ∃ g, (s.groups df).find? (fun g => g.1 = p) = some g :=
      Option.isSome_iff_exists.mp (List.find?_isSome.mpr ⟨_, hg, by simp⟩)
    have hp : g.1 = p := by simpa using List.find?_some hf
    have hrows := (mem_groups.mp (List.mem_of_find?_eq_some hf)).2
    rw [hf, ← hp, ← hrows]

/-- What a call does: nothing if it is refused, or brings no row; otherwise its groups are written. -/
theorem apply_eq (s : ParquetStorage) (c : Call) :
    s.apply c = { s with files := (s.groups (s.callRows c)).foldl (write StoredRow.key) s.files } := by
  obtain ⟨df, filter⟩ := c
  rw [apply, upsert, callRows]
  by_cases h : df = []
  · subst h
    rfl
  · rw [if_neg h]
    cases prepareFrame (filter.or s.sessionFilter) df with
    | error err => rfl
    | ok rows => rfl

/-- A call leaves the partitions that no row of it belongs to, and writes the others. -/
theorem apply_get (s : ParquetStorage) (c : Call) (p : String × Int) :
    (s.apply c).files.get p =
      if (s.callRows c).filter (fun r => s.part r = p) = [] then s.files.get p
      else some (written StoredRow.key s.files p ((s.callRows c).filter fun r => s.part r = p)) := by
  rw [apply_eq, get_foldl_write (nodup_groups _), find_groups]
  split_ifs <;> rfl

end Groups

section Setup

theorem calendar_apply (s : ParquetStorage) (c : Call) : (s.apply c).calendar = s.calendar := by rw [apply_eq]

theorem callRows_apply (s : ParquetStorage) (c : Call) : (s.apply c).callRows = s.callRows := by
  funext c'
  rw [callRows, callRows, apply_eq]

theorem calendar_run (s : ParquetStorage) (calls : List Call) : (s.run calls).calendar = s.calendar := by
  induction calls using List.reverseRecOn with
  | nil => rfl
  | append_singleton calls c ih => rw [run_concat, calendar_apply, ih]

theorem callRows_run (s : ParquetStorage) (calls : List Call) : (s.run calls).callRows = s.callRows := by
  induction calls using List.reverseRecOn with
  | nil => rfl
  | append_singleton calls c ih => rw [run_concat, callRows_apply, ih]

theorem partOf_run (s : ParquetStorage) (calls : List Call) : (s.run calls).partOf = s.partOf := by
  funext k
  rw [partOf, partOf, calendar_run]

end Setup

section Rows

private theorem filter_key_part {k : Key} {p : String × Int} (hp : s.partOf k = p) (rows : List StoredRow) :
    lastOf StoredRow.key k (rows.filter fun r => s.part r = p) = lastOf StoredRow.key k rows := by
  rw [lastOf, List.filter_filter, lastOf]
  congr 1
  apply List.filter_congr
  intro r _
  by_cases hk : r.key = k
  · simp [hk, part_eq, hp]
  · simp [hk]

/-- The last row of a key in its partition is the last one that was written. -/
theorem lastOf_rowsAt {s : ParquetStorage} (h : s.files = Dict.empty) (calls : List Call) (k : Key) :
    lastOf StoredRow.key k ((s.run calls).rowsAt (s.partOf k)) = lastOf StoredRow.key k (s.history calls) := by
  induction calls using List.reverseRecOn with
  | nil =>
    rw [run_nil, rowsAt, h]
    rfl
  | append_singleton calls c ih =>
    have hpart : (s.run calls).part = s.part := by
      funext r
      rw [part_eq, part_eq, partOf_run]
    have hlast := filter_key_part (rfl : s.partOf k = s.partOf k) (s.callRows c)
    rw [history, List.flatMap_append, List.flatMap_singleton, lastOf_append, ← history, ← ih, run_concat, rowsAt,
      apply_get, callRows_run, hpart, ← hlast]
    split_ifs with hnil
    · rw [hnil]
      rfl
    · rw [Option.getD_some, written, rowsAt]
      cases (s.run calls).files.get (s.partOf k) with
      | none => exact (Option.or_none).symm
      | some existing => exact lastOf_merge _ _ _

def Placed (s : ParquetStorage) : Prop := ∀ p, ∀ r ∈ s.rowsAt p, s.part r = p

theorem placed_run {s : ParquetStorage} (h : s.files = Dict.empty) (calls : List Call) : (s.run calls).Placed := by
  induction calls using List.reverseRecOn with
  | nil =>
    intro p r hr
    rw [run_nil, rowsAt, h] at hr
    cases hr
  | append_singleton calls c ih =>
    intro p r hr
    rw [run_concat] at hr ⊢
    have hpart : ((s.run calls).apply c).part r = (s.run calls).part r := by rw [part_eq, part_eq, partOf, calendar_apply, partOf]
    rw [hpart]
    rw [rowsAt, apply_get] at hr
    split_ifs at hr with hnil
    · exact ih p r hr
    · rw [Option.getD_some, written] at hr
      cases hg : (s.run calls).files.get p with
      | none =>
        rw [hg] at hr
        exact of_decide_eq_true (List.mem_filter.mp hr).2
      | some existing =>
        rw [hg] at hr
        have hold (r : StoredRow) (hr : r ∈ existing) : (s.run calls).part r = p :=
          ih p r (by rw [rowsAt, hg]; exact hr)
        rcases List.mem_append.mp ((keepLast_sublist _).subset hr) with hr | hr
        · exact hold r hr
        · rcases List.mem_append.mp hr with hr | hr
          · exact hold r (List.mem_filter.mp hr).1
          · exact of_decide_eq_true (List.mem_filter.mp hr).2

private theorem flatMap_single {α β : Type*} {l : List α} (hn : l.Nodup) (f : α → List β) {x : α} (hx : x ∈ l)
    (h : ∀ y ∈ l, y ≠ x → f y = []) : l.flatMap f = f x := by
  induction l with
  | nil => cases hx
  | cons y l ih =>
    obtain ⟨hy, hn'⟩ := List.nodup_cons.mp hn
    rw [List.flatMap_cons]
    rcases List.mem_cons.mp hx with rfl | hx
    · have hnil : l.flatMap f = [] := by
        rw [List.flatMap_eq_nil_iff]
        intro z hz
        exact h z (List.mem_cons_of_mem _ hz) fun he => hy (he ▸ hz)
      rw [hnil, List.append_nil]
    · rw [h y List.mem_cons_self fun he => hy (he ▸ hx), List.nil_append, ih hn' hx fun z hz => h z (List.mem_cons_of_mem _ hz)]

theorem mem_rowsAt {e : (String × Int) × List StoredRow} (he : e ∈ s.files.entries) : s.rowsAt e.1 = e.2 := by
  rw [rowsAt, (Dict.mem_entries_iff _ _ _).mp he]
  rfl

/-- The rows of a key among the files of a symbol. -/
private theorem files_filter (h : s.Placed) (k : Key) (symbol : String) :
    ((s.pathsOf none none symbol).flatten).filter (fun r => r.key = k) =
      if symbol = k.1 then (s.rowsAt (s.partOf k)).filter fun r => r.key = k else [] := by
  have hother (e : (String × Int) × List StoredRow) (he : e ∈ s.files.entries) (hne : e.1 ≠ s.partOf k) :
      e.2.filter (fun r => r.key = k) = [] := by
    rw [List.filter_eq_nil_iff]
    intro r hr hk
    rw [decide_eq_true_eq] at hk
    rw [← mem_rowsAt he] at hr
    rw [← h e.1 r hr, part_eq, hk] at hne
    exact hne rfl
  have hflat : ((s.pathsOf none none symbol).flatten).filter (fun r => r.key = k) =
      (s.files.entries.filter fun e => e.1.1 = symbol).flatMap fun e => e.2.filter fun r => r.key = k := by
    have hpaths : s.pathsOf none none symbol = (s.files.entries.filter fun e => e.1.1 = symbol).map Prod.snd := rfl
    rw [hpaths, List.filter_flatten, List.map_map, List.flatMap_def]
    rfl
  rw [hflat]
  split_ifs with hs
  · cases hg : s.files.get (s.partOf k) with
    | none =>
      rw [rowsAt, hg, Option.getD_none, List.filter_nil, List.flatMap_eq_nil_iff]
      intro e he
      refine hother e (List.mem_filter.mp he).1 fun hp => ?_
      have hget := (Dict.mem_entries_iff _ _ _).mp (List.mem_filter.mp he).1
      rw [hp, hg] at hget
      cases hget
    | some rows =>
      have hmem := (Dict.mem_entries_iff _ _ _).mpr hg
      have hin : (s.partOf k, rows) ∈ s.files.entries.filter fun e => e.1.1 = symbol :=
        List.mem_filter.mpr ⟨hmem, decide_eq_true hs.symm⟩
      rw [flatMap_single (List.Nodup.filter _ s.files.nodup.of_map) _ hin, rowsAt, hg, Option.getD_some]
      intro e he hne
      have he' := (List.mem_filter.mp he).1
      refine hother e he' fun hp => hne ?_
      have hget := (Dict.mem_entries_iff _ _ _).mp he'
      rw [hp, hg] at hget
      exact Prod.ext hp (Option.some.inj hget).symm
  · rw [List.flatMap_eq_nil_iff]
    intro e he
    obtain ⟨he', hsym⟩ := List.mem_filter.mp he
    refine hother e he' fun hp => hs ?_
    rw [decide_eq_true_eq, hp] at hsym
    exact hsym.symm

/-- Reading everything finds the rows of a key in its partition. -/
theorem read_all_filter (h : s.Placed) (k : Key) :
    ((s.read).filter fun r => r.key = k).Perm ((s.rowsAt (s.partOf k)).filter fun r => r.key = k) := by
  have hall (rows : List StoredRow) : rows.filter (inRange none none none) = rows :=
    List.filter_eq_self.mpr fun r _ => rfl
  have hread := (s.read_perm none none none none 100 none).filter fun r => r.key = k
  have heff : s.effectiveSymbols none none = s.allSymbols := rfl
  rw [hall, heff] at hread
  refine hread.trans (List.Perm.of_eq ?_)
  have hflat : ((s.allSymbols.flatMap (s.pathsOf none none)).flatten).filter (fun r => r.key = k) =
      s.allSymbols.flatMap fun symbol => ((s.pathsOf none none symbol).flatten).filter fun r => r.key = k := by
    induction s.allSymbols with
    | nil => rfl
    | cons symbol symbols ih =>
      rw [List.flatMap_cons, List.flatten_append, List.filter_append, ih, List.flatMap_cons]
  rw [hflat]
  simp only [files_filter h]
  by_cases hk : k.1 ∈ s.allSymbols
  · have hn : s.allSymbols.Nodup := (List.perm_insertionSort _ _).nodup_iff.mpr (nodup_uniques _)
    rw [flatMap_single hn _ hk fun y _ hy => if_neg hy, if_pos rfl]
  · have hnone : s.files.get (s.partOf k) = none := by
      rw [Dict.get_eq_none_iff]
      intro hm
      apply hk
      rw [allSymbols, List.mem_insertionSort, mem_uniques]
      exact List.mem_map.mpr ⟨_, hm, rfl⟩
    rw [rowsAt, hnone, Option.getD_none, List.filter_nil, List.flatMap_eq_nil_iff]
    intro symbol _
    exact ite_self _

end Rows

section Uniqueness

def Unduplicated (s : ParquetStorage) : Prop := ∀ p, Unique StoredRow.key (s.rowsAt p)

/-- A call whose frame has no key twice in a partition that it creates. -/
def Clean (s : ParquetStorage) (c : Call) : Prop :=
  ∀ p, s.files.get p = none → (((s.callRows c).filter fun r => s.part r = p).map StoredRow.key).Nodup

theorem unduplicated_apply (h : s.Unduplicated) (c : Call) : (s.apply c).Unduplicated ↔ s.Clean c := by
  refine forall_congr' fun p => ?_
  rw [rowsAt, apply_get, ← unique_iff_nodup]
  split_ifs with hnil
  · rw [hnil]
    refine iff_of_true (h p) fun _ => ?_
    rw [unique_iff_nodup]
    exact List.nodup_nil
  · rw [Option.getD_some, written]
    cases s.files.get p with
    | none => exact ⟨fun hu _ => hu, fun hu => hu rfl⟩
    | some existing => exact iff_of_true (unique_merge _ _) fun hc => by cases hc

/-- Repeating a clean call changes nothing. -/
theorem apply_apply {c : Call} (hc : s.Clean c) : (s.apply c).apply c = s.apply c := by
  have hgroups : (s.apply c).groups ((s.apply c).callRows c) = s.groups (s.callRows c) := by
    rw [callRows_apply, groups, groups, calendar_apply]
  have hfiles : (s.groups (s.callRows c)).foldl (write StoredRow.key) (s.apply c).files = (s.apply c).files := by
    apply foldl_write_self
    intro g hg
    obtain ⟨⟨r, hr, hp⟩, hrows⟩ := mem_groups.mp hg
    have hne : (s.callRows c).filter (fun r => s.part r = g.1) ≠ [] :=
      List.ne_nil_of_mem (List.mem_filter.mpr ⟨hr, decide_eq_true hp⟩)
    have hget := apply_get s c g.1
    rw [if_neg hne, ← hrows] at hget
    have hagain : written StoredRow.key (s.apply c).files g.1 g.2 =
        merge StoredRow.key (written StoredRow.key s.files g.1 g.2) g.2 := by
      rw [written, hget]
    rw [hget, hagain, written]
    have hc' := hc g.1
    rw [← hrows, ← unique_iff_nodup] at hc'
    cases hold : s.files.get g.1 with
    | none => rw [merge_self (hc' hold)]
    | some existing => rw [merge_merge]
  rw [apply_eq (s.apply c) c, hgroups, hfiles]

end Uniqueness

/-- Reading everything gives one row for each key that was written, the last one, and nothing else. -/
def Mirrors (s : ParquetStorage) (rows : List StoredRow) : Prop :=
  ∀ k, (s.read).filter (fun r => r.key = k) = (lastOf StoredRow.key k rows).toList

private theorem perm_toList {α : Type} {l l' : List α} (h : l.Perm l') (o : Option α) : l = o.toList ↔ l' = o.toList := by
  cases o with
  | none =>
    constructor
    · rintro rfl
      exact List.nil_perm.mp h
    · rintro rfl
      exact List.perm_nil.mp h
  | some a =>
    constructor
    · rintro rfl
      exact (List.singleton_perm.mp h).symm
    · rintro rfl
      exact List.perm_singleton.mp h

theorem mirrors_iff {s : ParquetStorage} (h : s.files = Dict.empty) (calls : List Call) :
    (s.run calls).Mirrors (s.history calls) ↔ (s.run calls).Unduplicated := by
  have hplaced := placed_run h calls
  have hread (k : Key) := perm_toList (read_all_filter hplaced k) (lastOf StoredRow.key k (s.history calls))
  refine (forall_congr' hread).trans ?_
  simp only [partOf_run, ← lastOf_rowsAt h calls]
  constructor
  · intro hall p k
    by_cases hp : s.partOf k = p
    · rw [← hp]
      exact hall k
    · have hnil : ((s.run calls).rowsAt p).filter (fun r => r.key = k) = [] := by
        rw [List.filter_eq_nil_iff]
        intro r hr hk
        rw [decide_eq_true_eq] at hk
        have hpr := hplaced p r hr
        rw [part_eq, hk, partOf_run] at hpr
        exact hp hpr
      rw [hnil, lastOf, hnil]
      rfl
  · intro hall k
    exact hall _ k

/-- The store is a map from keys to rows after every call, and repeating the call changes nothing,
exactly if no call brings a key twice into a partition that it creates. -/
theorem storage_refines_map (calendar : Calendar) (sessionFilter : Option SessionFilter) (calls : List Call) :
    (∀ pre, pre <+: calls →
      ((ParquetStorage.mk calendar sessionFilter Dict.empty).run pre).Mirrors
        ((ParquetStorage.mk calendar sessionFilter Dict.empty).history pre) ∧
      ∀ c, pre.getLast? = some c → ((ParquetStorage.mk calendar sessionFilter Dict.empty).run pre).apply c =
        (ParquetStorage.mk calendar sessionFilter Dict.empty).run pre) ↔
    Trace.Each (fun pre c => ((ParquetStorage.mk calendar sessionFilter Dict.empty).run pre).Clean c) calls := by
  generalize hs : ParquetStorage.mk calendar sessionFilter Dict.empty = s
  have h : s.files = Dict.empty := by rw [← hs]
  have hinit : s.Unduplicated := by
    intro p k
    rw [rowsAt, h]
    rfl
  have hstep : (∀ pre, pre <+: calls → (s.run pre).Unduplicated) ↔ Trace.Each (fun pre c => (s.run pre).Clean c) calls := by
    induction calls using List.reverseRecOn with
    | nil =>
      refine iff_of_true (fun pre hp => ?_) (.nil _)
      rw [List.prefix_nil.mp hp]
      exact hinit
    | append_singleton calls c ih =>
      rw [Trace.each_concat, ← ih]
      constructor
      · intro hall
        refine ⟨fun pre hp => hall pre (hp.trans (List.prefix_append _ _)), ?_⟩
        have hlast := hall (calls ++ [c]) (List.prefix_refl _)
        rw [run_concat] at hlast
        exact (unduplicated_apply (hall calls (List.prefix_append _ _)) c).mp hlast
      · rintro ⟨hall, hc⟩ pre hp
        rcases List.prefix_concat_iff.mp hp with rfl | hp
        · rw [run_concat]
          exact (unduplicated_apply (hall calls (List.prefix_refl _)) c).mpr hc
        · exact hall pre hp
  rw [← hstep]
  constructor
  · intro hall pre hp
    exact (mirrors_iff h pre).mp (hall pre hp).1
  · intro hall pre hp
    refine ⟨(mirrors_iff h pre).mpr (hall pre hp), fun c hc => ?_⟩
    obtain ⟨calls', rfl⟩ := List.getLast?_eq_some_iff.mp hc
    have hclean := (unduplicated_apply (hall calls' ((List.prefix_append _ _).trans hp)) c).mp
      (by rw [← run_concat]; exact hall _ hp)
    rw [run_concat, apply_apply hclean]

private def tenOClock (close : Rat) : FrameRow where
  symbol := "SBIN"
  exchange := "NSE"
  timeframe := "5m"
  timestamp := { wall := 1704189600 * MICROS }
  close := some close

/-- One frame that brings a bar and its correction: the first file of the month has both. -/
theorem duplicate_in_first_frame :
    ¬ ((ParquetStorage.mk Calendar.january none Dict.empty).run [([tenOClock 600, tenOClock 601], none)]).Mirrors
      ((ParquetStorage.mk Calendar.january none Dict.empty).history [([tenOClock 600, tenOClock 601], none)]) := by
  intro h
  have hread : ((((ParquetStorage.mk Calendar.january none Dict.empty).run [([tenOClock 600, tenOClock 601], none)]).read).filter
      fun r => r.key = ("SBIN", "5m", 1704189600 * MICROS)).length = 2 := by decide +kernel
  rw [h] at hread
  cases hl : lastOf StoredRow.key ("SBIN", "5m", 1704189600 * MICROS)
      ((ParquetStorage.mk Calendar.january none Dict.empty).history [([tenOClock 600, tenOClock 601], none)]) with
  | none =>
    rw [hl] at hread
    cases hread
  | some r =>
    rw [hl] at hread
    cases hread

end ParquetStorage
end NTrade.Data
