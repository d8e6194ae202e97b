import NTrade.Lib.Dict

/-! Rows of which the last one of a key counts: rows without the ones overwritten, and partitions of
rows that are merged with what comes in. -/
namespace NTrade.Lib.LastWrite
variable {α κ : Type*} [DecidableEq κ] (key : α → κ)

def lastOf (k : κ) (rows : List α) : Option α := (rows.filter fun r => key r = k).getLast?

/-- `drop_duplicates(keep="last")`. -/
def keepLast : List α → List α
  | [] => []
  | r :: rows => if rows.any fun r' => key r' = key r then keepLast rows else r :: keepLast rows

def without (rows incoming : List α) : List α := rows.filter fun r => !incoming.any fun r' => key r' = key r

/-- The rows of a partition, and of what comes in over what it overwrites, each key once. -/
def merge (existing incoming : List α) : List α :=
  keepLast key (existing ++ (without key existing incoming ++ incoming))

variable {key}

theorem lastOf_append (k : κ) (rows rows' : List α) :
    lastOf key k (rows ++ rows') = (lastOf key k rows').or (lastOf key k rows) := by
  rw [lastOf, List.filter_append, List.getLast?_append]
  rfl

theorem lastOf_eq_none {k : κ} {rows : List α} : lastOf key k rows = none ↔ ∀ r ∈ rows, key r ≠ k := by
  simp [lastOf]

theorem any_key {k : κ} {rows : List α} : (rows.any fun r => key r = k) = (lastOf key k rows).isSome := by
  rw [Bool.eq_iff_iff, List.any_eq_true, Option.isSome_iff_ne_none, ne_eq, lastOf_eq_none]
  push Not
  simp

/-- One row is kept for each key, and it is the last. -/
theorem filter_keepLast (k : κ) (rows : List α) :
    (keepLast key rows).filter (fun r => key r = k) = (lastOf key k rows).toList := by
  induction rows with
  | nil => rfl
  | cons r rows ih =>
    have hcons : lastOf key k (r :: rows) = (lastOf key k rows).or (if key r = k then some r else none) := by
      have h : lastOf key k ([r] ++ rows) = (lastOf key k rows).or (lastOf key k [r]) := lastOf_append k [r] rows
      rw [List.singleton_append] at h
      rw [h]
      congr 1
      by_cases hk : key r = k <;> simp [lastOf, hk]
    rw [keepLast, hcons, any_key]
    by_cases hk : key r = k
    · subst hk
      cases hl : lastOf key (key r) rows with
      | none =>
        rw [Option.isSome_none, if_neg (by decide), List.filter_cons, if_pos (by simp), ih, hl]
        simp
      | some r' =>
        rw [Option.isSome_some, if_pos rfl, ih, hl]
        rfl
    · rw [if_neg hk, Option.or_none]
      split
      · exact ih
      · rw [List.filter_cons, if_neg (by simpa using hk), ih]

def Unique (key : α → κ) (rows : List α) : Prop := ∀ k, rows.filter (fun r => key r = k) = (lastOf key k rows).toList

private theorem eq_getLast?_iff (l : List α) : l = l.getLast?.toList ↔ l.length ≤ 1 := by
  rcases List.eq_nil_or_concat l with rfl | ⟨l', r, rfl⟩
  · simp
  · rw [List.concat_eq_append, List.getLast?_concat, Option.toList_some, List.length_append, List.length_singleton,
      List.append_left_eq_self]
    rw [← List.length_eq_zero_iff]
    omega

private theorem length_filter_key (k : κ) (rows : List α) :
    (rows.filter fun r => key r = k).length = (rows.map key).count k := by
  induction rows with
  | nil => rfl
  | cons r rows ih => by_cases h : key r = k <;> simp [h, ih]

theorem unique_iff_nodup {rows : List α} : Unique key rows ↔ (rows.map key).Nodup := by
  rw [List.nodup_iff_count_le_one]
  refine forall_congr' fun k => ?_
  rw [lastOf, eq_getLast?_iff, length_filter_key]

theorem lastOf_keepLast (k : κ) (rows : List α) : lastOf key k (keepLast key rows) = lastOf key k rows := by
  rw [lastOf, filter_keepLast]
  cases lastOf key k rows <;> rfl

theorem unique_keepLast (rows : List α) : Unique key (keepLast key rows) := by
  intro k
  rw [filter_keepLast, lastOf_keepLast]

theorem keepLast_of_unique {rows : List α} (h : Unique key rows) : keepLast key rows = rows := by
  rw [unique_iff_nodup] at h
  induction rows with
  | nil => rfl
  | cons r rows ih =>
    obtain ⟨hr, hrows⟩ := List.nodup_cons.mp h
    have hany : (rows.any fun r' => key r' = key r) = false := by
      rw [List.any_eq_false]
      intro r' hr' hk
      rw [decide_eq_true_eq] at hk
      exact hr (List.mem_map.mpr ⟨r', hr', hk⟩)
    rw [keepLast, hany, ih hrows]
    rfl

theorem keepLast_sublist (rows : List α) : (keepLast key rows).Sublist rows := by
  induction rows with
  | nil => exact List.Sublist.refl _
  | cons r rows ih =>
    rw [keepLast]
    split
    · exact ih.cons r
    · exact ih.cons_cons r

/-- A row is kept if it is the last one of its key. -/
theorem mem_keepLast {r : α} {rows : List α} : r ∈ keepLast key rows ↔ lastOf key (key r) rows = some r := by
  have hfilter : r ∈ keepLast key rows ↔ r ∈ (keepLast key rows).filter fun r' => key r' = key r := by
    simp [List.mem_filter]
  rw [hfilter, filter_keepLast, Option.mem_toList]

theorem nodup_keepLast (rows : List α) : ((keepLast key rows).map key).Nodup :=
  unique_iff_nodup.mp (unique_keepLast rows)

/-- Rows with the same last one of every key keep the same rows. -/
theorem keepLast_perm {rows rows' : List α} (h : ∀ k, lastOf key k rows = lastOf key k rows') :
    (keepLast key rows).Perm (keepLast key rows') := by
  rw [List.perm_ext_iff_of_nodup (nodup_keepLast rows).of_map (nodup_keepLast rows').of_map]
  intro r
  rw [mem_keepLast, mem_keepLast, h]

/-- The order of rows does not matter for the last one, if each key has one at most. -/
theorem lastOf_perm {rows rows' : List α} (h : rows.Perm rows') (hn : (rows'.map key).Nodup) (k : κ) :
    lastOf key k rows = lastOf key k rows' := by
  have hfilter : (rows.filter fun r => key r = k).Perm (rows'.filter fun r => key r = k) := h.filter _
  have hlast := unique_iff_nodup.mpr hn k
  rw [lastOf, lastOf]
  cases hl : lastOf key k rows' with
  | none =>
    rw [hl] at hlast
    rw [hlast] at hfilter ⊢
    rw [List.perm_nil.mp hfilter]
    rfl
  | some r =>
    rw [hl] at hlast
    rw [hlast] at hfilter ⊢
    rw [List.perm_singleton.mp hfilter]
    rfl

/-- The rows that a later one of their key overwrites. -/
def overwritten (key : α → κ) : List α → List α
  | [] => []
  | r :: rows => if rows.any fun r' => key r' = key r then r :: overwritten key rows else overwritten key rows

theorem perm_keepLast (rows : List α) : (keepLast key rows ++ overwritten key rows).Perm rows := by
  induction rows with
  | nil => exact List.Perm.refl _
  | cons r rows ih =>
    rw [keepLast, overwritten]
    split
    · exact List.perm_middle.trans (ih.cons r)
    · exact ih.cons r

private theorem without_cons (r : α) (rows rows' : List α) :
    without key (r :: rows) rows' =
      if rows'.any fun r' => key r' = key r then without key rows rows' else r :: without key rows rows' := by
  rw [without, List.filter_cons]
  cases rows'.any fun r' => key r' = key r <;> rfl

theorem without_eq_nil {rows rows' : List α} (h : ∀ r ∈ rows, (rows'.any fun r' => key r' = key r) = true) :
    without key rows rows' = [] := by
  rw [without, List.filter_eq_nil_iff]
  intro r hr
  rw [h r hr]
  decide

theorem without_eq_self {rows rows' : List α} (h : ∀ r ∈ rows, (rows'.any fun r' => key r' = key r) = false) :
    without key rows rows' = rows := by
  rw [without, List.filter_eq_self]
  intro r hr
  rw [h r hr]
  rfl

theorem not_any_of_mem_without {rows rows' : List α} {r : α} (h : r ∈ without key rows rows') :
    (rows'.any fun r' => key r' = key r) = false := by
  have hr := (List.mem_filter.mp h).2
  rwa [Bool.not_eq_true'] at hr

theorem any_self {rows : List α} {r : α} (h : r ∈ rows) : (rows.any fun r' => key r' = key r) = true :=
  List.any_eq_true.mpr ⟨r, h, by simp⟩

theorem keepLast_append (rows rows' : List α) :
    keepLast key (rows ++ rows') = keepLast key (without key rows rows') ++ keepLast key rows' := by
  induction rows with
  | nil => rfl
  | cons r rows ih =>
    rw [List.cons_append, keepLast, List.any_append, ih, without_cons]
    cases h' : rows'.any fun r' => key r' = key r with
    | true => simp
    | false =>
      have hany : ((without key rows rows').any fun r' => key r' = key r) = rows.any fun r' => key r' = key r := by
        rw [without, List.any_filter]
        congr 1
        funext r'
        by_cases hk : key r' = key r
        · simp [hk, h']
        · simp [hk]
      simp only [Bool.or_false, Bool.false_eq_true, if_false]
      rw [keepLast, hany]
      split <;> rfl

private theorem merge_eq (existing incoming : List α) :
    merge key existing incoming = keepLast key (without key existing incoming) ++ keepLast key incoming := by
  have hnil : without key existing (without key existing incoming ++ incoming) = [] := by
    apply without_eq_nil
    intro r hr
    rw [List.any_append]
    cases h : incoming.any fun r' => key r' = key r with
    | true => exact Bool.or_true _
    | false =>
      have hw : r ∈ without key existing incoming := List.mem_filter.mpr ⟨hr, by rw [h]; rfl⟩
      rw [any_self hw]
      rfl
  rw [merge, keepLast_append, hnil, keepLast_append, without_eq_self fun r hr => not_any_of_mem_without hr]
  rfl

/-- What comes in is over what was there. -/
theorem lastOf_merge (k : κ) (existing incoming : List α) :
    lastOf key k (merge key existing incoming) = (lastOf key k incoming).or (lastOf key k existing) := by
  rw [merge_eq, lastOf_append, lastOf_keepLast, lastOf_keepLast]
  cases h : lastOf key k incoming with
  | some r => rfl
  | none =>
    have hf : (without key existing incoming).filter (fun r => key r = k) = existing.filter fun r => key r = k := by
      rw [without, List.filter_filter]
      apply List.filter_congr
      intro r _
      by_cases hk : key r = k
      · rw [hk, any_key, h, Option.isSome_none, Bool.not_false, Bool.and_true]
      · simp [hk]
    rw [Option.none_or, Option.none_or, lastOf, hf, lastOf]

theorem unique_merge (existing incoming : List α) : Unique key (merge key existing incoming) := unique_keepLast _

/-- Merging the same rows again changes nothing. -/
theorem merge_merge (existing incoming : List α) :
    merge key (merge key existing incoming) incoming = merge key existing incoming := by
  have hw : without key (merge key existing incoming) incoming = keepLast key (without key existing incoming) := by
    rw [merge_eq, without, List.filter_append, ← without, ← without,
      without_eq_self fun r hr => not_any_of_mem_without ((keepLast_sublist _).subset hr),
      without_eq_nil fun r hr => any_self ((keepLast_sublist _).subset hr), List.append_nil]
  rw [merge_eq (merge key existing incoming), hw, keepLast_of_unique (unique_keepLast _), ← merge_eq]

theorem merge_self {rows : List α} (h : Unique key rows) : merge key rows rows = rows := by
  rw [merge_eq, without_eq_nil fun r hr => any_self hr, keepLast_of_unique h]
  rfl

section Partitions
variable {π : Type*} [DecidableEq π] (part : α → π)

/-- Write the rows of a partition: into a new one as they are, into one that exists merged. -/
def write (key : α → κ) (store : Dict π (List α)) (g : π × List α) : Dict π (List α) :=
  store.set g.1 (match store.get g.1 with
    | none => g.2
    | some existing => merge key existing g.2)

/-- The rows that a partition has after a write. -/
def written (key : α → κ) (store : Dict π (List α)) (p : π) (rows : List α) : List α :=
  match store.get p with
  | none => rows
  | some existing => merge key existing rows

theorem get_write (store : Dict π (List α)) (g : π × List α) (p : π) :
    (write key store g).get p = if p = g.1 then some (written key store p g.2) else store.get p := by
  rw [write, Dict.get_set]
  by_cases h : p = g.1
  · rw [if_pos h, if_pos h, written, h]
  · rw [if_neg h, if_neg h]

/-- Writes of different partitions do not meet. -/
theorem get_foldl_write {groups : List (π × List α)} (hn : (groups.map Prod.fst).Nodup) (store : Dict π (List α)) (p : π) :
    (groups.foldl (write key) store).get p =
      match groups.find? fun g => g.1 = p with
      | none => store.get p
      | some g => some (written key store p g.2) := by
  induction groups generalizing store with
  | nil => rfl
  | cons g groups ih =>
    obtain ⟨hg, hn'⟩ := List.nodup_cons.mp hn
    rw [List.foldl_cons, ih hn', List.find?_cons]
    by_cases h : g.1 = p
    · have hnone : groups.find? (fun g => g.1 = p) = none := by
        rw [List.find?_eq_none]
        intro g' hg' hp
        rw [decide_eq_true_eq, ← h] at hp
        exact hg (List.mem_map.mpr ⟨g', hg', hp⟩)
      simp [hnone, h, get_write]
    · have hw : written key (write key store g) p = written key store p := by
        funext rows
        rw [written, get_write, if_neg (Ne.symm h), written]
      simp [h, hw, get_write, Ne.symm h]

/-- Writing what the partitions have already changes nothing. -/
theorem foldl_write_self {groups : List (π × List α)} {store : Dict π (List α)}
    (h : ∀ g ∈ groups, store.get g.1 = some (written key store g.1 g.2)) : groups.foldl (write key) store = store := by
  induction groups with
  | nil => rfl
  | cons g groups ih =>
    have hg : write key store g = store := Dict.set_eq_self (h g List.mem_cons_self)
    rw [List.foldl_cons, hg]
    exact ih fun g' hg' => h g' (List.mem_cons_of_mem _ hg')

end Partitions

section Uniques
variable {γ : Type*} [DecidableEq γ]

/-- The values of a list in the order they first appear. -/
def uniques : List γ → List γ
  | [] => []
  | x :: xs => x :: (uniques xs).filter (· ≠ x)

theorem mem_uniques {x : γ} {xs : List γ} : x ∈ uniques xs ↔ x ∈ xs := by
  induction xs with
  | nil => rfl
  | cons y xs ih =>
    rw [uniques, List.mem_cons, List.mem_filter, ih, List.mem_cons, decide_eq_true_eq]
    by_cases h : x = y <;> simp [h]

theorem nodup_uniques (xs : List γ) : (uniques xs).Nodup := by
  induction xs with
  | nil => exact List.nodup_nil
  | cons x xs ih =>
    rw [uniques, List.nodup_cons]
    exact ⟨fun h => by simp at h, ih.filter _⟩

end Uniques

end NTrade.Lib.LastWrite
