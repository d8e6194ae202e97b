import Mathlib.Data.List.Nodup
import Mathlib.Data.List.Basic
import Mathlib.Data.List.Induction
import Mathlib.Algebra.BigOperators.Group.List.Basic
import Mathlib.Tactic.Abel

/-! Insertion-ordered dictionaries. Assigning to a present key keeps its place, a new
key goes to the end, and iteration follows the order of insertion. -/
namespace NTrade.Lib

/-- An association list in which no key occurs twice. -/
structure Dict (κ ν : Type*) where
  entries : List (κ × ν)
  nodup : (entries.map Prod.fst).Nodup

namespace Dict
variable {κ ν : Type*}

def empty : Dict κ ν := ⟨[], List.nodup_nil⟩

def keys (d : Dict κ ν) : List κ := d.entries.map Prod.fst

def values (d : Dict κ ν) : List ν := d.entries.map Prod.snd

def size (d : Dict κ ν) : Nat := d.entries.length

@[simp] theorem length_keys (d : Dict κ ν) : d.keys.length = d.size := by simp [keys, size]

theorem keys_nodup (d : Dict κ ν) : d.keys.Nodup := d.nodup

private theorem append_nodup (d : Dict κ ν) (k : κ) (v : ν) (h : k ∉ d.keys) :
    ((d.entries ++ [(k, v)]).map Prod.fst).Nodup := by
  rw [List.map_append]
  refine List.Nodup.append d.nodup (List.nodup_singleton k) ?_
  intro a ha hk
  obtain rfl : a = k := List.mem_singleton.mp hk
  exact h ha

variable [DecidableEq κ]

def get (d : Dict κ ν) (k : κ) : Option ν := (d.entries.find? (fun e => e.1 = k)).map Prod.snd

def getD (d : Dict κ ν) (k : κ) (default : ν) : ν := (d.get k).getD default

/-- Apply `f` to the value at `k`, if there is one. -/
def modify (d : Dict κ ν) (k : κ) (f : ν → ν) : Dict κ ν where
  entries := d.entries.map fun e => if e.1 = k then (e.1, f e.2) else e
  nodup := by
    have h : (Prod.fst ∘ fun e : κ × ν => if e.1 = k then (e.1, f e.2) else e) = Prod.fst := by
      funext e; simp only [Function.comp]; split <;> rfl
    rw [List.map_map, h]
    exact d.nodup

def set (d : Dict κ ν) (k : κ) (v : ν) : Dict κ ν :=
  if h : k ∈ d.keys then d.modify k (fun _ => v)
  else ⟨d.entries ++ [(k, v)], append_nodup d k v h⟩

def pop (d : Dict κ ν) (k : κ) : Dict κ ν where
  entries := d.entries.filter fun e => e.1 ≠ k
  nodup := d.nodup.sublist ((List.filter_sublist).map Prod.fst)

theorem get_eq_none_iff (d : Dict κ ν) (k : κ) : d.get k = none ↔ k ∉ d.keys := by
  simp only [get, keys, Option.map_eq_none_iff, List.find?_eq_none, decide_eq_true_eq,
    List.mem_map, not_exists, not_and]

theorem mem_keys_iff (d : Dict κ ν) (k : κ) : k ∈ d.keys ↔ ∃ v, d.get k = some v := by
  rw [← Option.isSome_iff_exists, ← not_iff_not, ← get_eq_none_iff, Option.not_isSome_iff_eq_none]

theorem mem_entries_iff (d : Dict κ ν) (k : κ) (v : ν) : (k, v) ∈ d.entries ↔ d.get k = some v := by
  constructor
  · intro h
    cases hf : d.entries.find? (fun e => e.1 = k) with
    | none =>
      have hn := List.find?_eq_none.mp hf (k, v) h
      simp at hn
    | some e =>
      have he := List.find?_some hf
      simp only [decide_eq_true_eq] at he
      have hinj := List.inj_on_of_nodup_map d.nodup h (List.mem_of_find?_eq_some hf) he.symm
      simp [get, hf, ← hinj]
  · intro h
    obtain ⟨e, hf, rfl⟩ := Option.map_eq_some_iff.mp h
    have he := List.find?_some hf
    simp only [decide_eq_true_eq] at he
    exact he ▸ List.mem_of_find?_eq_some hf

theorem get_modify (d : Dict κ ν) (k j : κ) (f : ν → ν) :
    (d.modify k f).get j = if j = k then (d.get j).map f else d.get j := by
  have hp : ((fun e : κ × ν => decide (e.1 = j)) ∘ fun e => if e.1 = k then (e.1, f e.2) else e) =
      fun e => decide (e.1 = j) := by
    funext e; simp only [Function.comp]; split <;> rfl
  simp only [get, modify, List.find?_map, hp, Option.map_map]
  by_cases hj : j = k
  · subst hj
    rw [if_pos rfl]
    cases hf : d.entries.find? (fun e => e.1 = j) with
    | none => rfl
    | some e =>
      have he := List.find?_some hf
      simp only [decide_eq_true_eq] at he
      simp [he]
  · rw [if_neg hj]
    cases hf : d.entries.find? (fun e => e.1 = j) with
    | none => rfl
    | some e =>
      have he := List.find?_some hf
      simp only [decide_eq_true_eq] at he
      simp [he, hj]

theorem get_set (d : Dict κ ν) (k j : κ) (v : ν) :
    (d.set k v).get j = if j = k then some v else d.get j := by
  unfold set
  split
  next h =>
    rw [get_modify]
    by_cases hj : j = k
    · subst hj
      obtain ⟨u, hu⟩ := (mem_keys_iff d j).mp h
      simp [hu]
    · simp [hj]
  next h =>
    have hn := (get_eq_none_iff d k).mpr h
    simp only [get, List.find?_append] at hn ⊢
    by_cases hj : j = k
    · subst hj
      have hf : d.entries.find? (fun e => e.1 = j) = none := by simpa using hn
      simp [hf]
    · cases d.entries.find? (fun e => e.1 = j) <;> simp [hj, Ne.symm hj]

theorem get_set_self (d : Dict κ ν) (k : κ) (v : ν) : (d.set k v).get k = some v := by rw [get_set, if_pos rfl]

theorem get_set_of_ne {j k : κ} (h : j ≠ k) (d : Dict κ ν) (v : ν) : (d.set k v).get j = d.get j := by
  rw [get_set, if_neg h]

/-- A new key goes to the end. -/
theorem entries_set_of_not_mem {d : Dict κ ν} {k : κ} (h : k ∉ d.keys) (v : ν) :
    (d.set k v).entries = d.entries ++ [(k, v)] := by
  rw [set, dif_neg h]

theorem get_pop (d : Dict κ ν) (k j : κ) :
    (d.pop k).get j = if j = k then none else d.get j := by
  simp only [get, pop, List.find?_filter]
  by_cases hj : j = k
  · subst hj
    rw [if_pos rfl]
    simp
  · rw [if_neg hj]
    congr 2
    funext e
    by_cases he : e.1 = j <;> simp [he, hj]

theorem keys_pop (d : Dict κ ν) (k : κ) : (d.pop k).keys = d.keys.filter (· ≠ k) := by
  simp only [keys, pop, List.filter_map]
  rfl

theorem keys_set_of_not_mem {d : Dict κ ν} {k : κ} (h : k ∉ d.keys) (v : ν) : (d.set k v).keys = d.keys ++ [k] := by
  rw [keys, entries_set_of_not_mem h, List.map_append]
  rfl

theorem mem_keys_set (d : Dict κ ν) (k j : κ) (v : ν) : j ∈ (d.set k v).keys ↔ j = k ∨ j ∈ d.keys := by
  rw [mem_keys_iff, get_set, mem_keys_iff]
  by_cases h : j = k <;> simp [h]

/-- A key has one entry at most. -/
theorem filter_key (d : Dict κ ν) (k : κ) :
    d.entries.filter (fun e => e.1 = k) = ((d.get k).map fun v => (k, v)).toList := by
  have hnone {entries : List (κ × ν)} (h : k ∉ entries.map Prod.fst) : entries.filter (fun e => e.1 = k) = [] := by
    rw [List.filter_eq_nil_iff]
    intro e he hk
    rw [decide_eq_true_eq] at hk
    rw [← hk] at h
    exact h (List.mem_map_of_mem he)
  cases hg : d.get k with
  | none => exact hnone ((get_eq_none_iff d k).mp hg)
  | some v =>
    obtain ⟨before, after, he⟩ := List.append_of_mem ((mem_entries_iff d k v).mpr hg)
    have hn := d.nodup
    rw [he, List.map_append, List.map_cons] at hn
    have hk := (List.nodup_cons.mp (List.nodup_middle.mp hn)).1
    rw [he, List.filter_append, hnone fun h => hk (List.mem_append_left _ h), List.filter_cons,
      if_pos (by simp), hnone fun h => hk (List.mem_append_right _ h)]
    rfl

private theorem map_modify_of_not_mem {k : κ} {f : ν → ν} {entries : List (κ × ν)} (h : k ∉ entries.map Prod.fst) :
    (entries.map fun e => if e.1 = k then (e.1, f e.2) else e) = entries := by
  have hid : ∀ e ∈ entries, (if e.1 = k then (e.1, f e.2) else e) = id e := by
    intro e he
    refine if_neg fun hk => h ?_
    rw [← hk]
    exact List.mem_map_of_mem he
  rw [List.map_congr_left hid, List.map_id]

theorem modify_of_none {d : Dict κ ν} {k : κ} {f : ν → ν} (h : d.get k = none) : d.modify k f = d := by
  obtain ⟨entries, hn⟩ := d
  simp only [modify, mk.injEq]
  exact map_modify_of_not_mem ((get_eq_none_iff _ k).mp h)

/-- Assigning what is there changes nothing. -/
theorem set_eq_self {d : Dict κ ν} {k : κ} {v : ν} (h : d.get k = some v) : d.set k v = d := by
  rw [set, dif_pos ((mem_keys_iff d k).mpr ⟨v, h⟩)]
  have hid : ∀ e ∈ d.entries, (if e.1 = k then (e.1, v) else e) = id e := by
    intro e he
    split
    · next hk =>
      have hv := (mem_entries_iff d e.1 e.2).mp he
      rw [hk, h] at hv
      exact Prod.ext rfl (Option.some.inj hv)
    · rfl
  obtain ⟨entries, hn⟩ := d
  simp only [modify, mk.injEq]
  rw [List.map_congr_left hid, List.map_id]

section Map
variable {ω : Type*} (f : ν → ω)

def map (d : Dict κ ν) : Dict κ ω where
  entries := d.entries.map fun e => (e.1, f e.2)
  nodup := by
    have h : (Prod.fst ∘ fun e : κ × ν => (e.1, f e.2)) = Prod.fst := rfl
    rw [List.map_map, h]
    exact d.nodup

omit [DecidableEq κ] in
@[simp] theorem keys_map (d : Dict κ ν) : (d.map f).keys = d.keys := by
  simp [keys, map, Function.comp_def]

@[simp] theorem get_map (d : Dict κ ν) (k : κ) : (d.map f).get k = (d.get k).map f := by
  simp only [get, map, List.find?_map, Option.map_map]
  rfl

omit [DecidableEq κ] in
private theorem ext_entries {d d' : Dict κ ν} (h : d.entries = d'.entries) : d = d' := by
  cases d
  cases d'
  cases h
  rfl

theorem map_set (d : Dict κ ν) (k : κ) (v : ν) : (d.set k v).map f = (d.map f).set k (f v) := by
  apply ext_entries
  rw [set, set]
  simp only [keys_map]
  split
  · simp only [map, modify, List.map_map]
    apply List.map_congr_left
    intro e he
    simp only [Function.comp]
    split <;> rfl
  · simp [map]

theorem map_pop (d : Dict κ ν) (k : κ) : (d.pop k).map f = (d.map f).pop k := by
  apply ext_entries
  simp only [map, pop, List.filter_map]
  rfl

theorem map_modify (d : Dict κ ν) (k : κ) {g : ν → ν} {g' : ω → ω} (h : ∀ v, f (g v) = g' (f v)) :
    (d.modify k g).map f = (d.map f).modify k g' := by
  apply ext_entries
  simp only [map, modify, List.map_map]
  apply List.map_congr_left
  intro e he
  simp only [Function.comp]
  split
  · rw [h]
  · rfl

/-- A change that the map does not see. -/
theorem map_modify_of_eq (d : Dict κ ν) (k : κ) {g : ν → ν} (h : ∀ v, f (g v) = f v) : (d.modify k g).map f = d.map f := by
  apply ext_entries
  simp only [map, modify, List.map_map]
  apply List.map_congr_left
  intro e he
  simp only [Function.comp]
  split
  · rw [h]
  · rfl

end Map

section Total
variable {M : Type*} [AddCommGroup M] (g : ν → M)

def total (d : Dict κ ν) : M := (d.entries.map fun e => g e.2).sum

theorem total_modify {d : Dict κ ν} {k : κ} {v : ν} {f : ν → ν} (h : d.get k = some v) :
    (d.modify k f).total g = d.total g - g v + g (f v) := by
  have hm := (mem_entries_iff d k v).mpr h
  obtain ⟨before, after, he⟩ := List.append_of_mem hm
  have hn : (before.map Prod.fst ++ k :: after.map Prod.fst).Nodup := by
    have hn := d.nodup
    rw [he, List.map_append, List.map_cons] at hn
    exact hn
  have hk := (List.nodup_cons.mp (List.nodup_middle.mp hn)).1
  have hb : k ∉ before.map Prod.fst := fun h => hk (List.mem_append_left _ h)
  have ha : k ∉ after.map Prod.fst := fun h => hk (List.mem_append_right _ h)
  simp only [total, modify, he, List.map_append, List.map_cons, map_modify_of_not_mem hb, map_modify_of_not_mem ha,
    if_true, List.sum_append, List.sum_cons]
  abel

theorem total_set {d : Dict κ ν} {k : κ} {v : ν} :
    (d.set k v).total g = d.total g - ((d.get k).map g).getD 0 + g v := by
  unfold set
  split
  · next h =>
    obtain ⟨u, hu⟩ := (mem_keys_iff d k).mp h
    rw [total_modify g hu, hu]
    rfl
  · next h =>
    rw [(get_eq_none_iff d k).mpr h]
    simp [total]

theorem total_pop (d : Dict κ ν) (k : κ) : (d.pop k).total g = d.total g - ((d.get k).map g).getD 0 := by
  have hsplit : d.total g = (d.pop k).total g + ((d.entries.filter fun e => e.1 = k).map fun e => g e.2).sum := by
    simp only [total, pop]
    induction d.entries with
    | nil => simp
    | cons e entries ih =>
      by_cases h : e.1 = k
      · simp only [h, List.filter_cons, List.map_cons, List.sum_cons, ih, ne_eq, not_true_eq_false, decide_false,
          decide_true, if_true, Bool.false_eq_true, if_false]
        abel
      · simp only [h, List.filter_cons, List.map_cons, List.sum_cons, ih, ne_eq, not_false_eq_true, decide_false,
          decide_true, if_true, Bool.false_eq_true, if_false]
        abel
  rw [hsplit, filter_key]
  cases d.get k <;> simp

/-- A table with the same rows has the same sum. -/
theorem total_eq_sum {d : Dict κ ν} {rows : List (κ × ν)} (hn : (rows.map Prod.fst).Nodup)
    (h : ∀ k v, (k, v) ∈ rows ↔ d.get k = some v) : d.total g = (rows.map fun e => g e.2).sum := by
  have hperm : d.entries.Perm rows := by
    apply (List.perm_ext_iff_of_nodup (List.Nodup.of_map _ d.nodup) (List.Nodup.of_map _ hn)).mpr
    intro e
    exact (mem_entries_iff d e.1 e.2).trans (h e.1 e.2).symm
  exact (hperm.map _).sum_eq

end Total

/-- Overwriting the last entry leaves the others. -/
theorem entries_set_last {d : Dict κ ν} {l : List (κ × ν)} {k : κ} {u : ν} (h : d.entries = l ++ [(k, u)]) (v : ν) :
    (d.set k v).entries = l ++ [(k, v)] := by
  have hnodup := d.nodup
  rw [h, List.map_append, List.map_singleton] at hnodup
  have hk : k ∉ l.map Prod.fst := fun hk =>
    (List.nodup_append.mp hnodup).2.2 k hk k (List.mem_singleton_self k) rfl
  have hmem : k ∈ d.keys := by
    rw [keys, h, List.map_append]
    exact List.mem_append_right _ (List.mem_singleton_self k)
  have hset : (d.set k v).entries = d.entries.map fun e => if e.1 = k then (e.1, v) else e := by
    rw [set, dif_pos hmem]
    rfl
  rw [hset, h, List.map_append, @map_modify_of_not_mem _ _ _ k (fun _ => v) l hk]
  simp

def collect (key : ν → κ) (rows : List ν) : Dict κ ν := rows.foldl (fun d row => d.set (key row) row) empty

theorem get_collect (key : ν → κ) (rows : List ν) (k : κ) :
    (collect key rows).get k = (rows.filter fun row => key row = k).getLast? := by
  induction rows using List.reverseRecOn with
  | nil => rfl
  | append_singleton rows row ih =>
    have hc : collect key (rows ++ [row]) = (collect key rows).set (key row) row := by simp [collect]
    rw [hc, get_set, ih, List.filter_append]
    by_cases h : k = key row
    · simp [h]
    · simp [h, Ne.symm h]

/-- The rows that are there are under their own keys, and each is the last of its key. -/
theorem filter_values_collect (key : ν → κ) (rows : List ν) (k : κ) :
    (collect key rows).values.filter (fun row => key row = k) =
      (rows.filter fun row => key row = k).getLast?.toList := by
  have hkey {e : κ × ν} (he : e ∈ (collect key rows).entries) : key e.2 = e.1 := by
    have hget := (mem_entries_iff _ e.1 e.2).mp he
    rw [get_collect] at hget
    simpa using (List.mem_filter.mp (List.mem_of_getLast? hget)).2
  have hentries : (collect key rows).entries.filter (fun e => key e.2 = k) =
      (collect key rows).entries.filter fun e => e.1 = k := by
    apply List.filter_congr
    intro e he
    rw [hkey he]
  rw [values, List.filter_map]
  simp only [Function.comp_def]
  rw [hentries, filter_key, get_collect]
  cases (rows.filter fun row => key row = k).getLast? <;> rfl

def group (key : ν → κ) (rows : List ν) : Dict κ (List ν) :=
  rows.foldl (fun d row => d.set (key row) (d.getD (key row) [] ++ [row])) empty

theorem getD_group (key : ν → κ) (rows : List ν) (k : κ) :
    (group key rows).getD k [] = rows.filter fun row => key row = k := by
  induction rows using List.reverseRecOn with
  | nil => rfl
  | append_singleton rows row ih =>
    have hg : group key (rows ++ [row]) =
        (group key rows).set (key row) ((group key rows).getD (key row) [] ++ [row]) := by simp [group]
    rw [hg, List.filter_append, ← ih]
    by_cases h : k = key row
    · subst h
      rw [getD, get_set_self]
      simp
    · rw [getD, get_set_of_ne h]
      simp [getD, Ne.symm h]

theorem mem_keys_group (key : ν → κ) (rows : List ν) (k : κ) : k ∈ (group key rows).keys ↔ ∃ row ∈ rows, key row = k := by
  induction rows using List.reverseRecOn with
  | nil => exact ⟨nofun, fun ⟨_, h, _⟩ => nomatch h⟩
  | append_singleton rows row ih =>
    have hg : group key (rows ++ [row]) =
        (group key rows).set (key row) ((group key rows).getD (key row) [] ++ [row]) := by simp [group]
    rw [hg, mem_keys_set, ih]
    constructor
    · rintro (rfl | ⟨row', hr, rfl⟩)
      · exact ⟨row, by simp, rfl⟩
      · exact ⟨row', by simp [hr], rfl⟩
    · rintro ⟨row', hr, rfl⟩
      rcases List.mem_append.mp hr with hr | hr
      · exact .inr ⟨row', hr, rfl⟩
      · exact .inl (by rw [List.mem_singleton.mp hr])

end Dict
end NTrade.Lib
