import NTrade.Lib.Dict
import NTrade.Lib.Trace
import Mathlib.Order.Lattice

/-! Items with a key each are gathered into groups of one bucket. A key has one group open at a time;
it closes when an item of a later bucket comes, or when it is flushed, and an item of a bucket before
the open one is late. -/
namespace NTrade.Lib

structure Group (β τ : Type*) where
  bucket : β
  first : τ
  rest : List τ

namespace Group
variable {β τ : Type*}

def items (g : Group β τ) : List τ := g.first :: g.rest

def single (b : β) (x : τ) : Group β τ := ⟨b, x, []⟩

def push (x : τ) (g : Group β τ) : Group β τ := { g with rest := g.rest ++ [x] }

@[simp] theorem items_single (b : β) (x : τ) : (single b x).items = [x] := rfl

@[simp] theorem items_push (x : τ) (g : Group β τ) : (g.push x).items = g.items ++ [x] := rfl

@[simp] theorem bucket_single (b : β) (x : τ) : (single b x).bucket = b := rfl

@[simp] theorem bucket_push (x : τ) (g : Group β τ) : (g.push x).bucket = g.bucket := rfl

end Group

structure Buckets (κ β τ : Type*) where
  opened : Dict κ (Group β τ) := Dict.empty
  closed : List (κ × Group β τ) := []
  late : List τ := []

namespace Buckets
variable {κ β τ : Type*}

inductive Op (κ τ : Type*) where
  | add (x : τ)
  | flush (k : Option κ)

def added (ops : List (Op κ τ)) : List τ :=
  ops.filterMap fun | .add x => some x | .flush _ => none

@[simp] theorem added_nil : added ([] : List (Op κ τ)) = [] := rfl

@[simp] theorem added_add (ops : List (Op κ τ)) (x : τ) : added (ops ++ [Op.add x]) = added ops ++ [x] := by
  simp [added]

@[simp] theorem added_flush (ops : List (Op κ τ)) (k : Option κ) : added (ops ++ [Op.flush k]) = added ops := by
  simp [added]

section Flush
variable [DecidableEq κ]

def flushKey (s : Buckets κ β τ) (k : κ) : Buckets κ β τ :=
  match s.opened.get k with
  | none => s
  | some g => { s with opened := s.opened.pop k, closed := s.closed ++ [(k, g)] }

def flush (k : Option κ) (s : Buckets κ β τ) : Buckets κ β τ :=
  (match k with | none => s.opened.keys | some k => [k]).foldl flushKey s

/-- What is kept by flushing one key is kept by every flush. -/
theorem flush_induct {P : Buckets κ β τ → Prop} (hf : ∀ s k, P s → P (s.flushKey k)) {s : Buckets κ β τ} (h : P s)
    (k : Option κ) : P (s.flush k) := by
  have hfold (ks : List κ) : ∀ s, P s → P (ks.foldl flushKey s) := by
    induction ks with
    | nil => exact fun _ h => h
    | cons k ks ih => exact fun s h => ih _ (hf s k h)
  exact hfold _ s h

private theorem opened_foldl_flushKey (ks : List κ) (s : Buckets κ β τ) (j : κ) :
    (ks.foldl flushKey s).opened.get j = if j ∈ ks then none else s.opened.get j := by
  induction ks generalizing s with
  | nil => simp
  | cons k ks ih =>
    have hone : (s.flushKey k).opened.get j = if j = k then none else s.opened.get j := by
      rw [flushKey]
      split
      · next hk =>
        by_cases hj : j = k
        · rw [if_pos hj, hj, hk]
        · rw [if_neg hj]
      · exact Dict.get_pop _ _ _
    rw [List.foldl_cons, ih, hone]
    by_cases hj : j = k
    · simp [hj]
    · simp [hj]

/-- After a flush of all keys no group is open. -/
theorem opened_flush_all (s : Buckets κ β τ) (j : κ) : (s.flush none).opened.get j = none := by
  have h := opened_foldl_flushKey s.opened.keys s j
  rw [flush, h]
  split
  · rfl
  · next hj => exact (Dict.get_eq_none_iff _ _).mpr hj

end Flush

section Machine
variable [DecidableEq κ] [LinearOrder β] (key : τ → κ) (bucket : τ → β)

def add (x : τ) (s : Buckets κ β τ) : Buckets κ β τ :=
  match s.opened.get (key x) with
  | none => { s with opened := s.opened.set (key x) (.single (bucket x) x) }
  | some g =>
    if bucket x < g.bucket then { s with late := s.late ++ [x] }
    else if bucket x = g.bucket then { s with opened := s.opened.set (key x) (g.push x) }
    else { s with
      closed := s.closed ++ [(key x, g)]
      opened := s.opened.set (key x) (.single (bucket x) x) }

def step (s : Buckets κ β τ) : Op κ τ → Buckets κ β τ
  | .add x => s.add key bucket x
  | .flush k => s.flush k

def run (ops : List (Op κ τ)) : Buckets κ β τ := ops.foldl (step key bucket) {}

@[simp] theorem run_nil : run key bucket ([] : List (Op κ τ)) = {} := rfl

@[simp] theorem run_concat (ops : List (Op κ τ)) (op : Op κ τ) :
    run key bucket (ops ++ [op]) = step key bucket (run key bucket ops) op := by
  simp [run]

end Machine

section Conservation
variable [DecidableEq κ]

section Count
variable [DecidableEq τ]

def places (a : τ) (s : Buckets κ β τ) : Int :=
  s.late.count a + (s.closed.map fun e => (e.2.items.count a : Int)).sum +
    s.opened.total fun g => (g.items.count a : Int)

private theorem places_flushKey (a : τ) (s : Buckets κ β τ) (k : κ) : (s.flushKey k).places a = s.places a := by
  rw [flushKey]
  split
  · rfl
  · next g hg =>
    have ht := Dict.total_pop (fun g : Group β τ => (g.items.count a : Int)) s.opened k
    rw [hg] at ht
    simp only [places, ht, List.map_append, List.sum_append, List.map_cons, List.map_nil, List.sum_cons, List.sum_nil,
      Option.map_some, Option.getD_some]
    omega

variable [LinearOrder β] (key : τ → κ) (bucket : τ → β)

private theorem places_add (a x : τ) (s : Buckets κ β τ) :
    (s.add key bucket x).places a = s.places a + ([x].count a : Int) := by
  rw [add]
  split
  · next hg =>
    simp only [places, Dict.total_set, hg, Option.map_none, Option.getD_none, Group.items_single]
    omega
  · next g hg =>
    split_ifs
    · simp only [places, List.count_append]
      omega
    · simp only [places, Dict.total_set, hg, Option.map_some, Option.getD_some, Group.items_push, List.count_append]
      omega
    · simp only [places, Dict.total_set, hg, Option.map_some, Option.getD_some, Group.items_single, List.map_append,
        List.sum_append, List.map_cons, List.map_nil, List.sum_cons, List.sum_nil]
      omega

/-- An item has as many places as it came times. -/
theorem places_run (a : τ) (ops : List (Op κ τ)) : (run key bucket ops).places a = ((added ops).count a : Int) := by
  induction ops using List.reverseRecOn with
  | nil => rfl
  | append_singleton ops op ih =>
    rw [run_concat]
    cases op with
    | add x =>
      rw [step, places_add, ih, added_add, List.count_append]
      omega
    | flush k =>
      have hf := flush_induct (P := fun s => s.places a = (run key bucket ops).places a)
        (fun s k h => (places_flushKey a s k).trans h) rfl k
      rw [step, hf, ih, added_flush]

end Count

variable [LinearOrder β] (key : τ → κ) (bucket : τ → β)

/-- Every item is late, or in one group, closed or open. -/
theorem run_perm (ops : List (Op κ τ)) :
    ((run key bucket ops).late ++ (run key bucket ops).closed.flatMap (fun e => e.2.items) ++
      (run key bucket ops).opened.entries.flatMap fun e => e.2.items).Perm (added ops) := by
  classical
  rw [List.perm_iff_count]
  intro a
  have h := places_run key bucket a ops
  rw [places, Dict.total] at h
  have hsum {γ : Type _} (f : γ → List τ) (l : List γ) :
      ((l.flatMap f).count a : Int) = (l.map fun e => ((f e).count a : Int)).sum := by
    induction l with
    | nil => rfl
    | cons e l ih => rw [List.flatMap_cons, List.count_append, List.map_cons, List.sum_cons, ← ih]; norm_num
  have hc := hsum (fun e : κ × Group β τ => e.2.items) (run key bucket ops).closed
  have ho := hsum (fun e : κ × Group β τ => e.2.items) (run key bucket ops).opened.entries
  rw [List.count_append, List.count_append]
  omega

end Conservation

section Membership
variable [DecidableEq κ]

def Holds (s : Buckets κ β τ) (e : κ × Group β τ) : Prop := e ∈ s.closed ∨ s.opened.get e.1 = some e.2

private theorem holds_flushKey {s : Buckets κ β τ} {k : κ} {e : κ × Group β τ} (h : (s.flushKey k).Holds e) :
    s.Holds e := by
  rw [flushKey] at h
  split at h
  · exact h
  · next g hg =>
    rcases h with hc | ho
    · rcases List.mem_append.mp hc with hc | hc
      · exact .inl hc
      · obtain rfl := List.mem_singleton.mp hc
        exact .inr hg
    · rw [Dict.get_pop] at ho
      split at ho
      · cases ho
      · exact .inr ho

theorem holds_flush {s : Buckets κ β τ} {k : Option κ} {e : κ × Group β τ} (h : (s.flush k).Holds e) : s.Holds e :=
  flush_induct (P := fun t => t.Holds e → s.Holds e) (fun _ _ ih h => ih (holds_flushKey h)) id k h

variable [LinearOrder β] {key : τ → κ} {bucket : τ → β}

/-- A group held after an item was added was held before, or has the item as its last one. -/
theorem holds_add {s : Buckets κ β τ} {x : τ} {e : κ × Group β τ} (h : (s.add key bucket x).Holds e) :
    s.Holds e ∨ e = (key x, .single (bucket x) x) ∨
      ∃ g, s.Holds (key x, g) ∧ g.bucket = bucket x ∧ e = (key x, g.push x) := by
  rw [add] at h
  split at h
  · rcases h with hc | ho
    · exact .inl (.inl hc)
    · rw [Dict.get_set] at ho
      split at ho
      · next hk => exact .inr (.inl (Prod.ext hk (Option.some.inj ho).symm))
      · exact .inl (.inr ho)
  · next g hg =>
    split_ifs at h with hlt heq
    · exact .inl h
    · rcases h with hc | ho
      · exact .inl (.inl hc)
      · rw [Dict.get_set] at ho
        split at ho
        · next hk => exact .inr (.inr ⟨g, .inr hg, heq.symm, Prod.ext hk (Option.some.inj ho).symm⟩)
        · exact .inl (.inr ho)
    · rcases h with hc | ho
      · rcases List.mem_append.mp hc with hc | hc
        · exact .inl (.inl hc)
        · rw [List.mem_singleton.mp hc]
          exact .inl (.inr hg)
      · rw [Dict.get_set] at ho
        split at ho
        · next hk => exact .inr (.inl (Prod.ext hk (Option.some.inj ho).symm))
        · exact .inl (.inr ho)

/-- The items of a group have its key and its bucket, and stand in the order they came. -/
theorem holds_run {ops : List (Op κ τ)} {e : κ × Group β τ} (h : (run key bucket ops).Holds e) :
    (∀ x ∈ e.2.items, key x = e.1 ∧ bucket x = e.2.bucket) ∧ e.2.items.Sublist (added ops) := by
  induction ops using List.reverseRecOn generalizing e with
  | nil => rcases h with h | h <;> cases h
  | append_singleton ops op ih =>
    rw [run_concat] at h
    cases op with
    | flush k =>
      rw [added_flush]
      exact ih (holds_flush h)
    | add x =>
      rw [added_add]
      rcases holds_add h with h | rfl | ⟨g, hg, hb, rfl⟩
      · obtain ⟨hk, hs⟩ := ih h
        exact ⟨hk, hs.trans (List.sublist_append_left _ _)⟩
      · constructor
        · intro y hy
          obtain rfl := List.mem_singleton.mp hy
          exact ⟨rfl, rfl⟩
        · exact List.sublist_append_right _ _
      · obtain ⟨hk, hs⟩ := ih hg
        constructor
        · intro y hy
          rw [Group.items_push] at hy
          rcases List.mem_append.mp hy with hy | hy
          · exact hk y hy
          · obtain rfl := List.mem_singleton.mp hy
            exact ⟨rfl, hb.symm⟩
        · exact hs.append (List.Sublist.refl [x])

end Membership

section Order
variable [DecidableEq κ]

def history (k : κ) (s : Buckets κ β τ) : List β :=
  (s.closed.filter fun e => e.1 = k).map (fun e => e.2.bucket) ++ ((s.opened.get k).map Group.bucket).toList

/-- Flushing closes buckets; it does not change which there are. -/
theorem history_flush (j : κ) (s : Buckets κ β τ) (k : Option κ) : (s.flush k).history j = s.history j := by
  refine flush_induct (P := fun t => t.history j = s.history j) (fun t k h => ?_) rfl k
  rw [← h, flushKey]
  split
  · rfl
  · next g hg =>
    by_cases hj : j = k
    · subst hj
      simp [history, hg, Dict.get_pop]
    · simp [history, Dict.get_pop, hj, Ne.symm hj]

variable [LinearOrder β] {key : τ → κ} {bucket : τ → β}

/-- An item is fresh if its key has an open group, or its bucket is later than all closed ones. -/
def FreshItem (key : τ → κ) (bucket : τ → β) (s : Buckets κ β τ) (x : τ) : Prop :=
  s.opened.get (key x) = none → ∀ e ∈ s.closed, e.1 = key x → e.2.bucket < bucket x

def Fresh (key : τ → κ) (bucket : τ → β) (s : Buckets κ β τ) : Op κ τ → Prop
  | .add x => FreshItem key bucket s x
  | .flush _ => True

private theorem history_add_other {j : κ} {x : τ} (h : j ≠ key x) (s : Buckets κ β τ) :
    (s.add key bucket x).history j = s.history j := by
  rw [add]
  split
  · simp [history, Dict.get_set, h]
  · split_ifs
    · rfl
    · simp [history, Dict.get_set, h]
    · simp [history, Dict.get_set, h, Ne.symm h]

/-- One more item keeps the buckets of its key strictly increasing exactly if it is fresh. -/
private theorem increasing_add (s : Buckets κ β τ) (x : τ) (h : (s.history (key x)).Pairwise (· < ·)) :
    ((s.add key bucket x).history (key x)).Pairwise (· < ·) ↔ FreshItem key bucket s x := by
  rw [add, FreshItem]
  split
  · next hg =>
    simp only [history, hg, Option.map_none, Option.toList_none, List.append_nil] at h
    simp only [history, Dict.get_set, if_true, Option.map_some, Option.toList_some, Group.bucket_single,
      List.pairwise_append, h, List.pairwise_singleton, true_and, List.mem_singleton, forall_eq, List.mem_map,
      List.mem_filter, decide_eq_true_eq, forall_exists_index, and_imp, hg, forall_const]
    constructor
    · intro hall e he hk
      exact hall _ e he hk rfl
    · rintro hall _ e he hk rfl
      exact hall e he hk
  · next g hg =>
    have hfresh : ∀ P : Prop, ((s.opened.get (key x) = none → P) ↔ True) := by simp [hg]
    rw [hfresh]
    refine iff_true_intro ?_
    split_ifs with hlt heq
    · exact h
    · simpa [history, Dict.get_set, hg] using h
    · have hx : g.bucket < bucket x := lt_of_le_of_ne (not_lt.mp hlt) (Ne.symm heq)
      have hh : ({ s with
          closed := s.closed ++ [(key x, g)]
          opened := s.opened.set (key x) (.single (bucket x) x) } : Buckets κ β τ).history (key x) =
            s.history (key x) ++ [bucket x] := by
        simp [history, Dict.get_set, hg]
      rw [hh, List.pairwise_append]
      refine ⟨h, List.pairwise_singleton _ _, ?_⟩
      intro b hb c hc
      obtain rfl := List.mem_singleton.mp hc
      -- the open group has the last bucket of its key
      simp only [history, hg, Option.map_some, Option.toList_some, List.mem_append, List.mem_singleton] at h hb
      rcases hb with hb | rfl
      · exact ((List.pairwise_append.mp h).2.2 b hb g.bucket (List.mem_singleton_self _)).trans hx
      · exact hx

/-- The buckets of every key come in increasing order, each once. -/
def Increasing (s : Buckets κ β τ) : Prop := ∀ k, (s.history k).Pairwise (· < ·)

private theorem history_sublist_step (k : κ) (s : Buckets κ β τ) (op : Op κ τ) :
    (s.history k).Sublist ((step key bucket s op).history k) := by
  cases op with
  | flush j => rw [step, history_flush]
  | add x =>
    rw [step]
    by_cases hk : k = key x
    · subst hk
      rw [add]
      split
      · next hg => simp [history, hg, Dict.get_set]
      · next g hg =>
        split_ifs
        · exact List.Sublist.refl _
        · simp [history, hg, Dict.get_set]
        · simp [history, hg, Dict.get_set]
    · rw [history_add_other hk]

theorem increasing_run_iff (ops : List (Op κ τ)) :
    (run key bucket ops).Increasing ↔ Trace.Each (fun pre op => Fresh key bucket (run key bucket pre) op) ops := by
  induction ops using List.reverseRecOn with
  | nil => exact ⟨fun _ => Trace.Each.nil _, fun _ _ => List.Pairwise.nil⟩
  | append_singleton ops op ih =>
    rw [Trace.each_concat, ← ih, run_concat]
    have hkeep (h : (step key bucket (run key bucket ops) op).Increasing) : (run key bucket ops).Increasing :=
      fun k => (h k).sublist (history_sublist_step k _ op)
    cases op with
    | flush k =>
      simp only [Fresh, and_true]
      exact ⟨hkeep, fun h j => by rw [step, history_flush]; exact h j⟩
    | add x =>
      constructor
      · intro h
        exact ⟨hkeep h, (increasing_add _ x (hkeep h (key x))).mp (h (key x))⟩
      · rintro ⟨h, hf⟩ k
        rw [step]
        by_cases hk : k = key x
        · rw [hk]
          exact (increasing_add _ x (h (key x))).mpr hf
        · rw [history_add_other hk]
          exact h k

def closedBuckets (k : κ) (s : Buckets κ β τ) : List β :=
  (s.closed.filter fun e => e.1 = k).map fun e => e.2.bucket

theorem Increasing.closed {s : Buckets κ β τ} (h : s.Increasing) (k : κ) : (s.closedBuckets k).Pairwise (· < ·) :=
  (h k).sublist (List.sublist_append_left _ _)

/-- After a flush of all keys the closed groups tell whether every item was fresh. -/
theorem closed_flush_iff (s : Buckets κ β τ) :
    (∀ k, ((s.flush none).closedBuckets k).Pairwise (· < ·)) ↔ s.Increasing := by
  refine forall_congr' fun k => ?_
  rw [← history_flush k s none, history, opened_flush_all]
  simp [closedBuckets]

end Order
end Buckets
end NTrade.Lib
