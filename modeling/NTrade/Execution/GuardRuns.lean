import NTrade.Execution.Guard
import NTrade.Lib.Trace

/-! The idempotency guard under any sequence of calls, in or out of the protocol that its
caller keeps to: its set, its dictionary and its list stay aligned. -/
namespace NTrade.Execution
open NTrade.Lib

inductive GuardOp (κ ρ : Type) where
  | checkAndReserve (key : κ)
  | recordResult (key : κ) (result : ρ)
  | release (key : κ)

inductive GuardObs (κ ρ : Type) where
  /-- The check answered with none: the key is reserved. -/
  | reserved (key : κ)
  | duplicate (key : κ) (result : ρ)
  /-- The check raised: the key was reserved already. -/
  | refused (key : κ) (reason : String)
  | completed (key : κ) (result : ρ)
  /-- A result was recorded for a key that has one. -/
  | repeated (key : κ)
  | evicted (key : κ)
  | released (key : κ)

structure GuardRun (κ ρ : Type) where
  guard : MemoryIdempotencyGuard κ ρ
  log : List (GuardObs κ ρ) := []

namespace GuardRun
variable {κ ρ : Type} [DecidableEq κ]

def surplus (insertionOrder : List κ) (maxEntries : Nat) : List κ :=
  insertionOrder.take (insertionOrder.length - maxEntries)

def step (s : GuardRun κ ρ) : GuardOp κ ρ → GuardRun κ ρ
  | .checkAndReserve key =>
    match s.guard.checkAndReserve key with
    | .ok (none, guard) => { guard, log := s.log ++ [.reserved key] }
    | .ok (some result, guard) => { guard, log := s.log ++ [.duplicate key result] }
    | .error reason => { s with log := s.log ++ [.refused key reason] }
  | .recordResult key result =>
    let guard := s.guard.recordResult key result
    if key ∈ s.guard.completed.keys then
      { guard, log := s.log ++ .repeated key :: (surplus s.guard.insertionOrder s.guard.maxEntries).map .evicted }
    else
      { guard
        log := s.log ++ .completed key result ::
          (surplus (s.guard.insertionOrder ++ [key]) s.guard.maxEntries).map .evicted }
  | .release key => { guard := s.guard.release key, log := s.log ++ [.released key] }

def run (maxEntries : Nat) (ops : List (GuardOp κ ρ)) : GuardRun κ ρ := ops.foldl step { guard := { maxEntries } }

end GuardRun

section Log
variable {κ ρ : Type}

def GuardObs.completion : GuardObs κ ρ → Option κ
  | .completed key _ => some key
  | _ => none

def GuardObs.eviction : GuardObs κ ρ → Option κ
  | .evicted key => some key
  | _ => none

def GuardObs.holds [DecidableEq κ] (key : κ) : GuardObs κ ρ → Option Bool
  | .reserved k => if k = key then some true else none
  | .released k => if k = key then some false else none
  | .evicted k => if k = key then some false else none
  | _ => none

/-- A key that is reserved anew was released or evicted since it was reserved before. -/
def FreedBetween (pre : List (GuardObs κ ρ)) (o : GuardObs κ ρ) : Prop :=
  ∀ key, o = .reserved key → ∀ before mid, pre = before ++ .reserved key :: mid → .released key ∈ mid ∨ .evicted key ∈ mid

end Log

structure Aligned {κ ρ : Type} [DecidableEq κ] (s : GuardRun κ ρ) : Prop where
  disjoint : ∀ key ∈ s.guard.reserved, key ∉ s.guard.completed.keys
  /-- The list is that of the completed keys. -/
  order : s.guard.insertionOrder = s.guard.completed.keys
  nodup : s.guard.insertionOrder.Nodup
  /-- The list keeps the order of completion, and evictions take the oldest first. -/
  fifo : s.log.filterMap GuardObs.completion = s.log.filterMap GuardObs.eviction ++ s.guard.insertionOrder
  capped : s.guard.insertionOrder.length ≤ s.guard.maxEntries
  freed : Trace.Each FreedBetween s.log

structure Guarded {κ ρ : Type} [DecidableEq κ] (s : GuardRun κ ρ) : Prop extends Aligned s where
  held : ∀ key, Trace.last (GuardObs.holds key) s.log = some true → key ∈ s.guard.reserved ∨ key ∈ s.guard.completed.keys

section Lists
variable {κ ρ : Type} [DecidableEq κ]

private theorem filter_not_mem_take {l : List κ} (hn : l.Nodup) (n : Nat) : l.filter (· ∉ l.take n) = l.drop n := by
  have hd : List.Disjoint (l.take n) (l.drop n) := by
    rw [← List.take_append_drop n l] at hn
    exact List.disjoint_of_nodup_append hn
  have hsplit : l.filter (· ∉ l.take n) = (l.take n ++ l.drop n).filter (· ∉ l.take n) := by
    rw [List.take_append_drop]
  rw [hsplit, List.filter_append, List.filter_eq_nil_iff.mpr, List.filter_eq_self.mpr, List.nil_append]
  · intro k hk
    exact decide_eq_true fun ht => hd ht hk
  · intro k hk
    simpa using hk

private theorem keys_foldl_pop (ks : List κ) (d : Dict κ ρ) : (ks.foldl Dict.pop d).keys = d.keys.filter (· ∉ ks) := by
  induction ks generalizing d with
  | nil => simp
  | cons k ks ih =>
    rw [List.foldl_cons, ih, Dict.keys_pop, List.filter_filter]
    apply List.filter_congr
    intro j _
    by_cases hj : j = k <;> simp [hj]

/-- Eviction leaves the list that of the completed keys. -/
private theorem evictIfOverCap_order {g : MemoryIdempotencyGuard κ ρ} (ho : g.insertionOrder = g.completed.keys)
    (hn : g.insertionOrder.Nodup) : g.evictIfOverCap.insertionOrder = g.evictIfOverCap.completed.keys := by
  rw [MemoryIdempotencyGuard.evictIfOverCap]
  dsimp only
  rw [keys_foldl_pop, ← ho, filter_not_mem_take hn]

end Lists

section Observations
variable {κ ρ : Type} {log us : List (GuardObs κ ρ)}

private theorem filterMap_concat_none {f : GuardObs κ ρ → Option κ} {o : GuardObs κ ρ} (h : f o = none) :
    (log ++ [o]).filterMap f = log.filterMap f := by
  rw [List.filterMap_append, List.filterMap_cons_none h, List.filterMap_nil, List.append_nil]

private theorem freed_append (h : Trace.Each FreedBetween log) (hu : ∀ o ∈ us, ∀ key, o ≠ .reserved key) :
    Trace.Each FreedBetween (log ++ us) := by
  induction us using List.reverseRecOn with
  | nil => simpa using h
  | append_singleton us o ih =>
    rw [← List.append_assoc]
    refine Trace.each_concat.mpr ⟨ih fun o ho => hu o (List.mem_append_left _ ho), fun key he => ?_⟩
    exact absurd he (hu o (by simp) key)

variable [DecidableEq κ]

private theorem last_evicted (key : κ) (ks : List κ) :
    Trace.last (GuardObs.holds key) (ks.map (GuardObs.evicted : κ → GuardObs κ ρ)) =
      if key ∈ ks then some false else none := by
  induction ks using List.reverseRecOn with
  | nil => rfl
  | append_singleton ks k ih =>
    rw [List.map_append, List.map_singleton, Trace.last_concat, ih, GuardObs.holds]
    by_cases hk : k = key
    · simp [hk]
    · simp [hk, Ne.symm hk]

/-- After its reservation a key is held until it is released or evicted. -/
private theorem last_reserved {key : κ} (before mid : List (GuardObs κ ρ)) (hr : .released key ∉ mid)
    (he : .evicted key ∉ mid) : Trace.last (GuardObs.holds key) (before ++ .reserved key :: mid) = some true := by
  induction mid using List.reverseRecOn with
  | nil => rw [Trace.last_concat, GuardObs.holds, if_pos rfl]; rfl
  | append_singleton mid o ih =>
    have hr' : o ≠ .released key := fun h => hr (h ▸ List.mem_append_right _ (List.mem_singleton_self _))
    have he' : o ≠ .evicted key := fun h => he (h ▸ List.mem_append_right _ (List.mem_singleton_self _))
    have ih := ih (fun h => hr (List.mem_append_left _ h)) fun h => he (List.mem_append_left _ h)
    rw [← List.cons_append, ← List.append_assoc, Trace.last_concat, ih]
    cases o with
    | reserved k => by_cases hk : k = key <;> simp [GuardObs.holds, hk]
    | released k =>
      have hk : k ≠ key := by rintro rfl; exact hr' rfl
      rw [GuardObs.holds, if_neg hk]
      rfl
    | evicted k =>
      have hk : k ≠ key := by rintro rfl; exact he' rfl
      rw [GuardObs.holds, if_neg hk]
      rfl
    | duplicate | refused | completed | repeated => rfl

/-- A key that is not held was freed since each of its reservations. -/
private theorem freedBetween_of_last {key : κ} (h : Trace.last (GuardObs.holds key) log ≠ some true) :
    FreedBetween log (.reserved key) := by
  rintro k ⟨⟩ before mid rfl
  by_contra hn
  obtain ⟨hr, he⟩ := not_or.mp hn
  exact h (last_reserved before mid hr he)

end Observations

section Steps
variable {κ ρ : Type} [DecidableEq κ] {s : GuardRun κ ρ}

/-- A call that only leaves a note. -/
private theorem Guarded.note (h : Guarded s) (o : GuardObs κ ρ) (hc : o.completion = none) (he : o.eviction = none)
    (hh : ∀ key, o.holds key = none) (hr : ∀ key, o ≠ .reserved key) : Guarded { s with log := s.log ++ [o] } where
  disjoint := h.disjoint
  order := h.order
  nodup := h.nodup
  fifo := by
    rw [filterMap_concat_none hc, filterMap_concat_none he]
    exact h.fifo
  capped := h.capped
  freed := freed_append h.freed fun o' ho => List.mem_singleton.mp ho ▸ hr
  held key hk := by
    rw [Trace.last_concat, hh, Option.none_or] at hk
    exact h.held key hk

/-- What a key's reservation finds. -/
private theorem Guarded.reserve (h : Guarded s) {key : κ} (hc : key ∉ s.guard.completed.keys) (hr : key ∉ s.guard.reserved) :
    Guarded { guard := { s.guard with reserved := key :: s.guard.reserved }, log := s.log ++ [GuardObs.reserved key] } where
  disjoint k hk := by
    rcases List.mem_cons.mp hk with rfl | hk
    · exact hc
    · exact h.disjoint k hk
  order := h.order
  nodup := h.nodup
  fifo := by
    rw [filterMap_concat_none rfl, filterMap_concat_none rfl]
    exact h.fifo
  capped := h.capped
  freed := Trace.each_concat.mpr ⟨h.freed, freedBetween_of_last fun hk => (h.held key hk).elim hr hc⟩
  held k hk := by
    rw [Trace.last_concat, GuardObs.holds] at hk
    by_cases he : key = k
    · exact .inl (he ▸ List.mem_cons_self)
    · rw [if_neg he, Option.none_or] at hk
      exact (h.held k hk).imp_left (List.mem_cons_of_mem key)

private theorem Guarded.release (h : Guarded s) (key : κ) :
    Guarded { guard := s.guard.release key, log := s.log ++ [GuardObs.released key] } where
  disjoint k hk := h.disjoint k (List.mem_of_mem_filter hk)
  order := h.order
  nodup := h.nodup
  fifo := by
    rw [filterMap_concat_none rfl, filterMap_concat_none rfl]
    exact h.fifo
  capped := h.capped
  freed := freed_append h.freed fun o ho k => List.mem_singleton.mp ho ▸ nofun
  held k hk := by
    rw [Trace.last_concat, GuardObs.holds] at hk
    by_cases he : key = k
    · simp [he] at hk
    · rw [if_neg he, Option.none_or] at hk
      refine (h.held k hk).imp_left fun hm => List.mem_filter.mpr ⟨hm, ?_⟩
      simpa using Ne.symm he

private theorem evictIfOverCap_of_capped {g : MemoryIdempotencyGuard κ ρ} (h : g.insertionOrder.length ≤ g.maxEntries) :
    g.evictIfOverCap = g := by
  simp [MemoryIdempotencyGuard.evictIfOverCap, Nat.sub_eq_zero_of_le h]

omit [DecidableEq κ] in
private theorem surplus_of_capped {l : List κ} {n : Nat} (h : l.length ≤ n) : GuardRun.surplus l n = [] := by
  simp [GuardRun.surplus, Nat.sub_eq_zero_of_le h]

/-- A result for a key that has one only ends its reservation. -/
private theorem Guarded.recordRepeated (h : Guarded s) {key : κ} (result : ρ) (hc : key ∈ s.guard.completed.keys) :
    Guarded { guard := s.guard.recordResult key result, log := s.log ++ [GuardObs.repeated key] } := by
  have hg : s.guard.recordResult key result = s.guard.release key := by
    rw [MemoryIdempotencyGuard.recordResult, if_pos hc]
    exact evictIfOverCap_of_capped h.capped
  rw [hg]
  refine ⟨⟨fun k hk => h.disjoint k (List.mem_of_mem_filter hk), h.order, h.nodup, ?_, h.capped, ?_⟩, fun k hk => ?_⟩
  · rw [filterMap_concat_none rfl, filterMap_concat_none rfl]
    exact h.fifo
  · exact freed_append h.freed fun o ho k => List.mem_singleton.mp ho ▸ nofun
  · rw [Trace.last_concat, show GuardObs.holds k (.repeated key : GuardObs κ ρ) = none from rfl, Option.none_or] at hk
    by_cases he : k = key
    · exact .inr (he ▸ hc)
    · exact (h.held k hk).imp_left fun hm => List.mem_filter.mpr ⟨hm, decide_eq_true he⟩

/-- The list after a new result: the key at the end, the oldest gone. -/
private theorem insertionOrder_recordNew {g : MemoryIdempotencyGuard κ ρ} {key : κ} (result : ρ) (hc : key ∉ g.completed.keys) :
    (g.recordResult key result).insertionOrder =
      (g.insertionOrder ++ [key]).drop ((g.insertionOrder ++ [key]).length - g.maxEntries) := by
  rw [MemoryIdempotencyGuard.recordResult, if_neg hc, MemoryIdempotencyGuard.evictIfOverCap]

private theorem Guarded.nodup_recordNew (h : Guarded s) {key : κ} (hc : key ∉ s.guard.completed.keys) :
    (s.guard.insertionOrder ++ [key]).Nodup := by
  have hnotin : key ∉ s.guard.insertionOrder := by rwa [h.order]
  exact List.nodup_append_comm.mp (List.nodup_cons.mpr ⟨hnotin, h.nodup⟩)

/-- The results held are those of the list. -/
private theorem Guarded.order_recordNew (h : Guarded s) {key : κ} (result : ρ) (hc : key ∉ s.guard.completed.keys) :
    (s.guard.recordResult key result).insertionOrder = (s.guard.recordResult key result).completed.keys := by
  rw [MemoryIdempotencyGuard.recordResult, if_neg hc]
  refine evictIfOverCap_order ?_ ?_
  · dsimp only
    rw [Dict.keys_set_of_not_mem hc, h.order]
  · exact h.nodup_recordNew hc

omit [DecidableEq κ] in
private theorem completion_recordNew (key : κ) (result : ρ) (gone : List κ) :
    (GuardObs.completed key result :: gone.map .evicted).filterMap GuardObs.completion = [key] := by
  have hnil : (gone.map (GuardObs.evicted : κ → GuardObs κ ρ)).filterMap GuardObs.completion = [] := by
    rw [List.filterMap_map]
    exact List.filterMap_eq_nil_iff.mpr fun _ _ => rfl
  exact congrArg (key :: ·) hnil

omit [DecidableEq κ] in
private theorem eviction_recordNew (key : κ) (result : ρ) (gone : List κ) :
    (GuardObs.completed key result :: gone.map .evicted).filterMap GuardObs.eviction = gone := by
  have hall : (gone.map (GuardObs.evicted : κ → GuardObs κ ρ)).filterMap GuardObs.eviction = gone := by
    rw [List.filterMap_map]
    exact List.filterMap_some
  exact hall

/-- A new result goes to the end of the list, and the oldest make room for it. -/
private theorem Guarded.recordNew (h : Guarded s) {key : κ} (result : ρ) (hc : key ∉ s.guard.completed.keys) :
    Guarded
      { guard := s.guard.recordResult key result
        log := s.log ++ .completed key result ::
          (GuardRun.surplus (s.guard.insertionOrder ++ [key]) s.guard.maxEntries).map .evicted } := by
  obtain ⟨order, horder⟩ : ∃ order, order = s.guard.insertionOrder ++ [key] := ⟨_, rfl⟩
  obtain ⟨n, hlen⟩ : ∃ n, n = order.length - s.guard.maxEntries := ⟨_, rfl⟩
  have hn : order.Nodup := horder ▸ h.nodup_recordNew hc
  have hs : GuardRun.surplus (s.guard.insertionOrder ++ [key]) s.guard.maxEntries = order.take n := by
    rw [GuardRun.surplus, hlen, horder]
  have ho : (s.guard.recordResult key result).insertionOrder = order.drop n := by
    rw [insertionOrder_recordNew result hc, hlen, horder]
  have hk : (s.guard.recordResult key result).completed.keys = order.drop n :=
    (h.order_recordNew result hc).symm.trans ho
  have hr : (s.guard.recordResult key result).reserved = s.guard.reserved.filter (· ≠ key) :=
    MemoryIdempotencyGuard.recordResult_reserved _ _ _
  have hm : (s.guard.recordResult key result).maxEntries = s.guard.maxEntries := by
    rw [MemoryIdempotencyGuard.recordResult, if_neg hc]
    rfl
  rw [hs]
  refine ⟨⟨fun k hk' => ?_, ho.trans hk.symm, ?_, ?_, ?_, ?_⟩, fun k hk' => ?_⟩
  · dsimp only at hk' ⊢
    rw [hr] at hk'
    rw [hk]
    obtain ⟨hk', hne⟩ := List.mem_filter.mp hk'
    intro hd
    have hd := List.mem_of_mem_drop hd
    rw [horder, h.order] at hd
    rcases List.mem_append.mp hd with hd | hd
    · exact h.disjoint k hk' hd
    · exact (of_decide_eq_true hne) (List.mem_singleton.mp hd)
  · dsimp only
    rw [ho]
    exact hn.sublist (List.drop_sublist n order)
  · dsimp only
    rw [ho, List.filterMap_append, List.filterMap_append, completion_recordNew, eviction_recordNew, h.fifo, List.append_assoc,
      List.append_assoc, List.take_append_drop, horder]
  · dsimp only
    rw [ho, hm, List.length_drop]
    omega
  · refine freed_append h.freed fun o ho' k => ?_
    rcases List.mem_cons.mp ho' with rfl | ho'
    · nofun
    · obtain ⟨j, -, rfl⟩ := List.mem_map.mp ho'
      nofun
  · dsimp only at hk' ⊢
    rw [Trace.last_append, ← List.singleton_append, Trace.last_append, last_evicted] at hk'
    rw [hr, hk]
    by_cases ht : k ∈ order.take n
    · simp [ht] at hk'
    · have hkeep : k ∈ order → k ∈ order.drop n := by
        intro hin
        rw [← List.take_append_drop n order] at hin
        exact (List.mem_append.mp hin).resolve_left ht
      have hlast : Trace.last (GuardObs.holds k) s.log = some true := by simpa [ht, Trace.last, GuardObs.holds] using hk'
      by_cases he : k = key
      · exact .inr (hkeep (by rw [horder, he]; simp))
      · refine (h.held k hlast).imp (fun hm => List.mem_filter.mpr ⟨hm, decide_eq_true he⟩) fun hm => hkeep ?_
        rw [horder, h.order]
        exact List.mem_append_left _ hm

theorem Guarded.step (h : Guarded s) (op : GuardOp κ ρ) : Guarded (s.step op) := by
  cases op with
  | checkAndReserve key =>
    rw [GuardRun.step, MemoryIdempotencyGuard.checkAndReserve]
    cases hc : s.guard.completed.get key with
    | some result => exact h.note _ rfl rfl (fun _ => rfl) nofun
    | none =>
      dsimp only
      by_cases hr : key ∈ s.guard.reserved
      · rw [if_pos hr]
        exact h.note _ rfl rfl (fun _ => rfl) nofun
      · rw [if_neg hr]
        exact h.reserve ((Dict.get_eq_none_iff _ _).mp hc) hr
  | recordResult key result =>
    rw [GuardRun.step]
    by_cases hc : key ∈ s.guard.completed.keys
    · rw [if_pos hc, surplus_of_capped h.capped]
      exact h.recordRepeated result hc
    · rw [if_neg hc]
      exact h.recordNew result hc
  | release key => exact h.release key

theorem Guarded.start (maxEntries : Nat) : Guarded ({ guard := { maxEntries } } : GuardRun κ ρ) where
  disjoint _ h := nomatch h
  order := rfl
  nodup := List.nodup_nil
  fifo := rfl
  capped := Nat.zero_le _
  freed := Trace.Each.nil _
  held _ h := nomatch h

private theorem maxEntries_step (s : GuardRun κ ρ) (op : GuardOp κ ρ) :
    (s.step op).guard.maxEntries = s.guard.maxEntries := by
  cases op with
  | checkAndReserve key =>
    rw [GuardRun.step, MemoryIdempotencyGuard.checkAndReserve]
    cases s.guard.completed.get key with
    | some result => rfl
    | none => by_cases hr : key ∈ s.guard.reserved <;> simp [hr]
  | recordResult key result =>
    have hg : (s.guard.recordResult key result).maxEntries = s.guard.maxEntries := by
      rw [MemoryIdempotencyGuard.recordResult]
      split <;> rfl
    rw [GuardRun.step]
    split <;> exact hg
  | release key => rfl

/-- The structures of the guard stay aligned under any sequence of calls with any keys. -/
theorem guard_aligned (maxEntries : Nat) (ops : List (GuardOp κ ρ)) :
    Aligned (GuardRun.run maxEntries ops) ∧ (GuardRun.run maxEntries ops).guard.maxEntries = maxEntries := by
  suffices h : Guarded (GuardRun.run maxEntries ops) ∧ (GuardRun.run maxEntries ops).guard.maxEntries = maxEntries from
    ⟨h.1.toAligned, h.2⟩
  induction ops using List.reverseRecOn with
  | nil => exact ⟨Guarded.start maxEntries, rfl⟩
  | append_singleton ops op ih =>
    rw [GuardRun.run, List.foldl_concat]
    exact ⟨ih.1.step op, (maxEntries_step _ op).trans ih.2⟩

end Steps
end NTrade.Execution
