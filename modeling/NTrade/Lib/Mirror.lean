import NTrade.Lib.Dict

/-! A map that one side keeps and the other follows: the writes are sent in their order, and some are not
read yet. -/
namespace NTrade.Lib.Mirror
variable {κ ν : Type*} [DecidableEq κ]

inductive Write (κ ν : Type*) where
  | put (k : κ) (v : ν)
  | drop (k : κ)

def Write.apply : Write κ ν → (κ → Option ν) → κ → Option ν
  | .put k v, m => Function.update m k (some v)
  | .drop k, m => Function.update m k none

/-- What a map comes to when the writes on their way are read. -/
def settle (ws : List (Write κ ν)) (m : κ → Option ν) : κ → Option ν := ws.foldl (fun m w => w.apply m) m

@[simp] theorem settle_nil (m : κ → Option ν) : settle [] m = m := rfl

@[simp] theorem settle_cons (w : Write κ ν) (ws : List (Write κ ν)) (m : κ → Option ν) :
    settle (w :: ws) m = settle ws (w.apply m) := rfl

@[simp] theorem settle_concat (ws : List (Write κ ν)) (w : Write κ ν) (m : κ → Option ν) :
    settle (ws ++ [w]) m = w.apply (settle ws m) := by
  simp [settle]

def Covers (m d : κ → Option ν) : Prop := ∀ k v, d k = some v → m k = some v

theorem Covers.put {m d : κ → Option ν} (h : Covers m d) (k : κ) (v : ν) :
    Covers ((Write.put k v).apply m) (Function.update d k (some v)) := by
  intro j u hj
  by_cases hk : j = k
  · subst hk
    rw [Function.update_self] at hj
    rw [Write.apply, Function.update_self, hj]
  · rw [Function.update_of_ne hk] at hj
    rw [Write.apply, Function.update_of_ne hk]
    exact h j u hj

theorem Covers.drop {m d : κ → Option ν} (h : Covers m d) (k : κ) :
    Covers ((Write.drop k).apply m) (Function.update d k none) := by
  intro j u hj
  by_cases hk : j = k
  · subst hk
    rw [Function.update_self] at hj
    cases hj
  · rw [Function.update_of_ne hk] at hj
    rw [Write.apply, Function.update_of_ne hk]
    exact h j u hj

def resync (d : Dict κ ν) : List (Write κ ν) := d.entries.map fun e => .put e.1 e.2

private theorem settle_other (es : List (κ × ν)) (k : κ) (hk : k ∉ es.map Prod.fst) (m : κ → Option ν) :
    settle (es.map fun e => Write.put e.1 e.2) m k = m k := by
  induction es generalizing m with
  | nil => rfl
  | cons e es ih =>
    rw [List.map_cons, List.mem_cons, not_or] at hk
    rw [List.map_cons, settle_cons, ih hk.2, Write.apply, Function.update_of_ne hk.1]

/-- A follower that reads all that a leader has, has it, whatever it had before. -/
theorem covers_resync (d : Dict κ ν) (m : κ → Option ν) : Covers (settle (resync d) m) d.get := by
  intro k v hv
  obtain ⟨pre, suf, hes⟩ := List.append_of_mem ((Dict.mem_entries_iff d k v).mpr hv)
  have hnodup := d.nodup
  rw [hes, List.map_append, List.map_cons, List.nodup_append, List.nodup_cons] at hnodup
  rw [resync, hes, List.map_append, List.map_cons, settle, List.foldl_append, List.foldl_cons]
  apply (settle_other suf k hnodup.2.1.1 _).trans
  rw [Write.apply, Function.update_self]

theorem get_set_eq (d : Dict κ ν) (k : κ) (v : ν) : (d.set k v).get = Function.update d.get k (some v) := by
  funext j
  rw [Dict.get_set, Function.update_apply]

theorem get_pop_eq (d : Dict κ ν) (k : κ) : (d.pop k).get = Function.update d.get k none := by
  funext j
  rw [Dict.get_pop, Function.update_apply]

end NTrade.Lib.Mirror
