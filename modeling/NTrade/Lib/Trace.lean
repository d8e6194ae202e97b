import Mathlib.Data.List.Basic
import Mathlib.Data.List.Infix
import Mathlib.Algebra.BigOperators.Group.List.Basic

/-! Traces: properties of every entry together with what came before it, and measures
that grow with the trace. -/
namespace NTrade.Lib.Trace
variable {α : Type*}

/-- `P` holds of every entry of the trace and the entries before it. -/
def Each (P : List α → α → Prop) (t : List α) : Prop :=
  ∀ pre o suf, t = pre ++ o :: suf → P pre o

theorem Each.nil (P : List α → α → Prop) : Each P [] := by
  intro pre o suf h
  simp at h

theorem Each.of_append {P : List α → α → Prop} {t u : List α} (h : Each P (t ++ u)) : Each P t := by
  rintro pre o suf rfl
  exact h pre o (suf ++ u) (by simp)

theorem Each.of_isPrefix {P : List α → α → Prop} {t u : List α} (h : Each P u) (hp : t <+: u) :
    Each P t := by
  obtain ⟨v, rfl⟩ := hp
  exact h.of_append

/-- An entry of a longer trace is the new one or an old one. -/
theorem concat_eq_append_cons {t pre suf : List α} {o a : α} (he : t ++ [o] = pre ++ a :: suf) :
    (suf = [] ∧ t = pre ∧ o = a) ∨ ∃ mid, suf = mid ++ [o] ∧ t = pre ++ a :: mid := by
  rcases List.eq_nil_or_concat suf with rfl | ⟨mid, b, rfl⟩
  · obtain ⟨rfl, hb⟩ := List.append_inj' he rfl
    exact .inl ⟨rfl, rfl, by simpa using hb⟩
  · have hs : t ++ [o] = (pre ++ a :: mid) ++ [b] := by simpa using he
    obtain ⟨rfl, hb⟩ := List.append_inj' hs rfl
    obtain rfl : o = b := by simpa using hb
    exact .inr ⟨mid, List.concat_eq_append, rfl⟩

theorem each_concat {P : List α → α → Prop} {t : List α} {o : α} :
    Each P (t ++ [o]) ↔ Each P t ∧ P t o := by
  constructor
  · intro h
    exact ⟨h.of_append, h t o [] rfl⟩
  · rintro ⟨ht, ho⟩ pre a suf he
    rcases concat_eq_append_cons he with ⟨-, rfl, rfl⟩ | ⟨mid, -, rfl⟩
    · exact ho
    · exact ht pre a mid rfl

/-- What holds at the start and at each prefix exactly when the entry after it is right, holds of every prefix
exactly when every entry is right. -/
theorem forall_prefix_iff {Q : List α → Prop} {P : List α → α → Prop} {t : List α} (h0 : Q [])
    (hs : ∀ pre o, Q pre → (Q (pre ++ [o]) ↔ P pre o)) : (∀ pre, pre <+: t → Q pre) ↔ Each P t := by
  induction t using List.reverseRecOn with
  | nil =>
    constructor
    · exact fun _ => Each.nil P
    · intro _ pre hpre
      rw [List.prefix_nil.mp hpre]
      exact h0
  | append_singleton t o ih =>
    rw [each_concat, ← ih]
    constructor
    · intro h
      have ht : ∀ pre, pre <+: t → Q pre := fun pre hpre => h pre (hpre.trans (List.prefix_append t [o]))
      exact ⟨ht, (hs t o (ht t List.prefix_rfl)).mp (h _ List.prefix_rfl)⟩
    · rintro ⟨ht, ho⟩ pre hpre
      rcases List.prefix_concat_iff.mp hpre with rfl | hpre
      · exact (hs t o (ht t List.prefix_rfl)).mpr ho
      · exact ht pre hpre

instance decidableEach (P : List α → α → Prop) [∀ pre o, Decidable (P pre o)] (t : List α) :
    Decidable (Each P t) :=
  let rec go (pre : List α) : (suf : List α) →
      Decidable (∀ u o v, suf = u ++ o :: v → P (pre ++ u) o)
    | [] => isTrue (by intro u o v h; simp at h)
    | a :: suf =>
      match (inferInstance : Decidable (P pre a)), go (pre ++ [a]) suf with
      | isTrue ha, isTrue hs => isTrue (by
          rintro (_ | ⟨b, u⟩) o v h
          · obtain ⟨rfl, rfl⟩ := List.cons.inj h
            simpa using ha
          · obtain ⟨rfl, rfl⟩ := List.cons.inj h
            simpa using hs u o v rfl)
      | isFalse ha, _ => isFalse fun h => ha (by simpa using h [] a suf rfl)
      | _, isFalse hs => isFalse fun h => hs fun u o v he => by
          simpa using h (a :: u) o v (by rw [he]; rfl)
  go [] t

/-- A check that every entry passes, given the entries before it. -/
abbrev Always (p : List α → α → Bool) (t : List α) : Prop := Each (fun pre o => p pre o = true) t

section Measures
variable {β : Type*} (f : α → Option β)

/-- What the last entry that answers `f` answers. -/
def last (t : List α) : Option β := t.foldl (fun acc o => (f o).or acc) none

@[simp] theorem last_nil : last f [] = none := rfl

@[simp] theorem last_concat (t : List α) (o : α) : last f (t ++ [o]) = (f o).or (last f t) := by
  simp [last]

theorem last_append (t u : List α) : last f (t ++ u) = (last f u).or (last f t) := by
  induction u using List.reverseRecOn with
  | nil => simp
  | append_singleton u o ih => rw [← List.append_assoc, last_concat, last_concat, ih, Option.or_assoc]

theorem last_eq_none {f : α → Option β} {t : List α} (h : ∀ o ∈ t, f o = none) : last f t = none := by
  induction t using List.reverseRecOn with
  | nil => rfl
  | append_singleton t o ih =>
    rw [last_concat, h o (by simp), Option.none_or]
    exact ih fun o ho => h o (by simp [ho])

def total {M : Type*} [AddMonoid M] (g : α → M) (t : List α) : M := (t.map g).sum

@[simp] theorem total_nil {M : Type*} [AddMonoid M] (g : α → M) : total g [] = 0 := rfl

@[simp] theorem total_concat {M : Type*} [AddMonoid M] (g : α → M) (t : List α) (o : α) :
    total g (t ++ [o]) = total g t + g o := by
  simp [total]

theorem total_cons {M : Type*} [AddMonoid M] (g : α → M) (o : α) (t : List α) : total g (o :: t) = g o + total g t := by
  rw [total, List.map_cons, List.sum_cons, total]

theorem total_append {M : Type*} [AddMonoid M] (g : α → M) (t u : List α) :
    total g (t ++ u) = total g t + total g u := by
  simp [total]

end Measures

section Along
variable {σ : Type*} (step : σ → α → σ) (f : σ → α → Nat)

/-- What the steps of a run cost together, each in the state that it is taken in. -/
def along : List α → σ → Nat
  | [], _ => 0
  | a :: as, s => f s a + along as (step s a)

theorem along_concat (as : List α) (a : α) (s : σ) :
    along step f (as ++ [a]) s = along step f as s + f (as.foldl step s) a := by
  induction as generalizing s with
  | nil => simp [along]
  | cons b as ih => rw [List.cons_append, along, ih, along, List.foldl_cons, add_assoc]

/-- A run costs nothing exactly if none of its steps does. -/
theorem along_eq_zero (as : List α) (s : σ) :
    along step f as s = 0 ↔ ∀ pre a, pre ++ [a] <+: as → f (pre.foldl step s) a = 0 := by
  induction as using List.reverseRecOn with
  | nil => simp [along]
  | append_singleton as b ih =>
    rw [along_concat, Nat.add_eq_zero_iff, ih]
    constructor
    · rintro ⟨h, hb⟩ pre a hp
      rcases List.prefix_concat_iff.mp hp with he | hp
      · obtain ⟨rfl, hab⟩ := List.append_inj' he rfl
        obtain rfl := List.singleton_inj.mp hab
        exact hb
      · exact h pre a hp
    · intro h
      exact ⟨fun pre a hp => h pre a (hp.trans (List.prefix_append as [b])), h as b List.prefix_rfl⟩

end Along
end NTrade.Lib.Trace
