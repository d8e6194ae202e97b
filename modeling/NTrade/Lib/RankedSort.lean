import Mathlib.Data.Prod.Lex
import Mathlib.Data.List.Sort
import Mathlib.Data.List.Nodup

/-! Sorting by a key, with the place in the list as the tie-break. Among the values of one key
nothing moves, and a list sorted by its keys is known by the values of each. -/
namespace NTrade.Lib.RankedSort
variable {α κ : Type*} [LinearOrder κ] (key : α → κ)

def rank (p : α × Nat) : κ ×ₗ Nat := toLex (key p.1, p.2)

def Below (p q : α × Nat) : Prop := rank key p ≤ rank key q

instance : DecidableRel (Below key) := fun p q => inferInstanceAs (Decidable (rank key p ≤ rank key q))

instance : Std.Total (Below key) := ⟨fun p q => le_total (rank key p) (rank key q)⟩

instance : IsTrans (α × Nat) (Below key) := ⟨fun _ _ _ => le_trans⟩

def sort (l : List (α × Nat)) : List (α × Nat) := l.insertionSort (Below key)

theorem perm_sort (l : List (α × Nat)) : (sort key l).Perm l := List.perm_insertionSort _ l

theorem pairwise_sort (l : List (α × Nat)) : (sort key l).Pairwise (Below key) := List.pairwise_insertionSort _ l

theorem Below.key_le {p q : α × Nat} (h : Below key p q) : key p.1 ≤ key q.1 := by
  rcases Prod.Lex.le_iff.mp h with h | h
  · exact h.le
  · exact h.1.le

/-- The keys of a sorted list never go down. -/
theorem pairwise_key_sort (l : List (α × Nat)) : (sort key l).Pairwise fun p q => key p.1 ≤ key q.1 :=
  (pairwise_sort key l).imp fun h => h.key_le

/-- Values of one key keep their order. -/
theorem filter_sort {l : List (α × Nat)} (h : l.Pairwise fun p q => p.2 < q.2) (t : κ) :
    (sort key l).filter (fun p => key p.1 = t) = l.filter fun p => key p.1 = t := by
  have hkey {p : α × Nat} {m : List (α × Nat)} (hp : p ∈ m.filter fun p => key p.1 = t) : key p.1 = t := by
    simpa using (List.mem_filter.mp hp).2
  have hnum : (l.map Prod.snd).Nodup := List.pairwise_map.mpr (h.imp Nat.ne_of_lt)
  refine List.Perm.eq_of_pairwise ?_ ((pairwise_sort key l).filter _) ?_ ((perm_sort key l).filter _)
  · intro p q hp hq hpq hqp
    have hr : rank key p = rank key q := le_antisymm hpq hqp
    have hp' := (perm_sort key l).mem_iff.mp (List.mem_of_mem_filter hp)
    exact List.inj_on_of_nodup_map hnum hp' (List.mem_of_mem_filter hq) (Prod.mk.inj (toLex.injective hr)).2
  · refine (h.filter _).imp_of_mem ?_
    intro p q hp hq hlt
    exact Prod.Lex.le_iff.mpr (.inr ⟨(hkey hp).trans (hkey hq).symm, hlt.le⟩)

/-- Two lists sorted by their keys that agree on the values of every key are the same. -/
theorem eq_of_filter_eq {l l' : List α} (h : l.Pairwise fun a b => key a ≤ key b)
    (h' : l'.Pairwise fun a b => key a ≤ key b)
    (he : ∀ t, l.filter (fun a => key a = t) = l'.filter fun a => key a = t) : l = l' := by
  induction l generalizing l' with
  | nil =>
    cases l' with
    | nil => rfl
    | cons b l' =>
      have hb := he (key b)
      rw [List.filter_nil, List.filter_cons_of_pos (by simp)] at hb
      cases hb
  | cons a l ih =>
    cases l' with
    | nil =>
      have ha := he (key a)
      rw [List.filter_nil, List.filter_cons_of_pos (by simp)] at ha
      cases ha
    | cons b l' =>
      have hle {a b : α} {l l' : List α} (h' : (b :: l').Pairwise fun a b => key a ≤ key b)
          (he : (a :: l).filter (fun x => key x = key a) = (b :: l').filter fun x => key x = key a) :
          key b ≤ key a := by
        have ha : a ∈ (b :: l').filter fun x => key x = key a := by
          rw [← he]
          simp
        rcases List.mem_cons.mp (List.mem_of_mem_filter ha) with rfl | ha
        · exact le_refl _
        · exact List.rel_of_pairwise_cons h' ha
      have hk : key a = key b := le_antisymm (hle h (he (key b)).symm) (hle h' (he (key a)))
      have hhead := he (key a)
      rw [List.filter_cons_of_pos (by simp), List.filter_cons_of_pos (by simp [hk])] at hhead
      obtain ⟨rfl, -⟩ := List.cons.inj hhead
      rw [ih h.of_cons h'.of_cons fun t => ?_]
      have ht := he t
      by_cases hat : key a = t
      · rw [List.filter_cons_of_pos (by simp [hat]), List.filter_cons_of_pos (by simp [hat])] at ht
        exact (List.cons.inj ht).2
      · rwa [List.filter_cons_of_neg (by simp [hat]), List.filter_cons_of_neg (by simp [hat])] at ht

end NTrade.Lib.RankedSort
