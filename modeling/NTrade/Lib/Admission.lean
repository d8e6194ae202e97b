import Mathlib.Data.Finset.Card
import Mathlib.Data.Finset.SDiff

/-! Admission under a cap on the places that are held, where a place is taken only some time
after the admission. -/
namespace NTrade.Lib
variable {α : Type*} [DecidableEq α]

structure Admission (α : Type*) where
  held : Finset α
  /-- What was admitted, and may still take a place. -/
  pending : Finset α
  /-- What took a place without an admission. -/
  adopted : Finset α

namespace Admission

def waiting (s : Admission α) : Finset α := s.pending \ s.held

/-- One move; an admission looks at the places held, and is made while at most `slack` others wait. -/
inductive Move (cap slack : Nat) (s : Admission α) : Admission α → Prop where
  | enrol (x : α) (room : s.held.card < cap) (few : s.waiting.card ≤ slack) :
      Move cap slack s { s with pending := insert x s.pending }
  | land {x : α} {held : Finset α} (admitted : x ∈ s.pending) (le : held ⊆ insert x s.held) :
      Move cap slack s { s with held }
  | settle {pending : Finset α} (le : pending ⊆ s.pending) : Move cap slack s { s with pending }
  | adopt {x : α} {held : Finset α} (le : held ⊆ insert x s.held) :
      Move cap slack s { s with held, adopted := insert x s.adopted }
  | release {held : Finset α} (le : held ⊆ s.held) : Move cap slack s { s with held }

/-- What holds a place or may take one, apart from what was adopted. -/
def owed (s : Admission α) : Finset α := (s.held ∪ s.pending) \ s.adopted

variable {cap slack : Nat} {s s' : Admission α}

theorem card_held_le (s : Admission α) : (s.held \ s.adopted).card ≤ s.owed.card :=
  Finset.card_le_card (Finset.sdiff_subset_sdiff Finset.subset_union_left subset_rfl)

/-- An admission adds one place to those held and those waited for. -/
theorem card_owed_enrol (s : Admission α) (x : α) : ({ s with pending := insert x s.pending } : Admission α).owed.card ≤
    s.held.card + s.waiting.card + 1 := by
  have hsub : ({ s with pending := insert x s.pending } : Admission α).owed ⊆ insert x (s.held ∪ s.waiting) := by
    intro y hy
    obtain ⟨hy, -⟩ := Finset.mem_sdiff.mp hy
    rw [waiting, Finset.union_sdiff_self_eq_union, ← Finset.union_insert]
    exact hy
  calc
    _ ≤ (insert x (s.held ∪ s.waiting)).card := Finset.card_le_card hsub
    _ ≤ (s.held ∪ s.waiting).card + 1 := Finset.card_insert_le _ _
    _ ≤ s.held.card + s.waiting.card + 1 := Nat.succ_le_succ (Finset.card_union_le _ _)

private theorem card_owed_of_subset (adopted : s.adopted ⊆ s'.adopted)
    (held : s'.held ⊆ s.held ∪ s.pending ∪ s'.adopted) (pending : s'.pending ⊆ s.held ∪ s.pending ∪ s'.adopted) :
    s'.owed.card ≤ s.owed.card := by
  apply Finset.card_le_card
  intro y hy
  obtain ⟨hy, hn⟩ := Finset.mem_sdiff.mp hy
  rcases Finset.mem_union.mp (Finset.union_subset held pending hy) with hy | hy
  · exact Finset.mem_sdiff.mpr ⟨hy, fun ha => hn (adopted ha)⟩
  · exact absurd hy hn

/-- What is owed exceeds the cap by no more than what admissions leave waiting. -/
theorem Move.card_owed_le (h : Move cap slack s s') (hs : s.owed.card ≤ cap + slack) : s'.owed.card ≤ cap + slack := by
  cases h with
  | enrol x room few =>
    have hx := card_owed_enrol s x
    omega
  | @land x held admitted le =>
    refine (card_owed_of_subset ?_ ?_ ?_).trans hs
    · exact subset_rfl
    · intro y hy
      rcases Finset.mem_insert.mp (le hy) with rfl | hy
      · simp [admitted]
      · simp [hy]
    · intro y hy
      simp [hy]
  | @settle pending le =>
    refine (card_owed_of_subset ?_ ?_ ?_).trans hs
    · exact subset_rfl
    · intro y hy
      simp [hy]
    · intro y hy
      simp [le hy]
  | @adopt x held le =>
    refine (card_owed_of_subset ?_ ?_ ?_).trans hs
    · exact Finset.subset_insert _ _
    · intro y hy
      rcases Finset.mem_insert.mp (le hy) with rfl | hy
      · simp
      · simp [hy]
    · intro y hy
      simp [hy]
  | @release held le =>
    refine (card_owed_of_subset ?_ ?_ ?_).trans hs
    · exact subset_rfl
    · intro y hy
      simp [le hy]
    · intro y hy
      simp [hy]

end Admission
end NTrade.Lib
