import Mathlib.Data.List.Chain

/-! Forests, each node with its first child and its next sibling: the pre-order, a law
between every node and what it hangs from, and the ways down from a root. -/
namespace NTrade.Lib

inductive Forest (α : Type*) where
  | nil
  | cons (root : α) (children siblings : Forest α)
  deriving DecidableEq, Repr

namespace Forest
variable {α β γ : Type*}

def append : Forest α → Forest α → Forest α
  | nil, g => g
  | cons a children siblings, g => cons a children (siblings.append g)

instance : Append (Forest α) := ⟨append⟩

theorem cons_append (a : α) (children siblings g : Forest α) :
    cons a children siblings ++ g = cons a children (siblings ++ g) := rfl

/-- A node comes before its children, and these before its siblings. -/
def preorder : Forest α → List α
  | nil => []
  | cons a children siblings => a :: (children.preorder ++ siblings.preorder)

theorem preorder_append (f g : Forest α) : (f ++ g).preorder = f.preorder ++ g.preorder := by
  induction f with
  | nil => rfl
  | cons a children siblings _ ih => rw [cons_append, preorder, preorder, ih, List.cons_append, List.append_assoc]

/-- `R` holds between every node and the key of its parent, `p` standing above the roots. -/
def Linked (key : α → β) (R : β → α → Prop) : β → Forest α → Prop
  | _, nil => True
  | p, cons a children siblings => R p a ∧ Linked key R (key a) children ∧ Linked key R p siblings

inductive Descends : Forest α → List α → Prop where
  | here {a children siblings} : Descends (cons a children siblings) [a]
  | down {a children siblings path} (h : Descends children path) : Descends (cons a children siblings) (a :: path)
  | along {a children siblings path} (h : Descends siblings path) : Descends (cons a children siblings) path

variable {key : α → β} {R : β → α → Prop} {p : β} {f g : Forest α}

theorem Linked.append (hf : Linked key R p f) (hg : Linked key R p g) : Linked key R p (f ++ g) := by
  induction f with
  | nil => exact hg
  | cons a children siblings _ ih =>
    obtain ⟨ha, hc, hs⟩ := hf
    exact ⟨ha, hc, ih hs⟩

/-- The law holds along every way down. -/
theorem Descends.isChain {path : List α} (h : Descends f path) (hl : Linked key R p f) :
    path.IsChain (fun a b => R (key a) b) ∧ ∀ a ∈ path.head?, R p a := by
  induction h generalizing p with
  | here =>
    refine ⟨List.isChain_singleton _, ?_⟩
    rintro a ⟨⟩
    exact hl.1
  | down _ ih =>
    obtain ⟨hc, hd⟩ := ih hl.2.1
    refine ⟨List.isChain_cons.mpr ⟨hd, hc⟩, ?_⟩
    rintro a ⟨⟩
    exact hl.1
  | along _ ih => exact ih hl.2.2

/-- What a node of the kind `P` takes over from its parent comes down from the root along
nodes of that kind. -/
theorem Descends.inherits {m : α → γ} {P : α → Prop} {a : α} {path : List α} (h : Descends f (a :: path))
    (hl : Linked key R p f) (hm : ∀ x y, R (key x) y → P y → m y = m x) (hP : ∀ b ∈ path, P b) :
    ∀ b ∈ path, m b = m a := by
  have hc := (h.isChain hl).1
  clear h
  induction path generalizing a with
  | nil => simp
  | cons c path ih =>
    obtain ⟨hac, hc⟩ := List.isChain_cons_cons.mp hc
    have hca : m c = m a := hm a c hac (hP c List.mem_cons_self)
    intro b hb
    rcases List.mem_cons.mp hb with rfl | hb
    · exact hca
    · exact (ih (fun d hd => hP d (List.mem_cons_of_mem _ hd)) hc b hb).trans hca

end Forest
end NTrade.Lib
