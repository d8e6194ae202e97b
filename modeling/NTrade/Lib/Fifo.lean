import Mathlib.Algebra.BigOperators.Group.List.Basic
import Mathlib.Algebra.Ring.Basic
import Mathlib.Data.Nat.Cast.Basic
import Mathlib.Tactic.Ring

/-! First-in-first-out lots: what a trade closes of the lots of the other side, oldest first, and
what it opens. -/
namespace NTrade.Lib.Fifo
variable {τ : Type*}

def shares (lots : List (Nat × τ)) : Nat := (lots.map Prod.fst).sum

def front : Nat → List (Nat × τ) → List (Nat × τ)
  | _, [] => []
  | n, (m, t) :: lots => (min n m, t) :: front (n - m) lots

def behind : Nat → List (Nat × τ) → List (Nat × τ)
  | _, [] => []
  | n, (m, t) :: lots => (m - n, t) :: behind (n - m) lots

structure Book (τ : Type*) where
  long : List (Nat × τ) := []
  short : List (Nat × τ) := []

namespace Book

def against (b : Book τ) (buy : Bool) : List (Nat × τ) := if buy then b.short else b.long

def closed (b : Book τ) (buy : Bool) (n : Nat) : List (Nat × τ) := front n (b.against buy)

/-- A trade closes what is open of the other side, and opens the rest. -/
def trade (b : Book τ) (buy : Bool) (n : Nat) (t : τ) : Book τ :=
  let opened := (n - shares (b.against buy), t)
  if buy then { long := b.long ++ [opened], short := behind n b.short }
  else { long := behind n b.long, short := b.short ++ [opened] }

/-- Only one side is open. -/
def OneSided (b : Book τ) : Prop := shares b.long = 0 ∨ shares b.short = 0

def net (b : Book τ) : Int := shares b.long - shares b.short

end Book

section Shares
variable {n m : Nat} {lots : List (Nat × τ)}

@[simp] theorem shares_nil : shares ([] : List (Nat × τ)) = 0 := rfl

@[simp] theorem shares_cons (l : Nat × τ) (lots : List (Nat × τ)) : shares (l :: lots) = l.1 + shares lots := by
  simp [shares]

@[simp] theorem shares_append (xs ys : List (Nat × τ)) : shares (xs ++ ys) = shares xs + shares ys := by
  simp [shares]

theorem shares_front (n : Nat) (lots : List (Nat × τ)) : shares (front n lots) = min n (shares lots) := by
  induction lots generalizing n with
  | nil => simp [front]
  | cons l lots ih =>
    rw [front, shares_cons, shares_cons, ih]
    dsimp only
    omega

theorem shares_behind (n : Nat) (lots : List (Nat × τ)) : shares (behind n lots) = shares lots - n := by
  induction lots generalizing n with
  | nil => simp [behind]
  | cons l lots ih =>
    rw [behind, shares_cons, shares_cons, ih]
    dsimp only
    omega

@[simp] theorem behind_zero (lots : List (Nat × τ)) : behind 0 lots = lots := by
  induction lots with
  | nil => rfl
  | cons l lots ih =>
    rw [behind, Nat.sub_zero, Nat.zero_sub, ih]

end Shares

section Cost
variable {K : Type*} [CommRing K] (v : τ → K) (n : Nat) (lots : List (Nat × τ))

def cost : K := (lots.map fun l => v l.2 * (l.1 : K)).sum

/-- What a trade at a price realizes on lots: a sale gains over their prices, a purchase under them. -/
def gain (sale : Bool) (price : K) : K :=
  (lots.map fun l => (if sale then price - v l.2 else v l.2 - price) * (l.1 : K)).sum

@[simp] theorem cost_nil : cost v ([] : List (Nat × τ)) = 0 := rfl

@[simp] theorem cost_cons (l : Nat × τ) : cost v (l :: lots) = v l.2 * (l.1 : K) + cost v lots := by
  simp [cost]

@[simp] theorem cost_append (lots' : List (Nat × τ)) : cost v (lots ++ lots') = cost v lots + cost v lots' := by
  simp [cost]

theorem cost_of_shares {lots : List (Nat × τ)} (h : shares lots = 0) : cost v lots = 0 := by
  induction lots with
  | nil => rfl
  | cons l lots ih =>
    obtain ⟨hl, hlots⟩ := Nat.add_eq_zero_iff.mp ((shares_cons l lots).symm.trans h)
    rw [cost_cons, hl, ih hlots, Nat.cast_zero, mul_zero, add_zero]

theorem cost_front_add_behind : cost v (front n lots) + cost v (behind n lots) = cost v lots := by
  induction lots generalizing n with
  | nil => simp [front, behind]
  | cons l lots ih =>
    have hsplit : min n l.1 + (l.1 - n) = l.1 := by omega
    have hl : ((min n l.1 : Nat) : K) + ((l.1 - n : Nat) : K) = (l.1 : K) := by rw [← Nat.cast_add, hsplit]
    rw [front, behind, cost_cons, cost_cons, cost_cons, ← ih (n - l.1), ← hl]
    ring

theorem gain_eq (sale : Bool) (price : K) :
    gain v lots sale price = (if sale then 1 else -1) * (price * (shares lots : K) - cost v lots) := by
  rw [gain]
  induction lots with
  | nil => simp
  | cons l lots ih =>
    rw [List.map_cons, List.sum_cons, ih, shares_cons, cost_cons]
    push_cast
    cases sale <;> simp <;> ring

@[simp] theorem gain_cons (l : Nat × τ) (sale : Bool) (price : K) : gain v (l :: lots) sale price =
    (if sale then price - v l.2 else v l.2 - price) * (l.1 : K) + gain v lots sale price := by
  simp [gain]

theorem gain_of_shares {lots : List (Nat × τ)} (h : shares lots = 0) (sale : Bool) (price : K) :
    gain v lots sale price = 0 := by
  rw [gain_eq, h, cost_of_shares v h, Nat.cast_zero, mul_zero, sub_zero, mul_zero]

end Cost

section Retag
variable {σ : Type*} (g : τ → σ) (n : Nat) (lots : List (Nat × τ))

/-- The same shares, told by other marks. -/
def retag : List (Nat × σ) := lots.map fun l => (l.1, g l.2)

theorem front_retag : front n (retag g lots) = retag g (front n lots) := by
  induction lots generalizing n with
  | nil => rfl
  | cons l lots ih =>
    rw [retag, List.map_cons, ← retag, front, ih]
    rfl

theorem behind_retag : behind n (retag g lots) = retag g (behind n lots) := by
  induction lots generalizing n with
  | nil => rfl
  | cons l lots ih =>
    rw [retag, List.map_cons, ← retag, behind, ih]
    rfl

@[simp] theorem shares_retag : shares (retag g lots) = shares lots := by
  rw [shares, retag, List.map_map]
  rfl

theorem gain_retag {K : Type*} [CommRing K] (v : σ → K) (sale : Bool) (price : K) :
    gain v (retag g lots) sale price = gain (fun t => v (g t)) lots sale price := by
  rw [gain, retag, List.map_map]
  rfl

end Retag

section Padded
variable (spent : τ → Nat) (n : Nat) (lots : List (Nat × τ))

/-- Lots that still show the shares that they were spent on. -/
def padded : List (Nat × τ) := lots.map fun l => (l.1 + spent l.2, l.2)

def Clear : Nat → List (Nat × τ) → Prop
  | _, [] => True
  | n, l :: lots => n ≤ l.1 ∨ spent l.2 = 0 ∧ Clear (n - l.1) lots

instance decidableClear : (n : Nat) → (lots : List (Nat × τ)) → Decidable (Clear spent n lots)
  | _, [] => isTrue trivial
  | n, l :: lots =>
    have := decidableClear (n - l.1) lots
    inferInstanceAs (Decidable (n ≤ l.1 ∨ spent l.2 = 0 ∧ Clear spent (n - l.1) lots))

theorem clear_zero : Clear spent 0 lots := by
  cases lots with
  | nil => trivial
  | cons l lots => exact .inl (Nat.zero_le _)

variable {spent n lots}

theorem padded_of_clear (h : Clear spent n lots) :
    front n (padded spent lots) = front n lots ∧ behind n (padded spent lots) = padded spent (behind n lots) := by
  induction lots generalizing n with
  | nil => exact ⟨rfl, rfl⟩
  | cons l lots ih =>
    have hpad : padded spent (l :: lots) = (l.1 + spent l.2, l.2) :: padded spent lots := rfl
    rw [hpad, front, behind, front, behind]
    rcases h with hn | ⟨hs, hc⟩
    · have h0 : n - l.1 = 0 := Nat.sub_eq_zero_of_le hn
      have h1 : n - (l.1 + spent l.2) = 0 := Nat.sub_eq_zero_of_le (Nat.le_add_right_of_le hn)
      obtain ⟨hf, hb⟩ := ih (clear_zero spent lots)
      rw [h0, h1, hf, hb]
      refine ⟨?_, ?_⟩
      · rw [Nat.min_eq_left hn, Nat.min_eq_left (Nat.le_add_right_of_le hn)]
      · rw [Nat.sub_add_comm hn]
        rfl
    · obtain ⟨hf, hb⟩ := ih hc
      rw [hs, Nat.add_zero, hf, hb]
      refine ⟨rfl, ?_⟩
      rw [padded, padded, List.map_cons, hs]
      rfl

/-- Whatever takes no spent share is in front of them. -/
theorem clear_of_spent_le (h : ∀ l ∈ behind n (padded spent lots), spent l.2 ≤ l.1) : Clear spent n lots := by
  induction lots generalizing n with
  | nil => trivial
  | cons l lots ih =>
    have hpad : behind n (padded spent (l :: lots)) =
        (l.1 + spent l.2 - n, l.2) :: behind (n - (l.1 + spent l.2)) (padded spent lots) := rfl
    rw [hpad, List.forall_mem_cons] at h
    obtain ⟨hl, hlots⟩ := h
    by_cases hn : n ≤ l.1
    · exact .inl hn
    · have hs : spent l.2 = 0 := by
        dsimp only at hl
        omega
      rw [hs, Nat.add_zero] at hlots
      exact .inr ⟨hs, ih hlots⟩

/-- What is taken keeps the marks of the lots. -/
theorem exists_mem_of_mem_front {l : Nat × τ} (h : l ∈ front n lots) : ∃ m ∈ lots, m.2 = l.2 := by
  induction lots generalizing n with
  | nil => cases h
  | cons m lots ih =>
    rcases List.mem_cons.mp h with rfl | h
    · exact ⟨m, List.mem_cons_self, rfl⟩
    · obtain ⟨m', hm, he⟩ := ih h
      exact ⟨m', List.mem_cons_of_mem _ hm, he⟩

/-- What is behind keeps the marks of the lots. -/
theorem exists_mem_of_mem_behind {l : Nat × τ} (h : l ∈ behind n lots) : ∃ m ∈ lots, m.2 = l.2 := by
  induction lots generalizing n with
  | nil => cases h
  | cons m lots ih =>
    rcases List.mem_cons.mp h with rfl | h
    · exact ⟨m, List.mem_cons_self, rfl⟩
    · obtain ⟨m', hm, he⟩ := ih h
      exact ⟨m', List.mem_cons_of_mem _ hm, he⟩

end Padded

namespace Book
variable (b : Book τ) (buy : Bool) (n : Nat) (t : τ)

/-- What a trade leaves of the lots that it closes. -/
theorem against_trade : (b.trade buy n t).against buy = behind n (b.against buy) := by
  cases buy <;> rfl

/-- The lots that a trade adds to. -/
theorem against_trade_not :
    (b.trade buy n t).against (!buy) = b.against (!buy) ++ [(n - shares (b.against buy), t)] := by
  cases buy <;> rfl

/-- A trade closes at most what it trades and what was open. -/
theorem shares_closed : shares (b.closed buy n) = min n (shares (b.against buy)) := shares_front _ _

theorem net_trade : (b.trade buy n t).net = b.net + if buy then (n : Int) else -n := by
  cases buy with
  | true =>
    simp only [trade, net, against, if_true, shares_append, shares_cons, shares_nil, shares_behind]
    omega
  | false =>
    simp only [trade, net, against, Bool.false_eq_true, if_false, shares_append, shares_cons, shares_nil, shares_behind]
    omega

theorem OneSided.trade {b : Book τ} (h : b.OneSided) : (b.trade buy n t).OneSided := by
  rw [OneSided] at h ⊢
  cases buy with
  | true =>
    simp only [Book.trade, against, if_true, shares_append, shares_cons, shares_nil, shares_behind]
    omega
  | false =>
    simp only [Book.trade, against, Bool.false_eq_true, if_false, shares_append, shares_cons, shares_nil, shares_behind]
    omega

end Book
end NTrade.Lib.Fifo
