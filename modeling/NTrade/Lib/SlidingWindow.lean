import Mathlib.Algebra.Order.Group.Defs
import Mathlib.Algebra.Order.Monoid.Unbundled.Basic
import Mathlib.Data.List.TakeWhile

/-! Sliding windows over time stamps: a log that forgets only what can no longer count. -/
namespace NTrade.Lib.SlidingWindow
variable {α : Type*} [AddCommGroup α] [LinearOrder α]

/-- Every half-open interval of the span, on either side, contains at most `limit` stamps. -/
def Within (span : α) (limit : Nat) (ts : List α) : Prop :=
  ∀ a, (ts.countP fun t => a ≤ t ∧ t < a + span) ≤ limit ∧ (ts.countP fun t => a < t ∧ t ≤ a + span) ≤ limit

/-- A log drops what is not after the horizon from its front. -/
def expire (horizon : α) (ts : List α) : List α := ts.dropWhile (· ≤ horizon)

variable {span horizon t : α} {limit : Nat} {gone kept : List α}

theorem Within.nil : Within span limit ([] : List α) := fun _ => ⟨Nat.zero_le _, Nat.zero_le _⟩

omit [AddCommGroup α] in
theorem exists_expired (horizon : α) (ts : List α) :
    ∃ expired, ts = expired ++ expire horizon ts ∧ ∀ t ∈ expired, t ≤ horizon := by
  refine ⟨ts.takeWhile (· ≤ horizon), List.takeWhile_append_dropWhile.symm, fun t ht => ?_⟩
  have h := List.mem_takeWhile_imp ht
  exact of_decide_eq_true h

omit [AddCommGroup α] in
theorem length_expire_le (horizon : α) (ts : List α) : (expire horizon ts).length ≤ ts.length :=
  (List.dropWhile_suffix _).length_le

omit [AddCommGroup α] in
theorem expire_cons (h : t ≤ horizon) (ts : List α) : expire horizon (t :: ts) = expire horizon ts := by
  rw [expire, List.dropWhile_cons, if_pos (decide_eq_true h), expire]

omit [AddCommGroup α] in
/-- What a log keeps in front is after the horizon. -/
theorem lt_of_head_expire {ts rest : List α} (h : expire horizon ts = t :: rest) : horizon < t := by
  have hn := List.head?_dropWhile_not (fun t => decide (t ≤ horizon)) ts
  rw [expire] at h
  rw [h] at hn
  exact not_le.mp (of_decide_eq_false hn)

variable [IsOrderedAddMonoid α]

omit [AddCommGroup α] [LinearOrder α] [IsOrderedAddMonoid α] in
private theorem countP_concat_le {p : α → Bool} (h : (gone ++ kept).countP p ≤ limit)
    (hg : p t = true → ∀ s ∈ gone, ¬p s = true) (hk : kept.length < limit) : (gone ++ kept ++ [t]).countP p ≤ limit := by
  rw [List.countP_append, List.countP_singleton]
  split
  · next ht =>
    have hgone : gone.countP p = 0 := List.countP_eq_zero.mpr (hg ht)
    have hkept : kept.countP p ≤ kept.length := List.countP_le_length
    rw [List.countP_append, hgone]
    omega
  · omega

/-- A stamp joins a log whose remembered part is short and whose forgotten part is a span old. -/
theorem Within.concat (h : Within span limit (gone ++ kept)) (hg : ∀ s ∈ gone, s + span ≤ t) (hk : kept.length < limit) :
    Within span limit (gone ++ kept ++ [t]) := by
  intro a
  refine ⟨countP_concat_le (h a).1 ?_ hk, countP_concat_le (h a).2 ?_ hk⟩
  · intro ht s hs hps
    simp only [decide_eq_true_eq] at ht hps
    have hle : a + span ≤ s + span := by gcongr; exact hps.1
    exact absurd (hle.trans (hg s hs)) (not_le.mpr ht.2)
  · intro ht s hs hps
    simp only [decide_eq_true_eq] at ht hps
    have hlt : a + span < s + span := by gcongr; exact hps.1
    exact absurd (hlt.trans_le (hg s hs)) (not_lt.mpr ht.2)

end NTrade.Lib.SlidingWindow
