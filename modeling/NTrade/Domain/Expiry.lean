import NTrade.Domain.Derivatives
import NTrade.Lib.Interleaved
import Mathlib

/-! The options of one expiry that are out of the money or in it, calls and puts in turn. -/
namespace NTrade.Domain.Derivatives

open NTrade.Lib.Interleaved

/-- All options of one expiry date, and the price that its at-the-money strike is nearest to. -/
structure Expiry where
  options : List (OptionContract Rat)
  atmStrike : Rat

section Loop

variable {α : Type*}

/-- The selected options after one side had its turn, the side's cursor, and whether an option was added. -/
structure Turn (α : Type*) where
  result : List α
  cursor : Nat
  added : Bool

def turn (side : List α) (cursor : Nat) (result : List α) (added : Bool) : Turn α :=
  if h : cursor < side.length then ⟨result ++ [side[cursor]], cursor + 1, true⟩ else ⟨result, cursor, added⟩

/-- A turn adds the next option of the side, if it has one. -/
theorem result_turn (side : List α) (cursor : Nat) (result : List α) (added : Bool) :
    (turn side cursor result added).result = result ++ (side.drop cursor).take 1 := by
  unfold turn
  split_ifs with h
  · rw [List.drop_eq_getElem_cons h, List.take_succ_cons, List.take_zero]
  · rw [List.drop_eq_nil_of_le (not_lt.mp h), List.take_nil, List.append_nil]

theorem drop_turn (side : List α) (cursor : Nat) (result : List α) (added : Bool) :
    side.drop (turn side cursor result added).cursor = (side.drop cursor).drop 1 := by
  unfold turn
  split_ifs with h
  · rw [List.drop_drop]
  · rw [List.drop_eq_nil_of_le (not_lt.mp h), List.drop_nil]

theorem added_turn (side : List α) (cursor : Nat) (result : List α) (added : Bool) :
    (turn side cursor result added).added = true ↔ side.drop cursor ≠ [] ∨ added = true := by
  unfold turn
  rw [Ne, List.drop_eq_nil_iff, not_le]
  split_ifs with h
  · exact iff_of_true rfl (.inl h)
  · exact (or_iff_right h).symm

theorem length_result_turn (side : List α) (cursor : Nat) (result : List α) (added : Bool) :
    (turn side cursor result added).result.length = result.length + min 1 (side.drop cursor).length := by
  rw [result_turn, List.length_append, List.length_take]

/-- Call, put, call, put, until there are `n` of them or neither side has one left. -/
def interleave (calls puts : List α) (n : Nat) (result : List α) (ci pi : Nat) : List α :=
  if result.length < n then
    let call := turn calls ci result false
    if n ≤ call.result.length then call.result
    else
      let put := turn puts pi call.result call.added
      if put.added then interleave calls puts n put.result call.cursor put.cursor else put.result
  else result
termination_by n - result.length
decreasing_by
  rename_i hlt _ hadded
  have hnonempty := (added_turn _ _ _ _).mp hadded
  rw [added_turn, ← List.length_pos_iff, ← List.length_pos_iff] at hnonempty
  rw [length_result_turn, length_result_turn]
  simp only [Bool.false_eq_true, or_false] at hnonempty
  omega

/-- The loop selects the first of the two sides interleaved. -/
theorem interleave_eq_take (calls puts : List α) (n : Nat) (result : List α) (ci pi : Nat) (hle : result.length ≤ n) :
    interleave calls puts n result ci pi = (result ++ (calls.drop ci).interleave (puts.drop pi)).take n := by
  fun_induction interleave calls puts n result ci pi with
  | case1 result ci pi hlt call hfull =>
    have hlength : call.result.length = _ := length_result_turn calls ci result false
    have hresult : call.result = _ := result_turn calls ci result false
    rw [interleave_round, ← List.append_assoc, ← hresult]
    exact (List.take_left' (by omega)).symm
  | case2 result ci pi hlt call hfull put hadded ih =>
    have hlength : put.result.length = _ := length_result_turn puts pi call.result call.added
    have hcall : call.result = _ := result_turn calls ci result false
    have hput : put.result = _ := result_turn puts pi call.result call.added
    have hci : calls.drop call.cursor = _ := drop_turn calls ci result false
    have hpi : puts.drop put.cursor = _ := drop_turn puts pi call.result call.added
    rw [ih (by omega), hci, hpi, interleave_round (calls.drop ci), ← List.append_assoc result, ← hcall,
      ← List.append_assoc call.result, ← hput]
  | case3 result ci pi hlt call hfull put hadded =>
    have hnone := (added_turn puts pi call.result call.added).not.mp hadded
    rw [not_or, not_not] at hnone
    have hcalls := (added_turn calls ci result false).not.mp hnone.2
    rw [not_or, not_not] at hcalls
    have hcall : call.result = _ := result_turn calls ci result false
    have hput : put.result = _ := result_turn puts pi call.result call.added
    rw [hput, hcall, hcalls.1, hnone.1, List.nil_interleave]
    simp only [List.take_nil, List.append_nil]
    exact (List.take_of_length_le hle).symm
  | case4 result ci pi hge => exact (List.take_left' (by omega)).symm

end Loop

def firstAt (options : List (OptionContract Rat)) (optionType : OptionType) (s : Rat) : Option (OptionContract Rat) :=
  options.find? fun o => o.strike = s ∧ o.optionType = optionType

theorem firstAt_some {options : List (OptionContract Rat)} {t : OptionType} {k : Rat} {o : OptionContract Rat}
    (h : firstAt options t k = some o) : o ∈ options ∧ o.strike = k ∧ o.optionType = t := by
  rw [firstAt] at h
  have hfound := List.find?_some h
  exact ⟨List.mem_of_find?_eq_some h, of_decide_eq_true hfound⟩

namespace Expiry

section Model

variable (e : Expiry)

def strikes : List Rat := Derivatives.strikes e.options

/-- `_atm_index`: the first of the strikes that are nearest to the price, 0 where there are no strikes. -/
def atmIndex : Nat := ((List.range e.strikes.length).argmin fun i => |e.strikes.getD i 0 - e.atmStrike|).getD 0

def otm (n : Nat) : List (OptionContract Rat) :=
  let otmCalls := (e.strikes.drop (e.atmIndex + 1)).filterMap (firstAt e.options .CE)
  let otmPuts := (e.strikes.take e.atmIndex).reverse.filterMap (firstAt e.options .PE)
  interleave otmCalls otmPuts n [] 0 0

def itm (n : Nat) : List (OptionContract Rat) :=
  let itmCalls := (e.strikes.take e.atmIndex).reverse.filterMap (firstAt e.options .CE)
  let itmPuts := (e.strikes.drop (e.atmIndex + 1)).filterMap (firstAt e.options .PE)
  interleave itmCalls itmPuts n [] 0 0

def atm : Rat := e.strikes.getD e.atmIndex 0

def Otm (o : OptionContract Rat) : Prop :=
  o.optionType = .CE ∧ e.atm < o.strike ∨ o.optionType = .PE ∧ o.strike < e.atm

def Itm (o : OptionContract Rat) : Prop :=
  o.optionType = .CE ∧ o.strike < e.atm ∨ o.optionType = .PE ∧ e.atm < o.strike

instance : DecidablePred e.Otm := fun _ => inferInstanceAs (Decidable (_ ∨ _))

instance : DecidablePred e.Itm := fun _ => inferInstanceAs (Decidable (_ ∨ _))

def distance (o : OptionContract Rat) : Rat := |o.strike - e.atm|

variable (P : OptionContract Rat → Prop) [DecidablePred P]

/-- How many options of a type there are to choose from, contracts of one strike taken as one. -/
def available (optionType : OptionType) : Nat :=
  (Derivatives.strikes (e.options.filter fun o => P o ∧ o.optionType = optionType)).length

/-- A selection of at most `n` options of one kind: as many as there are, no contract twice, the nearest to the money of
each type and these in order, and call and put in turn while both types last. -/
structure Selection (n : Nat) (result : List (OptionContract Rat)) : Prop where
  offered : ∀ o ∈ result, o ∈ e.options ∧ P o
  count : result.length = min n (e.available P .CE + e.available P .PE)
  distinct : result.Pairwise fun o o' => (o.strike, o.optionType) ≠ (o'.strike, o'.optionType)
  in_order : result.Pairwise fun o o' => o.optionType = o'.optionType → e.distance o < e.distance o'
  nearest : ∀ o ∈ result, ∀ o' ∈ e.options, P o' → o'.optionType = o.optionType → e.distance o' < e.distance o →
    ∃ o'' ∈ result, o''.strike = o'.strike ∧ o''.optionType = o'.optionType
  in_turn : ∀ i o, i < 2 * min (e.available P .CE) (e.available P .PE) → result[i]? = some o →
    o.optionType = if i % 2 = 0 then .CE else .PE

end Model

section Sides

variable {e : Expiry}

private theorem atmIndex_mem (h : e.strikes ≠ []) :
    e.atmIndex ∈ (List.range e.strikes.length).argmin fun i => |e.strikes.getD i 0 - e.atmStrike| := by
  have hrange : List.range e.strikes.length ≠ [] := List.range_eq_nil.not.mpr (List.length_eq_zero_iff.not.mpr h)
  have hsome : ((List.range e.strikes.length).argmin fun i => |e.strikes.getD i 0 - e.atmStrike|) ≠ none :=
    List.argmin_eq_none.not.mpr hrange
  obtain ⟨i, hi⟩ := Option.ne_none_iff_exists'.mp hsome
  rw [atmIndex, hi]
  rfl

theorem atmIndex_lt (h : e.strikes ≠ []) : e.atmIndex < e.strikes.length :=
  List.mem_range.mp (List.argmin_mem (atmIndex_mem h))

/-- The strike at the money is a strike, and no other is nearer to the price. -/
theorem atm_nearest (h : e.strikes ≠ []) :
    e.atm ∈ e.strikes ∧ ∀ k ∈ e.strikes, |e.atm - e.atmStrike| ≤ |k - e.atmStrike| := by
  constructor
  · rw [atm, List.getD_eq_getElem _ _ (atmIndex_lt h)]
    exact List.getElem_mem _
  · intro k hk
    obtain ⟨i, hi, rfl⟩ := List.mem_iff_getElem.mp hk
    have hle := List.le_of_mem_argmin (List.mem_range.mpr hi) (atmIndex_mem h)
    rwa [List.getD_eq_getElem _ _ hi] at hle

/-- The strikes around the one at the money. -/
private theorem strikes_eq (h : e.strikes ≠ []) :
    e.strikes = e.strikes.take e.atmIndex ++ e.atm :: e.strikes.drop (e.atmIndex + 1) := by
  have hlt := atmIndex_lt h
  rw [atm, List.getD_eq_getElem _ _ hlt, ← List.drop_eq_getElem_cons hlt, List.take_append_drop]

private theorem around_atm (h : e.strikes ≠ []) :
    (∀ k ∈ e.strikes.take e.atmIndex, k < e.atm) ∧ ∀ k ∈ e.strikes.drop (e.atmIndex + 1), e.atm < k := by
  have hincreasing : e.strikes.Pairwise (· < ·) := strikes_increasing
  rw [strikes_eq h, List.pairwise_append, List.pairwise_cons] at hincreasing
  exact ⟨fun k hk => hincreasing.2.2 k hk e.atm List.mem_cons_self, hincreasing.2.1.1⟩

theorem mem_above {k : Rat} : k ∈ e.strikes.drop (e.atmIndex + 1) ↔ k ∈ e.strikes ∧ e.atm < k := by
  by_cases h : e.strikes = []
  · simp [h]
  · obtain ⟨hbelow, habove⟩ := around_atm h
    constructor
    · exact fun hk => ⟨List.mem_of_mem_drop hk, habove k hk⟩
    · rintro ⟨hk, hlt⟩
      rw [strikes_eq h, List.mem_append, List.mem_cons] at hk
      rcases hk with hk | rfl | hk
      · exact absurd hlt (hbelow k hk).not_gt
      · exact absurd hlt (lt_irrefl _)
      · exact hk

theorem mem_below {k : Rat} : k ∈ e.strikes.take e.atmIndex ↔ k ∈ e.strikes ∧ k < e.atm := by
  by_cases h : e.strikes = []
  · simp [h]
  · obtain ⟨hbelow, habove⟩ := around_atm h
    constructor
    · exact fun hk => ⟨List.mem_of_mem_take hk, hbelow k hk⟩
    · rintro ⟨hk, hlt⟩
      rw [strikes_eq h, List.mem_append, List.mem_cons] at hk
      rcases hk with hk | rfl | hk
      · exact hk
      · exact absurd hlt (lt_irrefl _)
      · exact absurd hlt (habove k hk).not_gt

variable {P : OptionContract Rat → Prop} {t : OptionType} {side calls puts : List (OptionContract Rat)}

structure Side (e : Expiry) (P : OptionContract Rat → Prop) (t : OptionType) (side : List (OptionContract Rat)) : Prop where
  offered : ∀ o ∈ side, (o ∈ e.options ∧ P o) ∧ o.optionType = t
  in_order : side.Pairwise fun o o' => e.distance o < e.distance o'
  complete : ∀ o ∈ e.options, P o → o.optionType = t → ∃ o' ∈ side, o'.strike = o.strike

theorem Side.length [DecidablePred P] (h : Side e P t side) : side.length = e.available P t := by
  have hnodup : (side.map OptionContract.strike).Nodup := by
    apply List.pairwise_map.mpr
    exact h.in_order.imp fun hlt heq => hlt.ne (congrArg (fun k => |k - e.atm|) heq)
  have hnodup' : (Derivatives.strikes (e.options.filter fun o => P o ∧ o.optionType = t)).Nodup :=
    strikes_increasing.imp ne_of_lt
  have hperm : (side.map OptionContract.strike).Perm
      (Derivatives.strikes (e.options.filter fun o => P o ∧ o.optionType = t)) := by
    apply (List.perm_ext_iff_of_nodup hnodup hnodup').mpr
    intro k
    rw [mem_strikes, List.mem_map]
    constructor
    · rintro ⟨o, ho, rfl⟩
      obtain ⟨⟨hmem, hP⟩, ht⟩ := h.offered o ho
      exact ⟨o, List.mem_filter.mpr ⟨hmem, decide_eq_true ⟨hP, ht⟩⟩, rfl⟩
    · rintro ⟨o, ho, rfl⟩
      obtain ⟨hmem, hPt⟩ := List.mem_filter.mp ho
      obtain ⟨hP, ht⟩ := of_decide_eq_true hPt
      exact h.complete o hmem hP ht
  rw [available, ← hperm.length_eq, List.length_map]

/-- The first contracts of one type at strikes that are nearest first, where they are those of the type's options. -/
private theorem side_filterMap {ks : List Rat} (horder : ks.Pairwise fun k k' => |k - e.atm| < |k' - e.atm|)
    (hks : ∀ o, o.optionType = t → (o.strike ∈ ks ∧ o ∈ e.options ↔ o ∈ e.options ∧ P o)) :
    Side e P t (ks.filterMap (firstAt e.options t)) := by
  refine ⟨fun o ho => ?_, ?_, fun o ho hP ht => ?_⟩
  · obtain ⟨k, hk, hfirst⟩ := List.mem_filterMap.mp ho
    obtain ⟨hmem, rfl, ht⟩ := firstAt_some hfirst
    exact ⟨(hks o ht).mp ⟨hk, hmem⟩, ht⟩
  · apply List.Pairwise.filterMap _ _ horder
    intro k k' hlt o ho o' ho'
    obtain ⟨-, rfl, -⟩ := firstAt_some ho
    obtain ⟨-, rfl, -⟩ := firstAt_some ho'
    exact hlt
  · have hsome : (firstAt e.options t o.strike).isSome := by
      apply List.find?_isSome.mpr
      exact ⟨o, ho, decide_eq_true ⟨rfl, ht⟩⟩
    obtain ⟨o', ho'⟩ := Option.isSome_iff_exists.mp hsome
    exact ⟨o', List.mem_filterMap.mpr ⟨o.strike, ((hks o ht).mpr ⟨ho, hP⟩).1, ho'⟩, (firstAt_some ho').2.1⟩

/-- The options above the money, nearest first. -/
theorem side_above (h : ∀ o, o.optionType = t → (P o ↔ e.atm < o.strike)) :
    Side e P t ((e.strikes.drop (e.atmIndex + 1)).filterMap (firstAt e.options t)) := by
  apply side_filterMap
  · have hincreasing : (e.strikes.drop (e.atmIndex + 1)).Pairwise (· < ·) :=
      List.Pairwise.sublist (List.drop_sublist _ _) strikes_increasing
    refine hincreasing.imp_of_mem fun hk hk' hlt => ?_
    rw [abs_of_pos (sub_pos.mpr (mem_above.mp hk).2), abs_of_pos (sub_pos.mpr (mem_above.mp hk').2)]
    exact sub_lt_sub_right hlt _
  · intro o ht
    rw [mem_above, h o ht]
    exact ⟨fun ⟨⟨_, hlt⟩, ho⟩ => ⟨ho, hlt⟩, fun ⟨ho, hlt⟩ => ⟨⟨mem_strikes.mpr ⟨o, ho, rfl⟩, hlt⟩, ho⟩⟩

/-- The options below the money, nearest first. -/
theorem side_below (h : ∀ o, o.optionType = t → (P o ↔ o.strike < e.atm)) :
    Side e P t ((e.strikes.take e.atmIndex).reverse.filterMap (firstAt e.options t)) := by
  apply side_filterMap
  · have hincreasing : (e.strikes.take e.atmIndex).Pairwise (· < ·) :=
      List.Pairwise.sublist (List.take_sublist _ _) strikes_increasing
    apply List.pairwise_reverse.mpr
    refine hincreasing.imp_of_mem fun hk hk' hlt => ?_
    rw [abs_of_neg (sub_neg.mpr (mem_below.mp hk).2), abs_of_neg (sub_neg.mpr (mem_below.mp hk').2)]
    exact neg_lt_neg (sub_lt_sub_right hlt _)
  · intro o ht
    rw [List.mem_reverse, mem_below, h o ht]
    exact ⟨fun ⟨⟨_, hlt⟩, ho⟩ => ⟨ho, hlt⟩, fun ⟨ho, hlt⟩ => ⟨⟨mem_strikes.mpr ⟨o, ho, rfl⟩, hlt⟩, ho⟩⟩

/-- Options of one type come in order when both types are taken in turn. -/
private theorem in_order_interleave (hc : Side e P .CE calls) (hp : Side e P .PE puts) :
    (calls.interleave puts).Pairwise fun o o' => o.optionType = o'.optionType → e.distance o < e.distance o' := by
  have hcalls : ((calls.interleave puts).filter fun o => o.optionType = .CE) = calls := by
    apply filter_interleave_left
    · exact fun o ho => decide_eq_true (hc.offered o ho).2
    · intro o ho
      rw [(hp.offered o ho).2]
      rfl
  have hputs : ((calls.interleave puts).filter fun o => o.optionType = .PE) = puts := by
    apply filter_interleave_right
    · intro o ho
      rw [(hc.offered o ho).2]
      rfl
    · exact fun o ho => decide_eq_true (hp.offered o ho).2
  have hce := hc.in_order
  have hpe := hp.in_order
  rw [← hcalls, List.pairwise_filter] at hce
  rw [← hputs, List.pairwise_filter] at hpe
  refine (hce.and hpe).imp fun {o o'} h heq => ?_
  cases ho : o.optionType with
  | CE => exact h.1 (decide_eq_true ho) (decide_eq_true (heq ▸ ho))
  | PE => exact h.2 (decide_eq_true ho) (decide_eq_true (heq ▸ ho))

/-- The first options of the two sides in turn are a selection. -/
theorem selection_take [DecidablePred P] (hc : Side e P .CE calls) (hp : Side e P .PE puts) (n : Nat) :
    e.Selection P n ((calls.interleave puts).take n) := by
  have horder := in_order_interleave hc hp
  have hmem (o : OptionContract Rat) : o ∈ calls.interleave puts ↔ o ∈ calls ∨ o ∈ puts := by
    rw [List.interleave_perm_append.mem_iff, List.mem_append]
  refine ⟨fun o ho => ?_, ?_, ?_, horder.sublist (List.take_sublist n _), ?_, ?_⟩
  · rcases (hmem o).mp (List.mem_of_mem_take ho) with ho | ho
    · exact (hc.offered o ho).1
    · exact (hp.offered o ho).1
  · rw [List.length_take, List.length_interleave, hc.length, hp.length]
  · refine (horder.sublist (List.take_sublist n _)).imp fun {o o'} h heq => ?_
    obtain ⟨hstrike, htype⟩ := Prod.mk.inj heq
    exact (h htype).ne (congrArg (fun k => |k - e.atm|) hstrike)
  · intro o ho o' ho' hP htype hlt
    have hnear : ∃ o'' ∈ calls.interleave puts, o''.strike = o'.strike ∧ o''.optionType = o'.optionType := by
      cases ht : o'.optionType with
      | CE =>
        obtain ⟨o'', hmem'', hstrike⟩ := hc.complete o' ho' hP ht
        exact ⟨o'', (hmem o'').mpr (.inl hmem''), hstrike, (hc.offered o'' hmem'').2⟩
      | PE =>
        obtain ⟨o'', hmem'', hstrike⟩ := hp.complete o' ho' hP ht
        exact ⟨o'', (hmem o'').mpr (.inr hmem''), hstrike, (hp.offered o'' hmem'').2⟩
    obtain ⟨o'', hmem'', hstrike, htype''⟩ := hnear
    rw [← List.take_append_drop n (calls.interleave puts), List.mem_append] at hmem''
    refine ⟨o'', hmem''.resolve_right fun hlater => ?_, hstrike, htype''⟩
    -- a nearer option cannot come after one that was selected
    rw [← List.take_append_drop n (calls.interleave puts), List.pairwise_append] at horder
    have hfar := horder.2.2 o ho o'' hlater (htype.symm.trans htype''.symm)
    rw [distance, distance, hstrike] at hfar
    exact lt_asymm hfar hlt
  · intro i o hi ho
    rw [← hc.length, ← hp.length] at hi
    have hplace := getElem?_interleave calls puts i hi
    rw [List.getElem?_take] at ho
    split_ifs at ho
    rw [hplace] at ho
    split_ifs at ho ⊢
    · exact (hc.offered o (List.mem_of_getElem? ho)).2
    · exact (hp.offered o (List.mem_of_getElem? ho)).2

end Sides

variable (e : Expiry)

/-- The options out of the money, calls and puts in turn, of which `otm` gives the first. -/
theorem otm_eq_take (n : Nat) : e.otm n =
    (((e.strikes.drop (e.atmIndex + 1)).filterMap (firstAt e.options .CE)).interleave
      ((e.strikes.take e.atmIndex).reverse.filterMap (firstAt e.options .PE))).take n :=
  interleave_eq_take _ _ n [] 0 0 (Nat.zero_le n)

/-- The options in the money, calls and puts in turn, of which `itm` gives the first. -/
theorem itm_eq_take (n : Nat) : e.itm n =
    (((e.strikes.take e.atmIndex).reverse.filterMap (firstAt e.options .CE)).interleave
      ((e.strikes.drop (e.atmIndex + 1)).filterMap (firstAt e.options .PE))).take n :=
  interleave_eq_take _ _ n [] 0 0 (Nat.zero_le n)

theorem otm_selection (n : Nat) : e.Selection e.Otm n (e.otm n) := by
  rw [otm_eq_take]
  apply selection_take
  · exact side_above fun o ht => by simp [Otm, ht]
  · exact side_below fun o ht => by simp [Otm, ht]

theorem itm_selection (n : Nat) : e.Selection e.Itm n (e.itm n) := by
  rw [itm_eq_take]
  apply selection_take
  · exact side_below fun o ht => by simp [Itm, ht]
  · exact side_above fun o ht => by simp [Itm, ht]

theorem Otm.strike_ne {o : OptionContract Rat} (h : e.Otm o) : o.strike ≠ e.atm := by
  rcases h with ⟨-, h⟩ | ⟨-, h⟩
  · exact h.ne'
  · exact h.ne

theorem Itm.strike_ne {o : OptionContract Rat} (h : e.Itm o) : o.strike ≠ e.atm := by
  rcases h with ⟨-, h⟩ | ⟨-, h⟩
  · exact h.ne
  · exact h.ne'

theorem Otm.not_itm {o : OptionContract Rat} (h : e.Otm o) : ¬ e.Itm o := by
  unfold Otm at h
  unfold Itm
  grind

/-- The money is at the strike nearest to the price. What `otm` and `itm` select, that they share no option, never have
one at the money, and that a longer selection continues a shorter one. -/
theorem otm_itm_select (n m : Nat) :
    (∀ k ∈ e.strikes, e.atm ∈ e.strikes ∧ |e.atm - e.atmStrike| ≤ |k - e.atmStrike|) ∧
      e.Selection e.Otm n (e.otm n) ∧ e.Selection e.Itm n (e.itm n) ∧ (∀ o ∈ e.otm n, o ∉ e.itm m) ∧
      (∀ o, o ∈ e.otm n ∨ o ∈ e.itm n → o.strike ≠ e.atm) ∧ e.otm n <+: e.otm (n + 1) ∧ e.itm n <+: e.itm (n + 1) := by
  refine ⟨fun k hk => ?_, e.otm_selection n, e.itm_selection n, fun o ho ho' => ?_, ?_, ?_, ?_⟩
  · obtain ⟨hatm, hnear⟩ := e.atm_nearest (List.ne_nil_of_mem hk)
    exact ⟨hatm, hnear k hk⟩
  · exact Otm.not_itm e ((e.otm_selection n).offered o ho).2 ((e.itm_selection m).offered o ho').2
  · rintro o (ho | ho)
    · exact Otm.strike_ne e ((e.otm_selection n).offered o ho).2
    · exact Itm.strike_ne e ((e.itm_selection n).offered o ho).2
  · rw [otm_eq_take, otm_eq_take]
    exact List.take_prefix_take_left (Nat.le_succ n)
  · rw [itm_eq_take, itm_eq_take]
    exact List.take_prefix_take_left (Nat.le_succ n)

example : (Expiry.mk [⟨100, .PE, 1⟩, ⟨110, .CE, 2⟩, ⟨120, .CE, 3⟩, ⟨110, .CE, 4⟩, ⟨90, .CE, 5⟩, ⟨90, .PE, 6⟩, ⟨130, .CE, 7⟩] 104).otm 3 =
    [⟨110, .CE, 2⟩, ⟨90, .PE, 6⟩, ⟨120, .CE, 3⟩] := by
  simp only [otm_eq_take]
  decide +kernel

end Expiry

end NTrade.Domain.Derivatives
