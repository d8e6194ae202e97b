import NTrade.Lib.Binary64
import NTrade.Lib.Tally
import Mathlib.Algebra.Order.BigOperators.Group.List
import Mathlib.Data.List.MinMax
import Mathlib.Data.Rat.Floor

/-! The volume profile of a frame of bars: volume by price bucket, the busiest bucket, and the value area around it. All
figures are floats, and every result is rounded to one. -/
namespace NTrade.Domain.ValueArea

open NTrade.Lib NTrade.Lib.Tally

structure Bar where
  high : Rat
  low : Rat
  volume : Rat

structure Frame where
  columns : List String
  rows : List Bar

structure VPLevel where
  price : Rat
  volume : Rat
  delta : Rat
  total : Rat
  deriving DecidableEq

structure VolumeProfile where
  levels : List VPLevel
  poc : Rat
  vah : Rat
  val : Rat
  step : Rat
  deriving DecidableEq

inductive ProfileError where
  | keyError (column : String)
  | valueError (message : String)
  deriving DecidableEq

section Grid

def least (rows : List Bar) : Rat := ((rows.map Bar.low).min?).getD 0

def greatest (rows : List Bar) : Rat := ((rows.map Bar.high).max?).getD 0

def defaultStep (rows : List Bar) : Rat :=
  let span := Binary64.round (greatest rows - least rows)
  if span ≤ 0 then 1 else max (Binary64.decimals (Binary64.round (span / 50)) 2) (Binary64.round (1 / 20))

def stepWidth (rows : List Bar) (step : Option Rat) : Rat :=
  match step with
  | some step => if 0 < step then step else defaultStep rows
  | none => defaultStep rows

theorem stepWidth_pos (rows : List Bar) (step : Option Rat) : 0 < stepWidth rows step := by
  have hdefault : 0 < defaultStep rows := by
    unfold defaultStep
    dsimp only
    split_ifs
    · exact one_pos
    · exact lt_max_of_lt_right (Binary64.round_pos (by norm_num))
  unfold stepWidth
  split
  · split_ifs with h
    · exact h
    · exact hdefault
  · exact hdefault

/-- The buckets of a profile: how wide they are, which is the first, and how many. -/
structure Grid where
  width : Rat
  kStart : Int
  nBuckets : Nat
  width_pos : 0 < width
  buckets_pos : 0 < nBuckets

def bucketIndex (width price : Rat) : Int := ⌊Binary64.round (Binary64.round (price / width) + 1 / 2)⌋

def grid (rows : List Bar) (step : Option Rat) : Grid where
  width := stepWidth rows step
  kStart := bucketIndex (stepWidth rows step) (least rows)
  nBuckets :=
    let kStart := bucketIndex (stepWidth rows step) (least rows)
    let kEnd := max kStart (bucketIndex (stepWidth rows step) (greatest rows))
    (kEnd - kStart + 1).toNat
  width_pos := stepWidth_pos rows step
  buckets_pos := by
    dsimp only
    omega

variable (g : Grid)

/-- The bucket of a bar's middle, or the nearest there is. -/
def Grid.slot (row : Bar) : Nat :=
  let mid := Binary64.round (Binary64.round (row.high + row.low) / 2)
  (max 0 (min (bucketIndex g.width mid - g.kStart) (g.nBuckets - 1))).toNat

def plus (x y : Rat) : Rat := Binary64.round (x + y)

def Grid.vols (rows : List Bar) : List Rat := tally plus g.nBuckets g.slot Bar.volume rows

def Grid.buys (rows : List Bar) (buyList : List (Option Rat)) : List Rat :=
  tally plus g.nBuckets (fun r : Bar × Option Rat => g.slot r.1) (fun r => r.2.getD 0) (rows.zip buyList)

def Grid.price (b : Int) : Rat :=
  Binary64.decimals (Binary64.round (Binary64.round (g.kStart + b : Int) * g.width)) 4

end Grid

section Expansion

def VALUE_AREA_PCT : Rat := Binary64.round (68 / 100)

/-- The state of the loop: the included buckets, the last one added first, what they hold, and the next on each side. -/
structure Area where
  included : List Int
  acc : Rat
  left : Int
  right : Int
  apart : left < right

variable (vols : List Rat)

def volumeAt (b : Int) : Rat := vols.getD b.toNat 0

def pick (s : Area) : Int :=
  if s.left < 0 then s.right
  else if vols.length ≤ s.right then s.left
  else if volumeAt vols s.right ≤ volumeAt vols s.left then s.left else s.right

def addBucket (s : Area) : Area where
  included := s.included.insert (pick vols s)
  acc := plus s.acc (volumeAt vols (pick vols s))
  left := if pick vols s = s.left then s.left - 1 else s.left
  right := if pick vols s = s.left then s.right else s.right + 1
  apart := by
    have := s.apart
    split_ifs <;> omega

/-- Too little is included of the whole, and there is a bucket to add. -/
def Short (total : Rat) (s : Area) : Prop :=
  s.acc < Binary64.round (VALUE_AREA_PCT * total) ∧ (0 ≤ s.left ∨ s.right < vols.length)

instance (total : Rat) : DecidablePred (Short vols total) := fun _ => inferInstanceAs (Decidable (_ ∧ _))

/-- What an iteration can do: it takes the bucket on the left, or the one on the right. -/
theorem addBucket_cases {s : Area} (h : 0 ≤ s.left ∨ s.right < vols.length) :
    (pick vols s = s.left ∧ 0 ≤ s.left ∧ (addBucket vols s).left = s.left - 1 ∧ (addBucket vols s).right = s.right) ∨
      (pick vols s = s.right ∧ s.right < vols.length ∧ (addBucket vols s).left = s.left ∧
        (addBucket vols s).right = s.right + 1) := by
  have hapart := s.apart
  by_cases hpick : pick vols s = s.left
  · refine .inl ⟨hpick, ?_, if_pos hpick, if_pos hpick⟩
    unfold pick at hpick
    split_ifs at hpick <;> omega
  · have hright : pick vols s = s.right ∧ s.right < vols.length := by
      unfold pick at hpick ⊢
      split_ifs at hpick ⊢ <;> omega
    exact .inr ⟨hright.1, hright.2, if_neg hpick, if_neg hpick⟩

def room (s : Area) : Nat := (s.left + 1).toNat + (vols.length - s.right).toNat

theorem room_addBucket {s : Area} (h : 0 ≤ s.left ∨ s.right < vols.length) : room vols (addBucket vols s) < room vols s := by
  unfold room
  rcases addBucket_cases vols h with ⟨-, hlt, hleft, hright⟩ | ⟨-, hlt, hleft, hright⟩
  · rw [hleft, hright]
    omega
  · rw [hleft, hright]
    omega

/-- Buckets are added until they hold enough of the whole or there is none left. -/
def expand (total : Rat) (s : Area) : Area := if Short vols total s then expand total (addBucket vols s) else s
termination_by room vols s
decreasing_by
  rename_i hshort
  exact room_addBucket vols hshort.2

def pocIdx : Nat := ((List.range vols.length).argmax fun b : Nat => volumeAt vols b).getD 0

/-- The buckets around the busiest one that hold 68 percent of the whole. -/
def valueArea (total : Rat) : Area :=
  let poc := pocIdx vols
  expand vols total ⟨[(poc : Int)], volumeAt vols poc, poc - 1, poc + 1, by omega⟩

end Expansion

section Profile

def emptyProfile (step : Rat) : VolumeProfile := ⟨[], 0, 0, 0, step⟩

def Grid.level (g : Grid) (vols : List Rat) (buys : Option (List Rat)) (b : Nat) : VPLevel where
  price := g.price b
  volume := Binary64.decimals (volumeAt vols b) 4
  delta := buys.elim 0 fun buys =>
    Binary64.decimals (Binary64.round (volumeAt buys b - Binary64.round (volumeAt vols b - volumeAt buys b))) 4
  total := Binary64.decimals (volumeAt vols b) 4

def Grid.profile (g : Grid) (vols : List Rat) (total : Rat) (buys : Option (List Rat)) : VolumeProfile where
  levels := (List.range g.nBuckets).map (g.level vols buys)
  poc := g.price (pocIdx vols)
  vah := g.price (((valueArea vols total).included.max?).getD 0)
  val := g.price (((valueArea vols total).included.min?).getD 0)
  step := g.width

variable (add : Binary64.Summation)

def buildVolumeProfile (bars : Option Frame) (step : Option Rat) (buyVolume : Option (List (Option Rat))) :
    Except ProfileError VolumeProfile :=
  match bars with
  | none => .ok (emptyProfile (step.getD 0))
  | some bars =>
    if bars.rows = [] ∨ "high" ∉ bars.columns ∨ "volume" ∉ bars.columns then .ok (emptyProfile (step.getD 0))
    else if "low" ∉ bars.columns then .error (.keyError "low")
    else
      let g := grid bars.rows step
      let mismatch := buyVolume.filter fun buyList => buyList.length ≠ bars.rows.length
      match mismatch with
      | some buyList =>
        .error (.valueError ("buy_volume length " ++ toString buyList.length ++ " != bars length " ++
          toString bars.rows.length))
      | none =>
        let vols := g.vols bars.rows
        let total := add.sum vols
        if total ≤ 0 then .ok (emptyProfile g.width)
        else .ok (g.profile vols total (buyVolume.map (g.buys bars.rows)))

end Profile

section Held

def held (vols : List Rat) (buckets : List Int) : Rat := (buckets.map (volumeAt vols)).sum

variable {vols : List Rat} {buckets : List Int}

theorem held_cons (b : Int) : held vols (b :: buckets) = held vols buckets + volumeAt vols b := by
  rw [held, List.map_cons, List.sum_cons, add_comm, held]

theorem volumeAt_of {P : Rat → Prop} (hzero : P 0) (h : ∀ v ∈ vols, P v) (b : Int) : P (volumeAt vols b) := by
  rw [volumeAt, List.getD_eq_getElem?_getD]
  cases hb : vols[b.toNat]? with
  | none => exact hzero
  | some v => exact h v (List.mem_of_getElem? hb)

private theorem whole_held (h : ∀ v ∈ vols, Binary64.Whole v) (buckets : List Int) : Binary64.Whole (held vols buckets) := by
  refine Binary64.whole_sum fun v hv => ?_
  obtain ⟨b, -, rfl⟩ := List.mem_map.mp hv
  exact volumeAt_of Binary64.whole_zero h b

/-- The buckets that there are hold the whole volume. -/
private theorem held_range : held vols ((List.range vols.length).map Nat.cast) = vols.sum := by
  have hvols : (List.range vols.length).map (fun i => vols.getD i 0) = vols := by
    apply List.ext_getElem
    · simp
    · intro i hi hi'
      simp [hi']
  calc
    held vols ((List.range vols.length).map Nat.cast) = ((List.range vols.length).map fun i => vols.getD i 0).sum := by
      rw [held, List.map_map]
      rfl
    _ = vols.sum := by rw [hvols]

private theorem nodup_range : ((List.range vols.length).map (Nat.cast : Nat → Int)).Nodup :=
  List.nodup_range.map Nat.cast_injective

private theorem mem_range {b : Int} : b ∈ (List.range vols.length).map (Nat.cast : Nat → Int) ↔ 0 ≤ b ∧ b < vols.length := by
  rw [List.mem_map]
  constructor
  · rintro ⟨i, hi, rfl⟩
    have := List.mem_range.mp hi
    omega
  · rintro ⟨h0, hlt⟩
    exact ⟨b.toNat, List.mem_range.mpr (by omega), by omega⟩

private theorem held_all (hnodup : buckets.Nodup) (hmem : ∀ b, b ∈ buckets ↔ 0 ≤ b ∧ b < vols.length) :
    held vols buckets = vols.sum := by
  have hperm : buckets.Perm ((List.range vols.length).map Nat.cast) := by
    apply (List.perm_ext_iff_of_nodup hnodup nodup_range).mpr
    intro b
    rw [hmem, mem_range]
  calc
    held vols buckets = held vols ((List.range vols.length).map Nat.cast) := (hperm.map _).sum_eq
    _ = vols.sum := held_range

private theorem subperm_range (hnodup : buckets.Nodup) (hmem : ∀ b ∈ buckets, 0 ≤ b ∧ b < vols.length) :
    buckets.Subperm ((List.range vols.length).map Nat.cast) :=
  hnodup.subperm fun b hb => mem_range.mpr (hmem b hb)

private theorem held_le_sum (hnonneg : ∀ v ∈ vols, 0 ≤ v) (hnodup : buckets.Nodup)
    (hmem : ∀ b ∈ buckets, 0 ≤ b ∧ b < vols.length) : held vols buckets ≤ vols.sum := by
  obtain ⟨sub, hperm, hsub⟩ := subperm_range hnodup hmem
  calc
    held vols buckets = held vols sub := (hperm.symm.map _).sum_eq
    _ ≤ held vols ((List.range vols.length).map Nat.cast) := by
      refine (hsub.map _).sum_le_sum fun v hv => ?_
      obtain ⟨b, -, rfl⟩ := List.mem_map.mp hv
      exact volumeAt_of le_rfl hnonneg b
    _ = vols.sum := held_range

end Held

section Invariant

/-- What was added up for a list of buckets: what they hold but for the roundings, of which there are none among whole
numbers that are not too large. -/
structure Adds (vols : List Rat) (buckets : List Int) (acc : Rat) : Prop where
  near : Binary64.Near buckets.length (held vols buckets) acc
  whole : (∀ v ∈ vols, Binary64.Whole v) → vols.sum ≤ 2 ^ 53 → acc = held vols buckets

/-- The included buckets are those between the two next ones, and without the last one added they held too little. -/
structure Window (vols : List Rat) (total : Rat) (poc : Nat) (s : Area) : Prop where
  bounds : -1 ≤ s.left ∧ s.right ≤ vols.length
  around : s.left < poc ∧ (poc : Int) < s.right
  members : ∀ b, b ∈ s.included ↔ s.left < b ∧ b < s.right
  nodup : s.included.Nodup
  acc : Adds vols s.included s.acc
  minimal : ∃ acc, Adds vols s.included.tail acc ∧ acc < Binary64.round (VALUE_AREA_PCT * total)

variable {vols : List Rat} {total : Rat} {poc : Nat} {s : Area}

private theorem pct_pos : 0 < VALUE_AREA_PCT := Binary64.round_pos (by norm_num)

/-- The loop starts with the busiest bucket. -/
private theorem window_start (hnonneg : ∀ v ∈ vols, 0 ≤ v) (hpos : 0 < total) (hpoc : poc < vols.length)
    (h : (poc : Int) - 1 < poc + 1) : Window vols total poc ⟨[(poc : Int)], volumeAt vols poc, poc - 1, poc + 1, h⟩ where
  bounds := by dsimp only; omega
  around := by dsimp only; omega
  members b := by
    dsimp only
    rw [List.mem_singleton]
    omega
  nodup := List.nodup_singleton _
  acc := by
    have hheld : held vols [(poc : Int)] = volumeAt vols poc := by simp [held]
    refine ⟨?_, fun _ _ => hheld.symm⟩
    rw [hheld]
    exact (Binary64.Near.refl (volumeAt_of le_rfl hnonneg _)).mono (Nat.zero_le _)
  minimal := ⟨0, ⟨Binary64.Near.refl le_rfl, fun _ _ => rfl⟩, Binary64.round_pos (mul_pos pct_pos hpos)⟩

/-- One more bucket is added to what the others hold. -/
private theorem Adds.cons {buckets : List Int} {acc : Rat} (h : Adds vols buckets acc) (hnonneg : ∀ v ∈ vols, 0 ≤ v) {b : Int}
    (hnodup : (b :: buckets).Nodup) (hmem : ∀ b' ∈ b :: buckets, 0 ≤ b' ∧ b' < vols.length) :
    Adds vols (b :: buckets) (plus acc (volumeAt vols b)) where
  near := by
    have hb := (Binary64.Near.refl (volumeAt_of le_rfl hnonneg b)).mono (Nat.zero_le buckets.length)
    rw [held_cons]
    exact (h.near.add hb).round
  whole hwhole hle := by
    have hround := Binary64.round_of_whole (whole_held hwhole _) ((held_le_sum hnonneg hnodup hmem).trans hle)
    rw [held_cons] at hround ⊢
    rw [plus, h.whole hwhole hle]
    exact hround

/-- One more bucket keeps it a window: the bucket next to it on one side. -/
theorem Window.addBucket (hnonneg : ∀ v ∈ vols, 0 ≤ v) (h : Window vols total poc s) (hs : Short vols total s) :
    Window vols total poc (addBucket vols s) := by
  have hcases := addBucket_cases vols hs.2
  have hbounds := h.bounds
  have haround := h.around
  have hnot : pick vols s ∉ s.included := by
    rw [h.members]
    rcases hcases with ⟨hpick, -⟩ | ⟨hpick, -⟩
    · omega
    · omega
  have hincluded : (ValueArea.addBucket vols s).included = pick vols s :: s.included := List.insert_of_not_mem hnot
  have hnodup : (pick vols s :: s.included).Nodup := List.nodup_cons.mpr ⟨hnot, h.nodup⟩
  have hmem : ∀ b ∈ pick vols s :: s.included, 0 ≤ b ∧ b < vols.length := by
    intro b hb
    rw [List.mem_cons, h.members] at hb
    rcases hcases with ⟨hpick, hlt, hleft, hright⟩ | ⟨hpick, hlt, hleft, hright⟩
    · omega
    · omega
  refine ⟨?_, ?_, fun b => ?_, ?_, ?_, ?_⟩
  · rcases hcases with ⟨hpick, hlt, hleft, hright⟩ | ⟨hpick, hlt, hleft, hright⟩
    · omega
    · omega
  · rcases hcases with ⟨hpick, hlt, hleft, hright⟩ | ⟨hpick, hlt, hleft, hright⟩
    · omega
    · omega
  · rw [hincluded, List.mem_cons, h.members]
    rcases hcases with ⟨hpick, hlt, hleft, hright⟩ | ⟨hpick, hlt, hleft, hright⟩
    · omega
    · omega
  · rw [hincluded]
    exact hnodup
  · rw [hincluded]
    exact h.acc.cons hnonneg hnodup hmem
  · rw [hincluded, List.tail_cons]
    exact ⟨s.acc, h.acc, hs.1⟩

/-- The loop ends in a window that is not short. -/
theorem Window.expand (hnonneg : ∀ v ∈ vols, 0 ≤ v) (h : Window vols total poc s) :
    Window vols total poc (expand vols total s) ∧ ¬ Short vols total (expand vols total s) := by
  fun_induction ValueArea.expand vols total s with
  | case1 s hs ih => exact ih (h.addBucket hnonneg hs)
  | case2 s hs => exact ⟨h, hs⟩

theorem pocIdx_busiest (h : vols ≠ []) :
    pocIdx vols < vols.length ∧ ∀ b < vols.length, volumeAt vols b ≤ volumeAt vols (pocIdx vols) := by
  have hrange : List.range vols.length ≠ [] := List.range_eq_nil.not.mpr (List.length_eq_zero_iff.not.mpr h)
  have hsome : ((List.range vols.length).argmax fun b : Nat => volumeAt vols b) ≠ none :=
    List.argmax_eq_none.not.mpr hrange
  obtain ⟨poc, hpoc⟩ := Option.ne_none_iff_exists'.mp hsome
  rw [pocIdx, hpoc, Option.getD_some]
  exact ⟨List.mem_range.mp (List.argmax_mem hpoc),
    fun b hb => List.le_of_mem_argmax (f := fun b : Nat => volumeAt vols b) (List.mem_range.mpr hb) hpoc⟩

private theorem window_valueArea (hnonneg : ∀ v ∈ vols, 0 ≤ v) (hne : vols ≠ []) (hpos : 0 < total) :
    Window vols total (pocIdx vols) (valueArea vols total) ∧ ¬ Short vols total (valueArea vols total) :=
  (window_start hnonneg hpos (pocIdx_busiest hne).1 _).expand hnonneg

end Invariant

section Share

/-- A value area around a bucket: the range of buckets from the first to the last, which has the bucket. -/
structure Covers (vols : List Rat) (poc : Nat) (included : List Int) (first last : Int) : Prop where
  within : 0 ≤ first ∧ last < vols.length
  around : first ≤ poc ∧ (poc : Int) ≤ last
  members : ∀ b, b ∈ included ↔ first ≤ b ∧ b ≤ last
  nodup : included.Nodup

/-- Up to a factor the buckets hold 68 percent of the volume, and no more without the one that was added last, the head
of the list. -/
structure Enough (factor : Rat) (vols : List Rat) (included : List Int) : Prop where
  holds : 68 / 100 * vols.sum ≤ factor * held vols included
  minimal : held vols included.tail ≤ factor * (68 / 100 * vols.sum)

variable {vols : List Rat} {total : Rat} {poc : Nat} {s : Area}

private theorem Window.length_le (h : Window vols total poc s) : s.included.length ≤ vols.length := by
  have hbounds := h.bounds
  have hmem : ∀ b ∈ s.included, 0 ≤ b ∧ b < vols.length := by
    intro b hb
    have := (h.members b).mp hb
    omega
  have hle := (subperm_range h.nodup hmem).length_le
  rw [List.length_map, List.length_range] at hle
  exact hle

/-- A window that is not short has added up enough, or is all there is. -/
private theorem Window.enough_or_all (h : Window vols total poc s) (hshort : ¬ Short vols total s) :
    Binary64.round (VALUE_AREA_PCT * total) ≤ s.acc ∨ held vols s.included = vols.sum := by
  rcases le_or_gt (Binary64.round (VALUE_AREA_PCT * total)) s.acc with hle | hlt
  · exact .inl hle
  · have hroom : ¬ (0 ≤ s.left ∨ s.right < vols.length) := fun hroom => hshort ⟨hlt, hroom⟩
    have hbounds := h.bounds
    refine .inr (held_all h.nodup fun b => ?_)
    rw [h.members]
    omega

variable {add : Binary64.Summation}

/-- The share that the loop compares with is 68 percent but for the roundings of it and of the whole. -/
private theorem near_share (hnonneg : ∀ v ∈ vols, 0 ≤ v) :
    Binary64.Near (vols.length + 2) (68 / 100 * vols.sum) (Binary64.round (VALUE_AREA_PCT * add.sum vols)) := by
  have hpct : Binary64.Near 1 (68 / 100) VALUE_AREA_PCT := Binary64.near_round (by norm_num)
  have hshare := (hpct.mul (add.near vols hnonneg)).round
  have hlength : 1 + vols.length + 1 = vols.length + 2 := by omega
  rw [hlength] at hshare
  exact hshare

theorem Window.enough (h : Window vols (add.sum vols) poc s) (hnonneg : ∀ v ∈ vols, 0 ≤ v)
    (hshort : ¬ Short vols (add.sum vols) s) : Enough (Binary64.slack (vols.length + 2)) vols s.included where
  holds := by
    rcases h.enough_or_all hshort with hle | hall
    · have hacc := h.acc.near.mono (h.length_le.trans (Nat.le_add_right _ 2))
      exact (near_share hnonneg).le_of_le hacc hle
    · have hsum : 0 ≤ vols.sum := List.sum_nonneg hnonneg
      have hslack := mul_le_mul_of_nonneg_right (Binary64.one_le_slack (vols.length + 2)) hsum
      rw [hall]
      linarith
  minimal := by
    obtain ⟨acc, hacc, hlt⟩ := h.minimal
    have hlength : s.included.tail.length ≤ vols.length + 2 := by
      have := h.length_le
      rw [List.length_tail]
      omega
    exact (hacc.near.mono hlength).le_of_le (near_share hnonneg) hlt.le

/-- Among whole numbers the rounded share tells apart what 68 percent tells apart, and may count 68 percent itself as
too little. -/
private theorem whole_share {a sum : Rat} (ha : Binary64.Whole a) (hsum : Binary64.Whole sum) (hle : sum ≤ 2 ^ 48) :
    (Binary64.round (VALUE_AREA_PCT * sum) ≤ a → 68 / 100 * sum ≤ a) ∧
      (a < Binary64.round (VALUE_AREA_PCT * sum) → a ≤ 68 / 100 * sum) := by
  have hpct : VALUE_AREA_PCT = 6124895493223875 / 9007199254740992 := by decide +kernel
  have hround := Binary64.near_round (mul_nonneg pct_pos.le hsum.nonneg)
  have hlow := hround.low
  have hhigh := hround.high
  rw [pow_one, hpct, Binary64.UNIT] at hlow hhigh
  rw [hpct]
  obtain ⟨m, rfl⟩ := ha
  obtain ⟨n, rfl⟩ := hsum
  have hcap : (n : Rat) ≤ 281474976710656 := hle.trans (by norm_num)
  -- 68 percent is a whole number of twenty-fifths
  constructor
  · intro hshare
    by_contra hlt
    have hnat : 25 * m + 1 ≤ 17 * n := by
      have hlt' : (25 * m : Rat) < 17 * n := by linarith
      exact_mod_cast hlt'
    have hcast : (25 * m + 1 : Rat) ≤ 17 * n := by exact_mod_cast hnat
    norm_num at hlow
    linarith
  · intro hshare
    by_contra hlt
    have hnat : 17 * n + 1 ≤ 25 * m := by
      have hlt' : (17 * n : Rat) < 25 * m := by linarith
      exact_mod_cast hlt'
    have hcast : (17 * n + 1 : Rat) ≤ 25 * m := by exact_mod_cast hnat
    norm_num at hhigh
    linarith

theorem Window.enough_whole (h : Window vols (add.sum vols) poc s) (hwhole : ∀ v ∈ vols, Binary64.Whole v)
    (hle : vols.sum ≤ 2 ^ 48) (hshort : ¬ Short vols (add.sum vols) s) : Enough 1 vols s.included := by
  have hle' : vols.sum ≤ 2 ^ 53 := hle.trans (by norm_num)
  have hsum := Binary64.whole_sum hwhole
  have htotal := add.whole vols hwhole hle'
  constructor
  · rw [one_mul]
    rcases h.enough_or_all hshort with henough | hall
    · rw [htotal, h.acc.whole hwhole hle'] at henough
      exact (whole_share (whole_held hwhole _) hsum hle).1 henough
    · have hnonneg := hsum.nonneg
      rw [hall]
      linarith
  · obtain ⟨acc, hacc, hlt⟩ := h.minimal
    rw [htotal, hacc.whole hwhole hle'] at hlt
    rw [one_mul]
    exact (whole_share (whole_held hwhole _) hsum hle).2 hlt

theorem Window.covers (h : Window vols total poc s) : Covers vols poc s.included (s.left + 1) (s.right - 1) := by
  have hbounds := h.bounds
  have haround := h.around
  refine ⟨?_, ?_, fun b => ?_, h.nodup⟩
  · omega
  · omega
  · rw [h.members]
    omega

example : (valueArea [5, 30, 40, 20, 5] 100).included = [1, 2] := by decide +kernel

end Share

section Profile

variable {g : Grid} {vols : List Rat} {total : Rat} {first last : Int}

/-- The ends of the value area are the prices of its first and of its last bucket. -/
theorem Covers.ends {poc : Nat} {included : List Int} (h : Covers vols poc included first last) :
    included.min? = some first ∧ included.max? = some last := by
  have haround := h.around
  constructor
  · apply List.min?_eq_some_iff.mpr
    exact ⟨(h.members first).mpr (by omega), fun b hb => ((h.members b).mp hb).1⟩
  · apply List.max?_eq_some_iff.mpr
    exact ⟨(h.members last).mpr (by omega), fun b hb => ((h.members b).mp hb).2⟩

theorem price_mono {b b' : Int} (h : b ≤ b') : g.price b ≤ g.price b' := by
  have hcast : ((g.kStart + b : Int) : Rat) ≤ (g.kStart + b' : Int) := Int.cast_le.mpr (by omega)
  have hproduct := mul_le_mul_of_nonneg_right (Binary64.round_mono hcast) g.width_pos.le
  exact Binary64.decimals_mono (Binary64.round_mono hproduct) 4

theorem slot_lt (row : Bar) : g.slot row < g.nBuckets := by
  have hpos := g.buckets_pos
  unfold Grid.slot
  dsimp only
  omega

def Grid.exactVols (g : Grid) (rows : List Bar) : List Rat := tally (· + ·) g.nBuckets g.slot Bar.volume rows

theorem sum_exactVols (rows : List Bar) : (g.exactVols rows).sum = (rows.map Bar.volume).sum :=
  sum_tally fun row _ => slot_lt row

theorem near_vols {rows : List Bar} (h : ∀ row ∈ rows, 0 ≤ row.volume) :
    List.Forall₂ (Binary64.Near rows.length) (g.exactVols rows) (g.vols rows) := by
  refine forall₂_tally (P := Binary64.Near) (Binary64.Near.refl le_rfl) (fun k x y hxy => hxy.mono (Nat.le_succ k)) ?_
  intro k x y row hrow hxy
  exact (hxy.add ((Binary64.Near.refl (h row hrow)).mono (Nat.zero_le k))).round

theorem nonneg_vols {rows : List Bar} (h : ∀ row ∈ rows, 0 ≤ row.volume) : ∀ v ∈ g.vols rows, 0 ≤ v := by
  intro v hv
  obtain ⟨hlength, hnear⟩ := List.forall₂_iff_get.mp (near_vols (g := g) h)
  obtain ⟨b, rfl⟩ := List.mem_iff_get.mp hv
  exact (hnear b (hlength.symm ▸ b.isLt) b.isLt).computed_nonneg

/-- Whole volumes are added up without rounding as long as they are not too large together. -/
theorem whole_vols {rows : List Bar} (h : ∀ row ∈ rows, Binary64.Whole row.volume)
    (hle : (rows.map Bar.volume).sum ≤ 2 ^ 53) : g.vols rows = g.exactVols rows ∧ ∀ v ∈ g.vols rows, Binary64.Whole v := by
  have hslots : List.Forall₂ (fun exact v => Binary64.Whole exact ∧ (exact ≤ 2 ^ 53 → v = exact))
      (g.exactVols rows) (g.vols rows) := by
    refine forall₂_tally (P := fun _ exact v => Binary64.Whole exact ∧ (exact ≤ 2 ^ 53 → v = exact))
      ⟨Binary64.whole_zero, fun _ => rfl⟩ (fun _ _ _ hxy => hxy) ?_
    rintro - x y row hrow ⟨hx, hy⟩
    have hsum := hx.add (h row hrow)
    refine ⟨hsum, fun hle => ?_⟩
    rw [plus, hy ((le_add_of_nonneg_right (h row hrow).nonneg).trans hle)]
    exact Binary64.round_of_whole hsum hle
  obtain ⟨hlength, hget⟩ := List.forall₂_iff_get.mp hslots
  have hnonneg : ∀ v ∈ g.exactVols rows, 0 ≤ v := by
    intro v hv
    obtain ⟨b, rfl⟩ := List.mem_iff_get.mp hv
    exact (hget b b.isLt (hlength ▸ b.isLt)).1.nonneg
  have hvols : g.vols rows = g.exactVols rows := by
    refine List.ext_get hlength.symm fun b hb hb' => (hget b hb' hb).2 ?_
    have hslot := List.single_le_sum hnonneg _ (List.get_mem (g.exactVols rows) ⟨b, hb'⟩)
    rw [sum_exactVols] at hslot
    exact hslot.trans hle
  refine ⟨hvols, fun v hv => ?_⟩
  rw [hvols] at hv
  obtain ⟨b, rfl⟩ := List.mem_iff_get.mp hv
  exact (hget b b.isLt (hlength ▸ b.isLt)).1

/-- The levels show the volumes of the buckets. -/
theorem volume_levels (rows : List Bar) (buys : Option (List Rat)) :
    (g.profile (g.vols rows) total buys).levels.map VPLevel.volume = (g.vols rows).map (Binary64.decimals · 4) := by
  have hlength : (g.vols rows).length = g.nBuckets := length_tally rows
  apply List.ext_getElem
  · simp [Grid.profile, hlength]
  · intro i hi hi'
    rw [List.length_map] at hi'
    simp [Grid.profile, Grid.level, volumeAt, hi']

/-- A frame with all columns, with volumes that are not negative and not all 0, and a split of it that has a value for
each bar if there is one. -/
structure Usable (bars : Frame) (buyVolume : Option (List (Option Rat))) : Prop where
  columns : "high" ∈ bars.columns ∧ "low" ∈ bars.columns ∧ "volume" ∈ bars.columns
  nonneg : ∀ row ∈ bars.rows, 0 ≤ row.volume
  volume : 0 < (bars.rows.map Bar.volume).sum
  split : ∀ buyList ∈ buyVolume, buyList.length = bars.rows.length

variable {bars : Frame} {buyVolume : Option (List (Option Rat))}

private theorem Usable.sum_pos (h : Usable bars buyVolume) : 0 < (g.vols bars.rows).sum := by
  have hnear := Binary64.Near.sum (near_vols (g := g) h.nonneg)
  rw [sum_exactVols] at hnear
  exact hnear.computed_pos h.volume

private theorem Usable.total_pos (add : Binary64.Summation) (h : Usable bars buyVolume) : 0 < add.sum (g.vols bars.rows) :=
  (add.near _ (nonneg_vols h.nonneg)).computed_pos h.sum_pos

/-- A usable frame has a profile, for any step. -/
theorem build_volume_profile_ok (add : Binary64.Summation) (h : Usable bars buyVolume) (step : Option Rat) :
    buildVolumeProfile add (some bars) step buyVolume =
      .ok ((grid bars.rows step).profile ((grid bars.rows step).vols bars.rows)
        (add.sum ((grid bars.rows step).vols bars.rows)) (buyVolume.map ((grid bars.rows step).buys bars.rows))) := by
  obtain ⟨hhigh, hlow, hvolume⟩ := h.columns
  have hrows : bars.rows ≠ [] := by
    intro hrows
    have hpos := h.volume
    rw [hrows] at hpos
    exact lt_irrefl _ hpos
  have hmismatch : (buyVolume.filter fun buyList => buyList.length ≠ bars.rows.length) = none := by
    rw [Option.filter_eq_none_iff]
    intro buyList hbuy
    simpa using h.split buyList hbuy
  have hpos : ¬ add.sum ((grid bars.rows step).vols bars.rows) ≤ 0 := not_le.mpr (h.total_pos add)
  simp only [buildVolumeProfile, hrows, hhigh, hlow, hvolume, not_true_eq_false, or_self, if_false, hmismatch, if_neg hpos]

/-- The profile of a usable frame, however floats are added up: its buckets hold the volume of all bars but for one
rounding for each bar, and the levels show them. The value area is a range of buckets around the busiest one, the prices
are those of the range, and it holds just 68 percent of the volume but for the roundings. For whole volumes the buckets
hold exactly the volume of all bars, the value area no less than 68 percent of it, and no more without its last bucket. -/
theorem build_volume_profile_sound (add : Binary64.Summation) (h : Usable bars buyVolume) (step : Option Rat) :
    ∃ profile first last,
      buildVolumeProfile add (some bars) step buyVolume = .ok profile ∧
      let g := grid bars.rows step
      let vols := g.vols bars.rows
      let included := (valueArea vols (add.sum vols)).included
      Binary64.Near bars.rows.length (bars.rows.map Bar.volume).sum vols.sum ∧
      profile.levels.map VPLevel.volume = vols.map (Binary64.decimals · 4) ∧
      (∀ b < vols.length, volumeAt vols b ≤ volumeAt vols (pocIdx vols)) ∧
      Covers vols (pocIdx vols) included first last ∧
      Enough (Binary64.slack (vols.length + 2)) vols included ∧
      ((∀ row ∈ bars.rows, Binary64.Whole row.volume) → (bars.rows.map Bar.volume).sum ≤ 2 ^ 48 →
        vols.sum = (bars.rows.map Bar.volume).sum ∧ Enough 1 vols included) ∧
      profile.val = g.price first ∧ profile.poc = g.price (pocIdx vols) ∧ profile.vah = g.price last ∧
      profile.val ≤ profile.poc ∧ profile.poc ≤ profile.vah := by
  have hnonneg : ∀ v ∈ (grid bars.rows step).vols bars.rows, 0 ≤ v := nonneg_vols h.nonneg
  have hne : (grid bars.rows step).vols bars.rows ≠ [] := by
    intro hnil
    have hpos : 0 < ((grid bars.rows step).vols bars.rows).sum := h.sum_pos
    rw [hnil] at hpos
    exact lt_irrefl _ hpos
  obtain ⟨hwindow, hshort⟩ := window_valueArea hnonneg hne (h.total_pos add)
  have hcovers := hwindow.covers
  have hnear := Binary64.Near.sum (near_vols (g := grid bars.rows step) h.nonneg)
  rw [sum_exactVols] at hnear
  refine ⟨_, _, _, build_volume_profile_ok add h step, hnear, volume_levels _ _, (pocIdx_busiest hne).2, hcovers,
    hwindow.enough hnonneg hshort, fun hwhole hle => ?_, ?_, rfl, ?_, ?_, ?_⟩
  · have hle' : (bars.rows.map Bar.volume).sum ≤ 2 ^ 53 := hle.trans (by norm_num)
    obtain ⟨hvols, hwhole'⟩ := whole_vols (g := grid bars.rows step) hwhole hle'
    have hsum : ((grid bars.rows step).vols bars.rows).sum = (bars.rows.map Bar.volume).sum := by
      rw [hvols, sum_exactVols]
    exact ⟨hsum, hwindow.enough_whole hwhole' (hsum.le.trans hle) hshort⟩
  · rw [Grid.profile, hcovers.ends.1, Option.getD_some]
  · rw [Grid.profile, hcovers.ends.2, Option.getD_some]
  · rw [Grid.profile, hcovers.ends.1, Option.getD_some]
    exact price_mono hcovers.around.1
  · rw [Grid.profile, hcovers.ends.2, Option.getD_some]
    exact price_mono hcovers.around.2

def twoBars (volume volume' : Rat) : Frame :=
  ⟨["high", "low", "volume"], [⟨100, 100, volume⟩, ⟨101, 101, volume'⟩]⟩

theorem build_volume_profile_sound_two :
    ∃ profile first last,
      buildVolumeProfile .running (some (twoBars 30 70)) (some 1) none = .ok profile ∧
      let vols := (grid (twoBars 30 70).rows (some 1)).vols (twoBars 30 70).rows
      let included := (valueArea vols (Binary64.Summation.running.sum vols)).included
      Covers vols (pocIdx vols) included first last ∧ vols.sum = 100 ∧ Enough 1 vols included := by
  have husable : Usable (twoBars 30 70) none := ⟨by decide, by decide +kernel, by decide +kernel, fun _ h => nomatch h⟩
  obtain ⟨profile, first, last, hok, -, -, -, hcovers, -, hwhole, -⟩ :=
    build_volume_profile_sound .running husable (some 1)
  have hbars : ∀ row ∈ (twoBars 30 70).rows, Binary64.Whole row.volume := by
    intro row hrow
    simp only [twoBars, List.mem_cons, List.not_mem_nil, or_false] at hrow
    rcases hrow with rfl | rfl
    · exact ⟨30, by norm_num⟩
    · exact ⟨70, by norm_num⟩
  obtain ⟨hsum, henough⟩ := hwhole hbars (by decide +kernel)
  exact ⟨profile, first, last, hok, hcovers, hsum.trans (by decide +kernel), henough⟩

/-- Of 51 and 24 the first bucket holds exactly 68 percent, but 0.68 * 75 is a float above 51. -/
theorem exact_share_is_extended :
    let vols := (grid (twoBars 51 24).rows (some 1)).vols (twoBars 51 24).rows
    let included := (valueArea vols (Binary64.Summation.running.sum vols)).included
    (buildVolumeProfile .running (some (twoBars 51 24)) (some 1) none).toOption.map VolumeProfile.vah = some 101 ∧
      ¬held vols included.tail < 68 / 100 * vols.sum := by
  decide +kernel

end Profile

end NTrade.Domain.ValueArea
