import Mathlib.Data.Int.ConditionallyCompleteOrder
import Mathlib.Data.Int.Interval
import Mathlib.Order.Interval.Finset.SuccPred
import Mathlib.Algebra.Order.SuccPred

/-! The Gregorian calendar by day numbers, of which the first of January of the year 1 is 1, and the weekdays, which
are counted in weeks and a rest. -/
namespace NTrade.Lib.Civil

section Dates

def isLeap (year : Int) : Bool := year % 4 = 0 ∧ (year % 100 ≠ 0 ∨ year % 400 = 0)

def daysBeforeYear (year : Int) : Int := (year - 1) * 365 + (year - 1) / 4 - (year - 1) / 100 + (year - 1) / 400

def daysBeforeMonth (leap : Bool) (month : Nat) : Int :=
  [0, 31, 59, 90, 120, 151, 181, 212, 243, 273, 304, 334].getD (month - 1) 0 + if leap ∧ 2 < month then 1 else 0

structure Date where
  year : Int
  month : Nat
  day : Int
  deriving DecidableEq, Repr

def Date.ordinal (d : Date) : Int := daysBeforeYear d.year + daysBeforeMonth (isLeap d.year) d.month + d.day

/-- The year of a day: whole cycles of 400, 100, 4 years and a rest. -/
def yearOf (n : Int) : Int :=
  let r400 := (n - 1) % 146097
  let n100 := min 3 (r400 / 36524)
  let r100 := r400 - n100 * 36524
  let r4 := r100 % 1461
  (n - 1) / 146097 * 400 + n100 * 100 + r100 / 1461 * 4 + min 3 (r4 / 365) + 1

/-- The day of the year, from 0. -/
def dayOfYear (n : Int) : Int := n - 1 - daysBeforeYear (yearOf n)

def monthOf (leap : Bool) (day : Int) : Nat := (List.range 12).countP fun m => daysBeforeMonth leap (m + 1) ≤ day

def ofOrdinal (n : Int) : Date :=
  let leap := isLeap (yearOf n)
  let month := monthOf leap (dayOfYear n)
  ⟨yearOf n, month, dayOfYear n - daysBeforeMonth leap month + 1⟩

/-- A date has the number of the day that it was made of. -/
theorem ordinal_ofOrdinal (n : Int) : (ofOrdinal n).ordinal = n := by
  simp only [Date.ordinal, ofOrdinal, dayOfYear]
  omega

/-- The days before a year, by the cycles of 400, 100 and 4 years and the rest. -/
theorem daysBeforeYear_cycles {a b c e : Int} (hb : 0 ≤ b ∧ b ≤ 3) (hc : 0 ≤ c ∧ c ≤ 24) (he : 0 ≤ e ∧ e ≤ 3) :
    daysBeforeYear (a * 400 + b * 100 + c * 4 + e + 1) = a * 146097 + b * 36524 + c * 1461 + e * 365 := by
  have h4 : (a * 400 + b * 100 + c * 4 + e + 1 - 1) / 4 = a * 100 + b * 25 + c := by omega
  have h100 : (a * 400 + b * 100 + c * 4 + e + 1 - 1) / 100 = a * 4 + b := by omega
  have h400 : (a * 400 + b * 100 + c * 4 + e + 1 - 1) / 400 = a := by omega
  rw [daysBeforeYear, h4, h100, h400]
  omega

theorem daysBeforeYear_succ (y : Int) : daysBeforeYear (y + 1) = daysBeforeYear y + 365 + if isLeap y then 1 else 0 := by
  simp only [daysBeforeYear, isLeap, decide_eq_true_eq]
  split_ifs <;> omega

/-- What the cycles of a day are, and what is left of it in its year: in a leap year there is a day more. -/
private theorem exists_cycles (n : Int) : ∃ a b c e r : Int, (0 ≤ b ∧ b ≤ 3) ∧ (0 ≤ c ∧ c ≤ 24) ∧ (0 ≤ e ∧ e ≤ 3) ∧
    yearOf n = a * 400 + b * 100 + c * 4 + e + 1 ∧ n - 1 = a * 146097 + b * 36524 + c * 1461 + e * 365 + r ∧ 0 ≤ r ∧
    (r < 365 ∨ r = 365 ∧ e = 3 ∧ (c < 24 ∨ b = 3)) := by
  have hyear : ∃ r400 b r100 c r4 e : Int, yearOf n = (n - 1) / 146097 * 400 + b * 100 + c * 4 + e + 1 ∧
      r400 = (n - 1) % 146097 ∧ b = min 3 (r400 / 36524) ∧ r100 = r400 - b * 36524 ∧ c = r100 / 1461 ∧
      r4 = r100 % 1461 ∧ e = min 3 (r4 / 365) := ⟨_, _, _, _, _, _, rfl, rfl, rfl, rfl, rfl, rfl, rfl⟩
  obtain ⟨r400, b, r100, c, r4, e, hy, h400, hb, h100, hc, h4, he⟩ := hyear
  have hb' : (0 ≤ b ∧ b ≤ 3) ∧ 0 ≤ r100 ∧ (r100 < 36524 ∨ r100 = 36524 ∧ b = 3) := by omega
  have hc' : (0 ≤ c ∧ c ≤ 24) ∧ 0 ≤ r4 ∧ r4 < 1461 ∧ r100 = c * 1461 + r4 := by omega
  have he' : (0 ≤ e ∧ e ≤ 3) ∧ 0 ≤ r4 - e * 365 ∧ (r4 - e * 365 < 365 ∨ r4 - e * 365 = 365 ∧ e = 3) := by omega
  exact ⟨(n - 1) / 146097, b, c, e, r4 - e * 365, hb'.1, hc'.1, he'.1, hy, by omega, he'.2.1, by omega⟩

/-- A day comes after the years before its own, and not after its year. -/
theorem yearOf_bounds (n : Int) : daysBeforeYear (yearOf n) < n ∧ n ≤ daysBeforeYear (yearOf n + 1) := by
  obtain ⟨a, b, c, e, r, hb, hc, he, hy, hn, h0, hr⟩ := exists_cycles n
  have hyear := daysBeforeYear_cycles (a := a) hb hc he
  rw [← hy] at hyear
  constructor
  · omega
  · rw [daysBeforeYear_succ, hyear]
    rcases hr with hr | ⟨rfl, rfl, hlong⟩
    · split_ifs <;> omega
    · have hleap : isLeap (yearOf n) = true := by
        apply decide_eq_true
        rw [hy]
        omega
      rw [if_pos hleap]
      omega

theorem daysBeforeYear_mono {y y' : Int} (h : y ≤ y') : daysBeforeYear y ≤ daysBeforeYear y' := by
  simp only [daysBeforeYear]
  omega

theorem le_yearOf_iff {y n : Int} : y ≤ yearOf n ↔ daysBeforeYear y < n := by
  obtain ⟨hlt, hle⟩ := yearOf_bounds n
  constructor
  · intro h
    exact (daysBeforeYear_mono h).trans_lt hlt
  · intro h
    by_contra hy
    exact absurd h (not_lt.mpr (hle.trans (daysBeforeYear_mono (not_le.mp hy))))

end Dates

section Weekdays

/-- Neither Saturday nor Sunday; the first day is a Monday. -/
def isWeekday (n : Int) : Bool := n % 7 ≠ 0 ∧ n % 7 ≠ 6

/-- The weekdays up to a day, from a fixed one: five for each week, and those of the rest. -/
def weekdaysUpTo (n : Int) : Int := n / 7 * 5 + min (n % 7) 5

/-- The day that is the `k`-th most recent weekday of another, which counts itself. -/
structure IsNthWeekday (k today day : Int) : Prop where
  le : day ≤ today
  weekday : isWeekday day = true
  count : (((Finset.Icc day today).filter fun n => isWeekday n = true).card : Int) = k

theorem weekdaysUpTo_succ (n : Int) : weekdaysUpTo (n + 1) = weekdaysUpTo n + if isWeekday (n + 1) then 1 else 0 := by
  simp only [weekdaysUpTo, isWeekday, decide_eq_true_eq]
  split <;> omega

/-- The weekdays of a window. -/
theorem card_weekdays {day today : Int} (h : day - 1 ≤ today) :
    (((Finset.Icc day today).filter fun n => isWeekday n = true).card : Int) =
      weekdaysUpTo today - weekdaysUpTo (day - 1) := by
  induction today, h using Int.leInduction with
  | base => simp
  | succ today h ih =>
    have hsplit : Finset.Icc day (today + 1) = insert (today + 1) (Finset.Icc day today) := by
      ext n
      simp only [Finset.mem_Icc, Finset.mem_insert]
      omega
    rw [hsplit, Finset.filter_insert, weekdaysUpTo_succ]
    split_ifs with hw
    · rw [Finset.card_insert_of_notMem (by simp), Nat.cast_add, ih]
      omega
    · rw [ih]
      omega

/-- The `k`-th most recent weekday, in whole weeks and a rest. -/
def nthWeekday (k today : Int) : Int :=
  let before := weekdaysUpTo today - k
  before / 5 * 7 + before % 5 + 1

theorem isWeekday_nthWeekday (k today : Int) : isWeekday (nthWeekday k today) = true := by
  apply decide_eq_true
  simp only [nthWeekday]
  omega

theorem weekdaysUpTo_nthWeekday (k today : Int) :
    weekdaysUpTo (nthWeekday k today - 1) = weekdaysUpTo today - k := by
  simp only [weekdaysUpTo, nthWeekday]
  omega

theorem weekdaysUpTo_mono {n m : Int} (h : n ≤ m) : weekdaysUpTo n ≤ weekdaysUpTo m := by
  simp only [weekdaysUpTo]
  omega

theorem nthWeekday_le {k : Int} (hk : 1 ≤ k) (today : Int) : nthWeekday k today ≤ today := by
  by_contra hlt
  have hmono := weekdaysUpTo_mono (n := today) (m := nthWeekday k today - 1) (by omega)
  rw [weekdaysUpTo_nthWeekday] at hmono
  omega

theorem isNthWeekday_nthWeekday {k : Int} (hk : 1 ≤ k) (today : Int) : IsNthWeekday k today (nthWeekday k today) where
  le := nthWeekday_le hk today
  weekday := isWeekday_nthWeekday k today
  count := by
    have hle := nthWeekday_le hk today
    rw [card_weekdays (by omega), weekdaysUpTo_nthWeekday]
    omega

/-- So many weekdays fit into seven days for each five of them, and a weekend. -/
theorem sub_nthWeekday_lt (k today : Int) :
    today - nthWeekday k today < (k * 7 + 4) / 5 + 2 := by
  simp only [nthWeekday, weekdaysUpTo]
  omega

end Weekdays
end NTrade.Lib.Civil
