import NTrade.Lib.Civil
import NTrade.Domain.MarketHours
import Mathlib.Data.Rat.Floor

/-! The first day of the chart's window, as the server and the browser find it: each walks back from today and counts
weekdays. The server has dates of the years 1 to 9999 and a time zone, the browser numbers of milliseconds and a fixed
offset. Both results are midnights of the day that is given here. -/
namespace NTrade.Api.ChartStart
open NTrade.Domain NTrade.Lib.Civil

/-- `date(1970, 1, 1).toordinal()` -/
def EPOCH_ORDINAL : Int := 719163

section Server

/-- `date.max.toordinal()` -/
def MAX_ORDINAL : Int := 3652059

inductive DateError where
  /-- "date value out of range" -/
  | overflowError
  deriving DecidableEq, Repr

/-- A date is a day of the years 1 to 9999. -/
def dateOf (ordinal : Int) : Except DateError Int :=
  if 1 ≤ ordinal ∧ ordinal ≤ MAX_ORDINAL then .ok ordinal else .error DateError.overflowError

/-- `date.weekday()`; Monday is 0. -/
def weekdayOf (d : Int) : Int := (d + 6) % 7

/-- The wall clock of the session's zone, whose offset at an instant is `utcoffset`; a naive time is read as its. -/
def wallOf (utcoffset : Int → Int) : Timestamp → Int
  | Timestamp.aware us => us + utcoffset us
  | Timestamp.naive us => us

def todayOf (utcoffset : Int → Int) (now : Timestamp) : Int := wallOf utcoffset now / DAY + EPOCH_ORDINAL

/-- The loop of `chart_start`, with the days that are left of its budget. -/
def scan (days : Int) : Nat → Int → Int → Int → Except DateError Int
  | 0, _, _, start => .ok start
  | budget + 1, d, kept, start =>
    if weekdayOf d < 5 then
      if max 1 days ≤ kept + 1 then .ok d
      else (dateOf (d - 1)).bind fun d' => scan days budget d' (kept + 1) d
    else (dateOf (d - 1)).bind fun d' => scan days budget d' kept start

def chartStart (utcoffset : Int → Int) (now : Timestamp) (days : Int) : Except DateError Int :=
  (dateOf (todayOf utcoffset now)).bind fun d => scan days (max 21 ((days * 7 + 4) / 5 + 2)).toNat d 0 d

end Server

section Browser

def IST_OFFSET_S : Rat := 19800

/-- The whole milliseconds of a `Date`, cut towards zero. -/
def toInteger (x : Rat) : Int := if 0 ≤ x then ⌊x⌋ else ⌈x⌉

/-- The IST wall date of an instant, which the source writes as `YYYY-MM-DD`. A year that does not have four digits has
a text of another form, and there is none here. -/
def istDateKey (epochSeconds : Rat) : Option Date :=
  let date := ofOrdinal (toInteger ((epochSeconds + IST_OFFSET_S) * 1000) / 86400000 + EPOCH_ORDINAL)
  if 0 ≤ date.year ∧ date.year ≤ 9999 then some date else none

/-- `new Date(Date.UTC(y, mo - 1, d)).getUTCDay()`; Sunday is 0, and a year below 100 is one of the 20th century. -/
def utcDay (key : Date) : Int :=
  ({ key with year := if 0 ≤ key.year ∧ key.year ≤ 99 then 1900 + key.year else key.year } : Date).ordinal % 7

/-- The loop of `chartStartIst`, with the rounds that are left of its budget. -/
def scanIst (n : Int) : Nat → Rat → Int → Date → Option Date
  | 0, _, _, startKey => some startKey
  | budget + 1, epoch, kept, startKey =>
    if kept < n then
      (istDateKey epoch).bind fun key =>
        if utcDay key ≠ 0 ∧ utcDay key ≠ 6 then
          if n ≤ kept + 1 then some key else scanIst n budget (epoch - 86400) (kept + 1) key
        else scanIst n budget (epoch - 86400) kept startKey
    else some startKey

def chartStartIst (nowEpochS : Rat) (days : Int) : Option Date :=
  let n := max 1 days
  (istDateKey nowEpochS).bind fun key => scanIst n (max 21 (⌈((n * 7 : Int) : Rat) / 5⌉ + 2)).toNat nowEpochS 0 key

end Browser

section Scans
variable {d day : Int}

/-- The weekdays that a scan at a day has yet to see, down to the one it looks for. -/
def left (day d : Int) : Int := weekdaysUpTo d - weekdaysUpTo (day - 1)

theorem left_pred (day d : Int) : left day (d - 1) = left day d - if isWeekday d then 1 else 0 := by
  have hsucc := weekdaysUpTo_succ (d - 1)
  rw [sub_add_cancel] at hsucc
  rw [left, left, hsucc]
  omega

/-- A weekday is the last one to see if it is the one looked for. -/
theorem left_le_one_iff (hday : isWeekday day = true) (hd : isWeekday d = true) (hle : day ≤ d) :
    left day d ≤ 1 ↔ d = day := by
  have hfirst := left_pred day day
  have hlast := left_pred day d
  rw [if_pos hday] at hfirst
  rw [if_pos hd] at hlast
  have hzero : left day (day - 1) = 0 := sub_self _
  constructor
  · intro h
    by_contra hne
    have hmono : left day day ≤ left day (d - 1) := sub_le_sub_right (weekdaysUpTo_mono (by omega)) _
    omega
  · rintro rfl
    omega

theorem weekdayOf_lt_iff : weekdayOf d < 5 ↔ isWeekday d = true := by
  simp only [weekdayOf, isWeekday, decide_eq_true_eq]
  omega

/-- The server's scan ends at the day with all weekdays seen, if its budget goes that far. -/
theorem scan_eq {days : Int} (hday : isWeekday day = true) (h1 : 1 ≤ day) {budget : Nat} {kept start : Int}
    (hle : day ≤ d) (hmax : d ≤ MAX_ORDINAL) (hkept : kept + left day d = max 1 days) (hbudget : d - day < budget) :
    scan days budget d kept start = .ok day := by
  induction budget generalizing d kept start with
  | zero => omega
  | succ budget ih =>
    have hpred := left_pred day d
    have hprev (hlt : day < d) : dateOf (d - 1) = .ok (d - 1) := if_pos ⟨by omega, by omega⟩
    rw [scan]
    split_ifs with hw hn
    · rw [(left_le_one_iff hday (weekdayOf_lt_iff.mp hw) hle).mp (by omega)]
    · have hd := weekdayOf_lt_iff.mp hw
      rw [if_pos hd] at hpred
      have hne : d ≠ day := fun h => hn (by have := (left_le_one_iff hday hd hle).mpr h; omega)
      rw [hprev (by omega)]
      exact ih (by omega) (by omega) (by omega) (by omega)
    · have hd : ¬ isWeekday d = true := fun h => hw (weekdayOf_lt_iff.mpr h)
      rw [if_neg hd] at hpred
      have hne : d ≠ day := fun h => hd (h ▸ hday)
      rw [hprev (by omega)]
      exact ih (by omega) (by omega) (by omega) (by omega)

theorem utcDay_ofOrdinal (h : 100 ≤ (ofOrdinal d).year) : utcDay (ofOrdinal d) = d % 7 := by
  rw [utcDay, if_neg (by omega), ordinal_ofOrdinal]

/-- The browser's scan ends at the day with all weekdays seen, if its budget goes that far and its keys are right. -/
theorem scanIst_eq {n : Int} (hday : isWeekday day = true) (hyear : 100 ≤ (ofOrdinal day).year) {today : Int} {epoch : Rat}
    (hkeys : ∀ d, day ≤ d → d ≤ today → istDateKey (epoch - ((today - d : Int) : Rat) * 86400) = some (ofOrdinal d))
    {budget : Nat} {kept : Int} (startKey : Date) (hle : day ≤ d) (htoday : d ≤ today) (hkept : kept + left day d = n)
    (hbudget : d - day < budget) :
    scanIst n budget (epoch - ((today - d : Int) : Rat) * 86400) kept startKey = some (ofOrdinal day) := by
  induction budget generalizing d kept startKey with
  | zero => omega
  | succ budget ih =>
    have hpred := left_pred day d
    have hyear' : 100 ≤ (ofOrdinal d).year := le_yearOf_iff.mpr ((le_yearOf_iff.mp hyear).trans_le hle)
    have hlast : 1 ≤ left day d := by
      have hfirst := left_pred day day
      rw [if_pos hday] at hfirst
      have hzero : left day (day - 1) = 0 := sub_self _
      have hmono : left day day ≤ left day d := sub_le_sub_right (weekdaysUpTo_mono hle) _
      omega
    have hback : epoch - ((today - d : Int) : Rat) * 86400 - 86400 = epoch - ((today - (d - 1) : Int) : Rat) * 86400 := by
      push_cast
      ring
    have hdow : (utcDay (ofOrdinal d) ≠ 0 ∧ utcDay (ofOrdinal d) ≠ 6) ↔ isWeekday d = true := by
      rw [utcDay_ofOrdinal hyear', isWeekday, decide_eq_true_eq]
    rw [scanIst, if_pos (by omega), hkeys d hle htoday, Option.bind_some, hback]
    split_ifs with hw hn
    · rw [(left_le_one_iff hday (hdow.mp hw) hle).mp (by omega)]
    · have hd := hdow.mp hw
      rw [if_pos hd] at hpred
      have hne : d ≠ day := fun h => hn (by have := (left_le_one_iff hday hd hle).mpr h; omega)
      exact ih _ (by omega) (by omega) (by omega) (by omega)
    · have hd : ¬ isWeekday d = true := fun h => hw (hdow.mpr h)
      rw [if_neg hd] at hpred
      have hne : d ≠ day := fun h => hd (h ▸ hday)
      exact ih _ (by omega) (by omega) (by omega) (by omega)

end Scans

section Keys

def epochSeconds (now : Timestamp) : Rat := (now.micros : Rat) / 1000000

/-- A time is cut to the millisecond within its day, if it is not before the epoch or in whole milliseconds. -/
theorem toInteger_ediv {wall : Int} (h : 0 ≤ wall ∨ 1000 ∣ wall) :
    toInteger ((wall : Rat) / 1000) / 86400000 = wall / DAY := by
  have hday : wall / DAY = wall / 1000 / 86400000 := by
    simp only [DAY, MICROS]
    omega
  rw [hday]
  congr 1
  rcases h with h | ⟨m, rfl⟩
  · have hnonneg : 0 ≤ (wall : Rat) / 1000 := div_nonneg (Int.cast_nonneg h) (by decide +kernel)
    rw [toInteger, if_pos hnonneg]
    exact Rat.floor_intCast_div_natCast wall 1000
  · have hms : ((1000 * m : Int) : Rat) / 1000 = (m : Rat) := by
      push_cast
      exact mul_div_cancel_left₀ _ (by decide +kernel)
    rw [hms, toInteger, Int.floor_intCast, Int.ceil_intCast, ite_self]
    omega

variable {utcoffset : Int → Int} {now : Timestamp}

/-- What the two walks need of an instant and of the day that they end at: Indian time is at its offset of 05:30, the
dates have years of four digits that are not taken for years of the 20th century, and the time is not cut over a
midnight. -/
structure InRange (utcoffset : Int → Int) (now : Timestamp) (day : Int) : Prop where
  zone : ∀ us, now = Timestamp.aware us → utcoffset us = IST * MICROS
  earliest : 100 ≤ (ofOrdinal day).year
  latest : (ofOrdinal (todayOf utcoffset now)).year ≤ 9999
  clock : 1000 ∣ now.micros ∨ 1970 ≤ (ofOrdinal day).year

theorem InRange.wall {day : Int} (h : InRange utcoffset now day) : wallOf utcoffset now = now.micros + IST * MICROS := by
  cases now with
  | aware us =>
    rw [wallOf, h.zone us rfl]
    rfl
  | naive us => exact (sub_add_cancel us _).symm

/-- A day of so many days before today has its own key. -/
theorem InRange.key {day d : Int} (h : InRange utcoffset now day) (hle : day ≤ d) (htoday : d ≤ todayOf utcoffset now) :
    istDateKey (epochSeconds now - ((todayOf utcoffset now - d : Int) : Rat) * 86400) = some (ofOrdinal d) := by
  have hms : (epochSeconds now - ((todayOf utcoffset now - d : Int) : Rat) * 86400 + IST_OFFSET_S) * 1000 =
      ((wallOf utcoffset now - (todayOf utcoffset now - d) * DAY : Int) : Rat) / 1000 := by
    rw [h.wall, epochSeconds, IST_OFFSET_S, IST, DAY, MICROS]
    push_cast
    ring
  have hday : (wallOf utcoffset now - (todayOf utcoffset now - d) * DAY) / DAY + EPOCH_ORDINAL = d := by
    simp only [todayOf, DAY, MICROS, EPOCH_ORDINAL]
    omega
  have hcut : 0 ≤ wallOf utcoffset now - (todayOf utcoffset now - d) * DAY ∨
      1000 ∣ wallOf utcoffset now - (todayOf utcoffset now - d) * DAY := by
    rcases h.clock with hc | hc
    · right
      rw [h.wall]
      simp only [IST, DAY, MICROS]
      omega
    · left
      have hsince := le_yearOf_iff.mp hc
      simp only [todayOf, DAY, MICROS, EPOCH_ORDINAL, daysBeforeYear] at hday hsince ⊢
      omega
  have hfirst : 100 ≤ (ofOrdinal d).year := le_yearOf_iff.mpr ((le_yearOf_iff.mp h.earliest).trans_le hle)
  have hlast : (ofOrdinal d).year ≤ 9999 := by
    by_contra hy
    have hlater := (le_yearOf_iff.mp (not_le.mp hy : 9999 + 1 ≤ yearOf d)).trans_le htoday
    exact absurd h.latest (not_le.mpr (le_yearOf_iff.mpr hlater))
  rw [istDateKey, hms, toInteger_ediv hcut, hday, if_pos ⟨by omega, hlast⟩]

end Keys

/-- The budgets of the two walks are the same, and enough. -/
theorem budgets (days today : Int) :
    (max 21 (⌈((max 1 days * 7 : Int) : Rat) / 5⌉ + 2) = max 21 ((days * 7 + 4) / 5 + 2)) ∧
      today - nthWeekday (max 1 days) today < max 21 ((days * 7 + 4) / 5 + 2) := by
  have hceil (m : Int) : ⌈(m : Rat) / 5⌉ = (m + 4) / 5 := by
    have hneg := Rat.ceil_intCast_div_natCast m 5
    rw [show (5 : Rat) = ((5 : Nat) : Rat) by rfl, hneg]
    omega
  have hlt := sub_nthWeekday_lt (max 1 days) today
  rw [hceil]
  omega

/-- The server and the browser begin the chart at the same midnight, that of the `days`-th most recent weekday. -/
theorem chartStart_eq_chartStartIst (utcoffset : Int → Int) (now : Timestamp) (days : Int)
    (h : InRange utcoffset now (nthWeekday (max 1 days) (todayOf utcoffset now))) :
    ∃ day, IsNthWeekday (max 1 days) (todayOf utcoffset now) day ∧ chartStart utcoffset now days = .ok day ∧
      chartStartIst (epochSeconds now) days = some (ofOrdinal day) := by
  have hn : 1 ≤ max 1 days := le_max_left _ _
  have hnth := isNthWeekday_nthWeekday hn (todayOf utcoffset now)
  obtain ⟨hsame, hbudget⟩ := budgets days (todayOf utcoffset now)
  have hkept : 0 + left (nthWeekday (max 1 days) (todayOf utcoffset now)) (todayOf utcoffset now) = max 1 days := by
    rw [left, weekdaysUpTo_nthWeekday]
    omega
  refine ⟨nthWeekday (max 1 days) (todayOf utcoffset now), hnth, ?_, ?_⟩
  · have hfirst := le_yearOf_iff.mp h.earliest
    have hlast : todayOf utcoffset now ≤ MAX_ORDINAL := by
      by_contra hlt
      have hlater : daysBeforeYear 10000 < todayOf utcoffset now := not_le.mp hlt
      exact absurd h.latest (not_le.mpr (le_yearOf_iff.mpr hlater))
    have hle := hnth.le
    simp only [daysBeforeYear] at hfirst
    rw [chartStart, dateOf, if_pos ⟨by omega, hlast⟩]
    exact scan_eq hnth.weekday (by omega) hnth.le hlast hkept (by omega)
  · have hkey := h.key hnth.le (le_refl _)
    have hrounds : todayOf utcoffset now - nthWeekday (max 1 days) (todayOf utcoffset now) <
        ((max 21 ((days * 7 + 4) / 5 + 2)).toNat : Int) := by omega
    have hscan (startKey : Date) := scanIst_eq hnth.weekday h.earliest (fun d => h.key) startKey hnth.le
      (le_refl _) hkept hrounds
    rw [sub_self, Int.cast_zero, zero_mul, sub_zero] at hkey
    simp only [sub_self, Int.cast_zero, zero_mul, sub_zero] at hscan
    rw [chartStartIst, hkey, hsame]
    exact hscan _

/-- The twenty weekdays up to a Wednesday, 12 August 2026 at 11:47. -/
theorem twenty_weekdays :
    let utcoffset := fun _ : Int => IST * MICROS
    let now := Timestamp.aware 1786515420000000
    ∃ day, IsNthWeekday (max 1 20) (todayOf utcoffset now) day ∧ chartStart utcoffset now 20 = .ok day ∧
      chartStartIst (epochSeconds now) 20 = some (ofOrdinal day) := by
  apply chartStart_eq_chartStartIst
  constructor
  · exact fun _ _ => rfl
  · decide +kernel
  · decide +kernel
  · decide +kernel

/-- The offset of the zone before there were standard times, that of the sun in Calcutta. -/
def localMeanTime (_ : Int) : Int := 21208 * MICROS

/-- Noon of the second of January of the year 50, a Sunday. -/
def sundayNoon : Timestamp := Timestamp.aware (-60589187608000000)

/-- The browser takes the day for one of 1950, a Monday, and begins the chart with it. -/
theorem century_of_keys : ¬ ∀ (now : Timestamp) (days : Int), ∃ day,
    chartStart localMeanTime now days = .ok day ∧ chartStartIst (epochSeconds now) days = some (ofOrdinal day) := by
  intro hall
  obtain ⟨day, hserver, hbrowser⟩ := hall sundayNoon 1
  have hfriday : chartStart localMeanTime sundayNoon 1 = .ok 17897 := by decide +kernel
  obtain rfl : 17897 = day := Except.ok.inj (hfriday.symm.trans hserver)
  revert hbrowser
  decide +kernel

end NTrade.Api.ChartStart
