import NTrade.Lib.Latest
import Mathlib.Algebra.Order.Ring.Rat

/-! Live candles in the chart's history. One way takes a candle at a time into the sorted list, mostly at its end;
the other takes all of them in at once through a map. -/
namespace NTrade.Ui.MergeLive
open NTrade.Lib NTrade.Lib.LastWrite NTrade.Lib.Grouping NTrade.Lib.Latest

structure Candle where
  time : Rat
  open_ : Rat
  high : Rat
  low : Rat
  close : Rat
  volume : Rat
  deriving DecidableEq, Repr

/-- A live candle revises the last bar, goes after it, replaces an earlier bar or is sorted in. -/
def mergeLive (prev : List Candle) (incoming : Candle) : List Candle :=
  match prev.getLast? with
  | none => prev ++ [incoming]
  | some last =>
    if last.time = incoming.time then prev.set (prev.length - 1) incoming
    else if last.time < incoming.time then prev ++ [incoming]
    else
      match prev.findIdx? fun c => c.time = incoming.time with
      | some i => prev.set i incoming
      | none => sortBy Candle.time (prev ++ [incoming])

def mergeByTime (history live : List Candle) : List Candle :=
  if live = [] then history
  else
    let byTime := history.foldl (fun d c => d.set c.time c) Dict.empty
    sortBy Candle.time (live.foldl (fun d c => d.set c.time c) byTime).values

def Chronological (candles : List Candle) : Prop := candles.Pairwise fun a b => a.time < b.time

theorem Chronological.time_le_last {candles : List Candle} (h : Chronological candles) {last : Candle}
    (hl : candles.getLast? = some last) : ∀ c ∈ candles, c.time ≤ last.time := by
  obtain ⟨pre, rfl⟩ := List.getLast?_eq_some_iff.mp hl
  intro c hc
  rcases List.mem_append.mp hc with hc | hc
  · exact ((List.pairwise_append.mp h).2.2 c hc last (by simp)).le
  · rw [List.mem_singleton.mp hc]

variable {written prev : List Candle} {incoming : Candle}

private theorem set_latest (h : IsLatest Candle.time written prev) {i : Nat} (hi : i < prev.length)
    (ht : prev[i].time = incoming.time) : IsLatest Candle.time (written ++ [incoming]) (prev.set i incoming) := by
  rw [List.set_eq_take_append_cons_drop, if_pos hi]
  apply IsLatest.replace _ ht
  rw [← List.drop_eq_getElem_cons hi, List.take_append_drop]
  exact h

/-- In every branch a live candle leaves the latest candle of each time. -/
theorem mergeLive_latest (h : IsLatest Candle.time written prev) (incoming : Candle) :
    IsLatest Candle.time (written ++ [incoming]) (mergeLive prev incoming) := by
  unfold mergeLive
  cases hl : prev.getLast? with
  | none =>
    apply h.append
    rw [List.getLast?_eq_none_iff.mp hl]
    nofun
  | some last =>
    have hne : prev ≠ [] := fun hnil => by simp [hnil] at hl
    have hlen : prev.length - 1 < prev.length := Nat.sub_one_lt (List.length_pos_iff.mpr hne).ne'
    have hlast : prev[prev.length - 1] = last := by
      rw [List.getLast?_eq_getElem?, List.getElem?_eq_getElem hlen] at hl
      exact Option.some.inj hl
    simp only
    split_ifs with heq hlt
    · exact set_latest h hlen (hlast ▸ heq)
    · apply h.append
      obtain ⟨pre, rfl⟩ := List.getLast?_eq_some_iff.mp hl
      intro c hc
      rcases List.mem_append.mp hc with hc | hc
      · exact ((List.pairwise_append.mp h.rising).2.2 c hc last (by simp)).trans hlt
      · rwa [List.mem_singleton.mp hc]
    · cases hf : prev.findIdx? fun c => c.time = incoming.time with
      | some i =>
        obtain ⟨hi, ht, -⟩ := List.findIdx?_eq_some_iff_getElem.mp hf
        exact set_latest h hi (of_decide_eq_true ht)
      | none =>
        apply h.sort
        intro c hc
        exact of_decide_eq_false (List.findIdx?_eq_none_iff.mp hf c hc)

/-- The live candles, one at a time, leave the latest candle of each time. -/
theorem foldl_mergeLive_latest {history : List Candle} (h : Chronological history) (live : List Candle) :
    IsLatest Candle.time (history ++ live) (live.foldl mergeLive history) := by
  induction live using List.reverseRecOn with
  | nil => simpa using isLatest_self h
  | append_singleton live incoming ih =>
    rw [List.foldl_concat, ← List.append_assoc]
    exact mergeLive_latest ih incoming

/-- The live candles, all at once, leave the latest candle of each time. -/
theorem mergeByTime_latest {history : List Candle} (h : Chronological history) (live : List Candle) :
    IsLatest Candle.time (history ++ live) (mergeByTime history live) := by
  unfold mergeByTime
  split_ifs with hl
  · rw [hl, List.append_nil]
    exact isLatest_self h
  · simp only
    rw [← List.foldl_append]
    exact isLatest_collect (history ++ live)

/-- Both ways to take live candles in come to the same chart: its times go up, and at each time there is the latest
live candle, or the candle of the history if there is none. -/
theorem mergeByTime_eq_foldl {history : List Candle} (h : Chronological history) (live : List Candle) :
    mergeByTime history live = live.foldl mergeLive history ∧ Chronological (mergeByTime history live) ∧
      ∀ t, (mergeByTime history live).filter (fun c => c.time = t) =
        ((lastOf Candle.time t live).or (lastOf Candle.time t history)).toList := by
  have hlatest := mergeByTime_latest h live
  refine ⟨hlatest.eq (foldl_mergeLive_latest h live), hlatest.rising, fun t => ?_⟩
  rw [hlatest.filter, lastOf_append]

/-- A bar that is revised, one that comes late and one that is new. -/
theorem merged_out_of_order :
    let history := [⟨100, 10, 12, 9, 11, 5⟩, ⟨160, 11, 14, 10, 13, 6⟩]
    let live := [⟨160, 11, 15, 10, 15, 9⟩, ⟨130, 11, 11, 11, 11, 1⟩, ⟨220, 15, 15, 15, 15, 2⟩]
    mergeByTime history live = live.foldl mergeLive history ∧ Chronological (mergeByTime history live) ∧
      ∀ t, (mergeByTime history live).filter (fun c => c.time = t) =
        ((lastOf Candle.time t live).or (lastOf Candle.time t history)).toList := by
  apply mergeByTime_eq_foldl
  rw [Chronological, List.pairwise_pair]
  decide +kernel

end NTrade.Ui.MergeLive
