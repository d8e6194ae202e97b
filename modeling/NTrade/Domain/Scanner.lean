import NTrade.Lib.Grouping
import NTrade.Lib.Dict
import NTrade.Lib.Literal
import NTrade.Lib.Trace
import Mathlib.Algebra.Order.Ring.Rat
import Mathlib.Algebra.Order.Field.Basic
import Mathlib.Algebra.BigOperators.Ring.List
import Mathlib.Algebra.Order.BigOperators.Group.List
import Mathlib.Tactic.Linarith
import Mathlib.Tactic.Ring

/-! Scanners, the facade that throttles them, and the screener that blends what they find into one watchlist. -/
namespace NTrade.Domain
open NTrade.Lib NTrade.Lib.Grouping

structure ScannerResult (ι : Type) where
  instrument : ι
  scannerName : String
  score : Rat
  signal : String
  matchedConditions : List String
  rank : Nat := 0
  deriving DecidableEq

namespace Scanner
variable {ι κ : Type}

def ranked (results : List (ScannerResult ι)) : List (ScannerResult ι) :=
  ((sortBy (fun r => -r.score) results).zipIdx 1).map fun e => { e.1 with rank := e.2 }

def lowest (r : ScannerResult ι) (rs : List (ScannerResult ι)) : Rat := rs.foldl (fun m r => min m r.score) r.score

def highest (r : ScannerResult ι) (rs : List (ScannerResult ι)) : Rat := rs.foldl (fun m r => max m r.score) r.score

def normalize : List (ScannerResult ι) → List (ScannerResult ι)
  | [] => []
  | r :: rs =>
    if highest r rs = lowest r rs then (r :: rs).map fun x => { x with score := 1 }
    else (r :: rs).map fun x => { x with score := (x.score - lowest r rs) / (highest r rs - lowest r rs) }

theorem map_ranked {β : Type} {f : ScannerResult ι → β} (hf : ∀ r n, f { r with rank := n } = f r)
    (results : List (ScannerResult ι)) : (ranked results).map f = (sortBy (fun r => -r.score) results).map f := by
  have hfst : (fun e : ScannerResult ι × Nat => f { e.1 with rank := e.2 }) = f ∘ Prod.fst := funext fun e => hf e.1 e.2
  have hcomp : (f ∘ fun e : ScannerResult ι × Nat => { e.1 with rank := e.2 }) = f ∘ Prod.fst := hfst
  rw [ranked, List.map_map, hcomp, ← List.map_map, List.zipIdx_map_fst]

theorem map_rank_ranked (results : List (ScannerResult ι)) :
    (ranked results).map (fun r => r.rank) = List.range' 1 (ranked results).length := by
  have hcomp : ((fun r : ScannerResult ι => r.rank) ∘ fun e : ScannerResult ι × Nat => { e.1 with rank := e.2 }) = Prod.snd := rfl
  rw [ranked, List.map_map, hcomp, List.zipIdx_map_snd, List.length_map, List.length_zipIdx]

theorem pairwise_ranked (results : List (ScannerResult ι)) :
    (ranked results).Pairwise fun a b => b.score ≤ a.score := by
  have hsorted := pairwise_sortBy (fun r : ScannerResult ι => -r.score) results
  have hscores : ((sortBy (fun r => -r.score) results).map fun r => r.score).Pairwise fun a b => b ≤ a :=
    List.pairwise_map.mpr (hsorted.imp fun h => neg_le_neg_iff.mp h)
  rw [← map_ranked (f := fun r => r.score) fun _ _ => rfl] at hscores
  exact List.pairwise_map.mp hscores

section Facade

/-- A call of the facade: the scanner with its other arguments, how long its results last, the time, and what the
scanner would find. -/
structure Scan (κ ι : Type) where
  key : κ
  limit : Rat
  now : Rat
  found : List (ScannerResult ι)

structure ScannerFacade (κ ι : Type) where
  lastRun : Dict κ Rat := Dict.empty
  cached : Dict κ (List (ScannerResult ι)) := Dict.empty

structure Served (κ ι : Type) where
  call : Scan κ ι
  answer : List (ScannerResult ι)
  scanned : Bool

variable [DecidableEq κ]

def scan (facade : ScannerFacade κ ι) (c : Scan κ ι) : ScannerFacade κ ι × Served κ ι :=
  let results := ranked c.found
  (if 0 < c.limit then
      { lastRun := facade.lastRun.set c.key c.now, cached := facade.cached.set c.key results }
    else facade,
    { call := c, answer := results, scanned := true })

def run (facade : ScannerFacade κ ι) (c : Scan κ ι) : ScannerFacade κ ι × Served κ ι :=
  if 0 < c.limit then
    match facade.lastRun.get c.key with
    | some last =>
      if c.now - last < c.limit then
        (facade, { call := c, answer := facade.cached.getD c.key [], scanned := false })
      else scan facade c
    | none => scan facade c
  else scan facade c

def session (calls : List (Scan κ ι)) : ScannerFacade κ ι × List (Served κ ι) :=
  calls.foldl (fun s c => ((run s.1 c).1, s.2 ++ [(run s.1 c).2])) ({}, [])

def kept (log : List (Served κ ι)) (k : κ) : Option (Served κ ι) :=
  (log.filter fun e => e.call.key = k ∧ e.scanned ∧ 0 < e.call.limit).getLast?

/-- A call is answered by the last scan of its key that was kept, if that is younger than its limit, and else by a
scan of its own. -/
structure Answers (log : List (Served κ ι)) (e : Served κ ι) : Prop where
  scanned : e.scanned = true ↔ 0 < e.call.limit → ∀ e', kept log e.call.key = some e' → e.call.limit ≤ e.call.now - e'.call.now
  fresh : e.scanned = true → e.answer = ranked e.call.found
  served : e.scanned = false → ∃ e', kept log e.call.key = some e' ∧ e.answer = ranked e'.call.found

structure Remembers (facade : ScannerFacade κ ι) (log : List (Served κ ι)) : Prop where
  lastRun : ∀ k, facade.lastRun.get k = (kept log k).map fun e => e.call.now
  cached : ∀ k, facade.cached.get k = (kept log k).map fun e => e.answer
  fresh : ∀ e ∈ log, e.scanned = true → e.answer = ranked e.call.found

theorem kept_concat (log : List (Served κ ι)) (e : Served κ ι) (k : κ) :
    kept (log ++ [e]) k = if e.call.key = k ∧ e.scanned ∧ 0 < e.call.limit then some e else kept log k := by
  rw [kept, List.filter_append]
  split_ifs with h
  · rw [List.filter_cons_of_pos (by simpa using h), List.filter_nil, List.getLast?_concat]
  · rw [List.filter_cons_of_neg (by simpa using h), List.filter_nil, List.append_nil, kept]

theorem kept_some {log : List (Served κ ι)} {k : κ} {e : Served κ ι} (h : kept log k = some e) :
    e ∈ log ∧ e.call.key = k ∧ e.scanned = true ∧ 0 < e.call.limit := by
  have hmem := List.mem_filter.mp (List.mem_of_getLast? h)
  exact ⟨hmem.1, by simpa using hmem.2⟩

variable {facade : ScannerFacade κ ι} {log : List (Served κ ι)}

private theorem scan_spec (h : Remembers facade log) (c : Scan κ ι)
    (hold : 0 < c.limit → ∀ e', kept log c.key = some e' → c.limit ≤ c.now - e'.call.now) :
    Answers log (scan facade c).2 ∧ Remembers (scan facade c).1 (log ++ [(scan facade c).2]) := by
  refine ⟨⟨iff_of_true rfl hold, fun _ => rfl, fun hs => by cases hs⟩, ?_⟩
  have hfresh : ∀ e ∈ log ++ [(scan facade c).2], e.scanned = true → e.answer = ranked e.call.found := by
    intro e he hs
    rcases List.mem_append.mp he with he | he
    · exact h.fresh e he hs
    · rw [List.mem_singleton.mp he]
      rfl
  refine ⟨fun k => ?_, fun k => ?_, hfresh⟩
  · rw [kept_concat, scan]
    by_cases hlimit : 0 < c.limit
    · by_cases hk : c.key = k
      · simp [hlimit, hk, Dict.get_set]
      · simp [hlimit, hk, Dict.get_set, Ne.symm hk, h.lastRun k]
    · simp [hlimit, h.lastRun k]
  · rw [kept_concat, scan]
    by_cases hlimit : 0 < c.limit
    · by_cases hk : c.key = k
      · simp [hlimit, hk, Dict.get_set]
      · simp [hlimit, hk, Dict.get_set, Ne.symm hk, h.cached k]
    · simp [hlimit, h.cached k]

/-- What one call does. -/
theorem run_spec (h : Remembers facade log) (c : Scan κ ι) :
    Answers log (run facade c).2 ∧ Remembers (run facade c).1 (log ++ [(run facade c).2]) ∧ (run facade c).2.call = c := by
  rw [run]
  split_ifs with hlimit
  · have hlast := h.lastRun c.key
    split
    · next last hsome =>
      rw [hsome] at hlast
      obtain ⟨e', he', hnow⟩ := Option.map_eq_some_iff.mp hlast.symm
      split_ifs with hyoung
      · have hanswer : facade.cached.getD c.key [] = e'.answer := by
          rw [Dict.getD, h.cached, he']
          rfl
        refine ⟨⟨iff_of_false (by simp) fun hold => ?_, fun hs => (by cases hs), fun _ => ⟨e', he', ?_⟩⟩, ⟨fun k => ?_, fun k => ?_, ?_⟩, rfl⟩
        · exact absurd (hold hlimit e' he') (not_le.mpr (hnow ▸ hyoung))
        · exact hanswer.trans (h.fresh e' (kept_some he').1 (kept_some he').2.2.1)
        · rw [kept_concat, if_neg (by simp)]
          exact h.lastRun k
        · rw [kept_concat, if_neg (by simp)]
          exact h.cached k
        · intro e he hs
          rcases List.mem_append.mp he with he | he
          · exact h.fresh e he hs
          · rw [List.mem_singleton.mp he] at hs
            cases hs
      · obtain ⟨hanswers, hremembers⟩ := scan_spec h c fun _ e'' he'' => by
          rw [he', Option.some.injEq] at he''
          rw [← he'', hnow]
          exact not_lt.mp hyoung
        exact ⟨hanswers, hremembers, rfl⟩
    · next hnone =>
      rw [hnone] at hlast
      obtain ⟨hanswers, hremembers⟩ := scan_spec h c fun _ e' he' => by
        rw [he'] at hlast
        cases hlast
      exact ⟨hanswers, hremembers, rfl⟩
  · obtain ⟨hanswers, hremembers⟩ := scan_spec h c fun hlimit' => absurd hlimit' hlimit
    exact ⟨hanswers, hremembers, rfl⟩

theorem session_concat (calls : List (Scan κ ι)) (c : Scan κ ι) :
    session (calls ++ [c]) =
      ((run (session calls).1 c).1, (session calls).2 ++ [(run (session calls).1 c).2]) := by
  rw [session, List.foldl_concat, ← session]

theorem remembers_session (calls : List (Scan κ ι)) :
    Remembers (session calls).1 (session calls).2 ∧ (session calls).2.map (fun e => e.call) = calls := by
  induction calls using List.reverseRecOn with
  | nil => exact ⟨⟨fun _ => rfl, fun _ => rfl, fun e he => by cases he⟩, rfl⟩
  | append_singleton calls c ih =>
    obtain ⟨-, hremembers, hcall⟩ := run_spec ih.1 c
    rw [session_concat]
    exact ⟨hremembers, by rw [List.map_append, ih.2, List.map_singleton, hcall]⟩

private theorem each_session (calls : List (Scan κ ι)) : Trace.Each Answers (session calls).2 := by
  induction calls using List.reverseRecOn with
  | nil => exact Trace.Each.nil _
  | append_singleton calls c ih =>
    rw [session_concat]
    exact Trace.each_concat.mpr ⟨ih, (run_spec (remembers_session calls).1 c).1⟩

/-- Whatever calls are made of the facade, each is answered by the last scan for the same arguments that was kept
while that is younger than the limit of the call, and else by a scan of its own. -/
theorem session_answers (calls : List (Scan κ ι)) :
    (session calls).2.map (fun e => e.call) = calls ∧ Trace.Each Answers (session calls).2 :=
  ⟨(remembers_session calls).2, each_session calls⟩

private theorem le_kept {k : κ} {e e' : Served κ ι} (hmono : log.Pairwise fun a b => a.call.now ≤ b.call.now)
    (hkept : kept log k = some e') (he : e ∈ log) (hk : e.call.key = k) (hs : e.scanned = true) (hl : 0 < e.call.limit) :
    e.call.now ≤ e'.call.now := by
  obtain ⟨pre, hpre⟩ := List.getLast?_eq_some_iff.mp hkept
  have hmem : e ∈ pre ++ [e'] := hpre ▸ List.mem_filter.mpr ⟨he, by simpa using ⟨hk, hs, hl⟩⟩
  rcases List.mem_append.mp hmem with hmem | hmem
  · have hpair := hmono.sublist (List.filter_sublist (p := fun e : Served κ ι => decide (e.call.key = k ∧ e.scanned = true ∧ 0 < e.call.limit)))
    rw [hpre] at hpair
    exact (List.pairwise_append.mp hpair).2.2 e hmem e' (List.mem_singleton_self e')
  · rw [List.mem_singleton.mp hmem]

private theorem kept_isSome {k : κ} {e : Served κ ι} (he : e ∈ log) (hk : e.call.key = k) (hs : e.scanned = true)
    (hl : 0 < e.call.limit) : ∃ e', kept log k = some e' := by
  cases hkept : kept log k with
  | none =>
    have hnil := List.getLast?_eq_none_iff.mp hkept
    exact absurd (List.mem_filter.mpr ⟨he, by simpa using ⟨hk, hs, hl⟩⟩) (hnil ▸ List.not_mem_nil)
  | some e' => exact ⟨e', rfl⟩

/-- While the clock does not go back, two scans for the same arguments that are kept are as far apart as the later
one's limit, whatever is called between them. -/
theorem scans_paced (calls : List (Scan κ ι)) (hmono : calls.Pairwise fun c c' => c.now ≤ c'.now) :
    (session calls).2.Pairwise fun e e' => e.call.key = e'.call.key → e.scanned = true → 0 < e.call.limit →
      e'.scanned = true → 0 < e'.call.limit → e.call.now + e'.call.limit ≤ e'.call.now := by
  induction calls using List.reverseRecOn with
  | nil => exact List.Pairwise.nil
  | append_singleton calls c ih =>
    obtain ⟨hmono', -, -⟩ := List.pairwise_append.mp hmono
    obtain ⟨hanswers, -, -⟩ := run_spec (remembers_session calls).1 c
    have hlog : (session calls).2.Pairwise fun a b => a.call.now ≤ b.call.now := by
      rw [← (remembers_session calls).2, List.pairwise_map] at hmono'
      exact hmono'
    rw [session_concat]
    refine List.pairwise_append.mpr ⟨ih hmono', List.pairwise_singleton _ _, fun e he e' he' hk hs hl hs' hl' => ?_⟩
    rw [List.mem_singleton.mp he'] at hk hs' hl' ⊢
    obtain ⟨last, hlast⟩ := kept_isSome he hk hs hl
    have hold := hanswers.scanned.mp hs' hl' last hlast
    linarith [le_kept hlog hlast he hk hs hl]

theorem scans_paced_twice :
    let calls : List (Scan String Nat) := [⟨"gap", 5, 0, []⟩, ⟨"gap", 5, 3, []⟩, ⟨"gap", 5, 6, []⟩]
    ((session calls).2.Pairwise fun e e' => e.call.key = e'.call.key → e.scanned = true → 0 < e.call.limit →
      e'.scanned = true → 0 < e'.call.limit → e.call.now + e'.call.limit ≤ e'.call.now) ∧
      (session calls).2.map (fun e => e.scanned) = [true, false, true] := by
  intro calls
  exact ⟨scans_paced calls (by decide +kernel), by decide +kernel⟩

end Facade
section Normal

/-- Only the scores change. -/
theorem map_instrument_normalize (results : List (ScannerResult ι)) :
    (normalize results).map (fun r => r.instrument) = results.map fun r => r.instrument := by
  cases results with
  | nil => rfl
  | cons r rs =>
    rw [normalize]
    split_ifs <;> simp

def rescale (a b : Rat) (r : ScannerResult ι) : ScannerResult ι := { r with score := a * r.score + b }

private theorem foldl_rescale {op : Rat → Rat → Rat} {a b : Rat} (h : ∀ x y, op (a * x + b) (a * y + b) = a * op x y + b)
    (m : Rat) (rs : List (ScannerResult ι)) :
    (rs.map (rescale a b)).foldl (fun m r => op m r.score) (a * m + b) = a * rs.foldl (fun m r => op m r.score) m + b := by
  induction rs generalizing m with
  | nil => rfl
  | cons r rs ih => rw [List.map_cons, List.foldl_cons, List.foldl_cons, rescale, h, ih]

/-- The unit that a scanner counts in plays no part. -/
theorem normalize_rescale {a : Rat} (ha : 0 < a) (b : Rat) (results : List (ScannerResult ι)) :
    normalize (results.map (rescale a b)) = normalize results := by
  cases results with
  | nil => rfl
  | cons r rs =>
    have hlow : lowest (rescale a b r) (rs.map (rescale a b)) = a * lowest r rs + b :=
      foldl_rescale (fun x y => by rw [min_add_add_right, mul_min_of_nonneg _ _ ha.le]) r.score rs
    have hhigh : highest (rescale a b r) (rs.map (rescale a b)) = a * highest r rs + b :=
      foldl_rescale (fun x y => by rw [max_add_add_right, mul_max_of_nonneg _ _ ha.le]) r.score rs
    have hiff : a * highest r rs + b = a * lowest r rs + b ↔ highest r rs = lowest r rs := by
      rw [add_left_inj, mul_right_inj' ha.ne']
    rw [List.map_cons, normalize, normalize, hlow, hhigh, ← List.map_cons, List.map_map, List.map_map]
    by_cases hflat : highest r rs = lowest r rs
    · rw [if_pos (hiff.mpr hflat), if_pos hflat]
      rfl
    · rw [if_neg (mt hiff.mp hflat), if_neg hflat]
      apply List.map_congr_left
      intro x _
      have hscore : (a * x.score + b - (a * lowest r rs + b)) / (a * highest r rs + b - (a * lowest r rs + b)) =
          (x.score - lowest r rs) / (highest r rs - lowest r rs) := by
        rw [add_sub_add_right_eq_sub, add_sub_add_right_eq_sub, ← mul_sub, ← mul_sub, mul_div_mul_left _ _ ha.ne']
      exact congrArg (fun q => { x with score := q }) hscore

end Normal
end Scanner

namespace Screener
variable {ι : Type}

def tupleRepr : List String → String
  | [] => "()"
  | [x] => "(" ++ Literal.repr x ++ ",)"
  | xs => "(" ++ ", ".intercalate (xs.map Literal.repr) ++ ")"

structure Criterion (ι : Type) where
  found : List (ScannerResult ι)
  weight : Rat

def top (results : List (ScannerResult ι)) (n : Int) : List (ScannerResult ι) :=
  if 0 ≤ n then results.take n.toNat else results.take (results.length - n.natAbs)

variable [DecidableEq ι]

def blend (weight : Rat) (merged : Dict ι (ScannerResult ι)) (r : ScannerResult ι) : Dict ι (ScannerResult ι) :=
  match merged.get r.instrument with
  | some existing =>
    merged.set r.instrument
      { existing with
        score := existing.score + weight * r.score
        matchedConditions := existing.matchedConditions ++ [r.scannerName ++ ":" ++ tupleRepr r.matchedConditions] }
  | none => merged.set r.instrument { r with score := weight * r.score }

def merged (criteria : List (Criterion ι)) : Dict ι (ScannerResult ι) :=
  criteria.foldl (fun d c => (Scanner.normalize c.found).foldl (blend c.weight) d) Dict.empty

def watchlist (criteria : List (Criterion ι)) : List (ScannerResult ι) := Scanner.ranked (merged criteria).values

def run (criteria : List (Criterion ι)) (limit : Option Int) :
    List (ScannerResult ι) × Option (List (ScannerResult ι)) :=
  let final := limit.elim (watchlist criteria) (top (watchlist criteria))
  (final, if final.isEmpty then none else some final)

section Scores

def scoreIn (c : Criterion ι) (i : ι) : Rat :=
  c.weight * (((Scanner.normalize c.found).filter fun r => r.instrument = i).map fun r => r.score).sum

def scoreOf (d : Dict ι (ScannerResult ι)) (i : ι) : Rat := ((d.get i).map fun r => r.score).getD 0

def Filed (d : Dict ι (ScannerResult ι)) : Prop := ∀ i r, d.get i = some r → r.instrument = i

theorem blend_spec {d : Dict ι (ScannerResult ι)} (hd : Filed d) (weight : Rat) (r : ScannerResult ι) :
    Filed (blend weight d r) ∧ (∀ i, i ∈ (blend weight d r).keys ↔ i = r.instrument ∨ i ∈ d.keys) ∧
      ∀ i, scoreOf (blend weight d r) i = scoreOf d i + if r.instrument = i then weight * r.score else 0 := by
  rw [blend]
  split
  · next existing hex =>
    refine ⟨fun i x hx => ?_, fun i => Dict.mem_keys_set d r.instrument i _, fun i => ?_⟩
    · rw [Dict.get_set] at hx
      split_ifs at hx with hi
      · rw [← Option.some.inj hx]
        exact (hd _ existing hex).trans hi.symm
      · exact hd i x hx
    · rw [scoreOf, scoreOf, Dict.get_set]
      by_cases hi : i = r.instrument
      · rw [if_pos hi, if_pos hi.symm, hi, hex]
        rfl
      · rw [if_neg hi, if_neg (Ne.symm hi), add_zero]
  · next hnone =>
    refine ⟨fun i x hx => ?_, fun i => Dict.mem_keys_set d r.instrument i _, fun i => ?_⟩
    · rw [Dict.get_set] at hx
      split_ifs at hx with hi
      · rw [← Option.some.inj hx, hi]
      · exact hd i x hx
    · rw [scoreOf, scoreOf, Dict.get_set]
      by_cases hi : i = r.instrument
      · rw [if_pos hi, if_pos hi.symm, hi, hnone]
        exact (zero_add _).symm
      · rw [if_neg hi, if_neg (Ne.symm hi), add_zero]

private theorem foldl_blend_spec {d : Dict ι (ScannerResult ι)} (hd : Filed d) (weight : Rat) (rs : List (ScannerResult ι)) :
    Filed (rs.foldl (blend weight) d) ∧
      (∀ i, i ∈ (rs.foldl (blend weight) d).keys ↔ i ∈ d.keys ∨ i ∈ rs.map fun r => r.instrument) ∧
      ∀ i, scoreOf (rs.foldl (blend weight) d) i =
        scoreOf d i + weight * ((rs.filter fun r => r.instrument = i).map fun r => r.score).sum := by
  induction rs generalizing d with
  | nil => exact ⟨hd, by simp, by simp⟩
  | cons r rs ih =>
    obtain ⟨hfiled, hkeys, hscore⟩ := blend_spec hd weight r
    obtain ⟨hfiled', hkeys', hscore'⟩ := ih hfiled
    refine ⟨hfiled', fun i => ?_, fun i => ?_⟩
    · rw [List.foldl_cons, hkeys', hkeys, List.map_cons, List.mem_cons]
      tauto
    · rw [List.foldl_cons, hscore', hscore, List.filter_cons]
      split_ifs with hi hi'
      · simp only [List.map_cons, List.sum_cons]
        ring
      all_goals simp_all

/-- The entries of the merged results. -/
theorem merged_spec (criteria : List (Criterion ι)) :
    Filed (merged criteria) ∧
      (∀ i, i ∈ (merged criteria).keys ↔ ∃ c ∈ criteria, i ∈ c.found.map fun r => r.instrument) ∧
      ∀ i, scoreOf (merged criteria) i = (criteria.map fun c => scoreIn c i).sum := by
  induction criteria using List.reverseRecOn with
  | nil =>
    refine ⟨fun i r h => ?_, by simp [merged, Dict.empty, Dict.keys], fun i => rfl⟩
    cases h
  | append_singleton criteria c ih =>
    obtain ⟨hfiled, hkeys, hscore⟩ := ih
    have hstep : merged (criteria ++ [c]) = (Scanner.normalize c.found).foldl (blend c.weight) (merged criteria) := by
      rw [merged, List.foldl_concat, ← merged]
    obtain ⟨hfiled', hkeys', hscore'⟩ := foldl_blend_spec hfiled c.weight (Scanner.normalize c.found)
    rw [hstep]
    refine ⟨hfiled', fun i => ?_, fun i => ?_⟩
    · rw [hkeys', hkeys, Scanner.map_instrument_normalize]
      simp [or_and_right, exists_or]
    · rw [hscore', hscore, List.map_append, List.sum_append, List.map_singleton, List.sum_singleton, scoreIn]

theorem score_watchlist (criteria : List (Criterion ι)) :
    ∀ r ∈ watchlist criteria, r.score = (criteria.map fun c => scoreIn c r.instrument).sum := by
  intro r hr
  obtain ⟨hfiled, -, hscore⟩ := merged_spec criteria
  have hpair : ((r.instrument, r.score) : ι × Rat) ∈ (watchlist criteria).map fun r => (r.instrument, r.score) :=
    List.mem_map.mpr ⟨r, hr, rfl⟩
  rw [watchlist, Scanner.map_ranked fun _ _ => rfl] at hpair
  obtain ⟨x, hx, hxr⟩ := List.mem_map.mp hpair
  obtain ⟨e, he, hex⟩ := List.mem_map.mp ((perm_sortBy _ _).mem_iff.mp hx)
  have hget := (Dict.mem_entries_iff _ _ _).mp he
  rw [hex] at hget
  have hkey := hfiled e.1 x hget
  obtain ⟨hi, hs⟩ := Prod.mk.inj hxr
  rw [← hscore, scoreOf, ← hi, hkey, hget, ← hs]
  rfl

/-- The instruments that some scanner reports are on the watchlist once each, with what they score with all of the
criteria, from the highest score down. -/
theorem watchlist_spec (criteria : List (Criterion ι)) :
    ((watchlist criteria).map fun r => r.instrument).Nodup ∧
      (∀ i, (i ∈ (watchlist criteria).map fun r => r.instrument) ↔ ∃ c ∈ criteria, i ∈ c.found.map fun r => r.instrument) ∧
      (∀ r ∈ watchlist criteria, r.score = (criteria.map fun c => scoreIn c r.instrument).sum) ∧
      ((watchlist criteria).Pairwise fun r r' => r'.score ≤ r.score) ∧
      (watchlist criteria).map (fun r => r.rank) = List.range' 1 (watchlist criteria).length := by
  obtain ⟨hfiled, hkeys, -⟩ := merged_spec criteria
  have hinst : ((merged criteria).values.map fun r => r.instrument) = (merged criteria).keys := by
    rw [Dict.values, Dict.keys, List.map_map]
    apply List.map_congr_left
    intro e he
    exact hfiled e.1 e.2 ((Dict.mem_entries_iff _ _ _).mp he)
  have hperm : ((watchlist criteria).map fun r => r.instrument).Perm (merged criteria).keys := by
    rw [watchlist, Scanner.map_ranked fun _ _ => rfl, ← hinst]
    exact (perm_sortBy _ _).map _
  exact ⟨hperm.nodup_iff.mpr (Dict.keys_nodup _), fun i => by rw [hperm.mem_iff, hkeys], score_watchlist criteria,
    Scanner.pairwise_ranked _, Scanner.map_rank_ranked _⟩

end Scores

section Units

theorem foldl_blend_congr {criteria : List (Criterion ι)} {g : Criterion ι → Criterion ι}
    (h : ∀ c ∈ criteria, Scanner.normalize (g c).found = Scanner.normalize c.found ∧ (g c).weight = c.weight) :
    merged (criteria.map g) = merged criteria := by
  rw [merged, merged, List.foldl_map]
  apply List.foldl_ext
  intro d c hc
  rw [(h c hc).1, (h c hc).2]

/-- The watchlist is the same in whatever units its scanners count, and from whatever zeros. -/
theorem run_rescale {criteria : List (Criterion ι)} {unit zero : Criterion ι → Rat} (h : ∀ c ∈ criteria, 0 < unit c)
    (limit : Option Int) :
    run (criteria.map fun c => { c with found := c.found.map (Scanner.rescale (unit c) (zero c)) }) limit =
      run criteria limit := by
  have hmerged := foldl_blend_congr (g := fun c => { c with found := c.found.map (Scanner.rescale (unit c) (zero c)) })
    fun c hc => ⟨Scanner.normalize_rescale (h c hc) (zero c) c.found, Eq.refl _⟩
  rw [run, run, watchlist, watchlist, hmerged]

theorem run_rescale_percent :
    let found : List (ScannerResult String) := [⟨"NIFTY", "gap", 2, "BUY", ["gap_up"], 0⟩, ⟨"GOLD", "gap", 5, "SELL", ["gap_down"], 0⟩]
    let criteria : List (Criterion String) := [⟨found, 2⟩]
    run (criteria.map fun c => { c with found := c.found.map (Scanner.rescale (1 / 100) 0) }) (some 1) = run criteria (some 1) := by
  intro found criteria
  have hunit : ∀ c ∈ criteria, (0 : Rat) < (fun _ => 1 / 100) c := fun _ _ => by norm_num
  exact @run_rescale _ _ criteria (fun _ => 1 / 100) (fun _ => 0) hunit (some 1)

def amplify (s : Rat) (r : ScannerResult ι) : ScannerResult ι := { r with score := s * r.score }

private theorem blend_amplify (s weight : Rat) (d : Dict ι (ScannerResult ι)) (r : ScannerResult ι) :
    blend (s * weight) (d.map (amplify s)) r = (blend weight d r).map (amplify s) := by
  rw [blend, blend, Dict.get_map]
  cases d.get r.instrument with
  | none =>
    rw [Option.map_none, Dict.map_set, amplify, mul_assoc]
  | some existing =>
    rw [Option.map_some, Dict.map_set, amplify, amplify]
    dsimp only
    rw [mul_add, mul_assoc]

private theorem merged_amplify (s : Rat) (criteria : List (Criterion ι)) :
    merged (criteria.map fun c => { c with weight := s * c.weight }) = (merged criteria).map (amplify s) := by
  have hfold (weight : Rat) (rs : List (ScannerResult ι)) (d : Dict ι (ScannerResult ι)) :
      rs.foldl (blend (s * weight)) (d.map (amplify s)) = (rs.foldl (blend weight) d).map (amplify s) := by
    induction rs generalizing d with
    | nil => rfl
    | cons r rs ih => rw [List.foldl_cons, List.foldl_cons, blend_amplify, ih]
  induction criteria using List.reverseRecOn with
  | nil => rfl
  | append_singleton criteria c ih =>
    rw [merged] at ih ⊢
    rw [merged, List.map_append, List.map_singleton, List.foldl_concat, ih, List.foldl_concat, ← merged, hfold]

omit [DecidableEq ι] in
private theorem ranked_amplify {s : Rat} (hs : 0 < s) (results : List (ScannerResult ι)) :
    Scanner.ranked (results.map (amplify s)) = (Scanner.ranked results).map (amplify s) := by
  have hsort : sortBy (fun r => -r.score) (results.map (amplify s)) = (sortBy (fun r => -r.score) results).map (amplify s) := by
    refine (List.map_insertionSort _ _ (amplify s) results fun a _ b _ => ?_).symm
    exact neg_le_neg_iff.trans ((mul_le_mul_iff_right₀ hs).symm.trans neg_le_neg_iff.symm)
  rw [Scanner.ranked, Scanner.ranked, hsort, List.zipIdx_map, List.map_map, List.map_map]
  rfl

private theorem run_eq_map (s : Rat) {criteria criteria' : List (Criterion ι)}
    (h : watchlist criteria' = (watchlist criteria).map (amplify s)) (limit : Option Int) :
    run criteria' limit = ((run criteria limit).1.map (amplify s), (run criteria limit).2.map (List.map (amplify s))) := by
  have htop (n : Int) : top ((watchlist criteria).map (amplify s)) n = (top (watchlist criteria) n).map (amplify s) := by
    rw [top, top, List.length_map]
    split_ifs <;> rw [List.map_take]
  have hfinal : limit.elim ((watchlist criteria).map (amplify s)) (top ((watchlist criteria).map (amplify s))) =
      (limit.elim (watchlist criteria) (top (watchlist criteria))).map (amplify s) := by
    cases limit with
    | none => rfl
    | some n => exact htop n
  rw [run, run, h]
  dsimp only
  rw [hfinal, List.isEmpty_map]
  split_ifs <;> rfl

end Units
end Screener
end NTrade.Domain
