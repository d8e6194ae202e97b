import NTrade.Lib.Writes
import NTrade.Sim.TickSimulator

/-! The anchors of the synthetic ticks: the high and the low of a bar can always be placed far enough from each other,
and the path through the anchors is written at every second. -/
namespace NTrade.Sim
open NTrade.Engines NTrade.Lib.Writes

/-- The distance that the draws keep between the high and the low. -/
def minGap (n : Nat) : Nat := max 1 (min MIN_ANCHOR_GAP ((n - 3) / 2))

/-- Places of the high and the low that the draws may end with. -/
structure Admissible (n hi lo : Nat) : Prop where
  hi_mem : 1 ≤ hi ∧ hi ≤ n - 2
  lo_mem : 1 ≤ lo ∧ lo ≤ n - 2
  far : minGap n ≤ ((hi : Int) - lo).natAbs

/-- One of the two ends of the range is far enough from any place in it. -/
theorem exists_admissible {n hi : Nat} (h4 : 4 ≤ n) (hhi : 1 ≤ hi ∧ hi ≤ n - 2) : ∃ lo, Admissible n hi lo := by
  rcases Nat.lt_or_ge (hi - 1) (minGap n) with h | h
  · refine ⟨n - 2, hhi, by omega, ?_⟩
    simp only [minGap, MIN_ANCHOR_GAP] at h ⊢
    omega
  · refine ⟨1, hhi, by omega, ?_⟩
    omega

def anchorsOf (bar : Ohlcv) (hi lo n : Nat) : List (Nat × Rat) :=
  [(0, bar.open_), (hi, bar.high), (lo, bar.low), (n - 1, bar.close)].insertionSort fun a b => a.1 ≤ b.1

/-- The writes of `_interp`, segment by segment. -/
def interpWrites (anchors : List (Nat × Rat)) : List (Nat × Rat) :=
  (anchors.zip anchors.tail).flatMap fun seg =>
    (List.range' seg.1.1 (seg.2.1 + 1 - seg.1.1)).map fun (i : Nat) =>
      let frac : Rat := if seg.2.1 ≠ seg.1.1 then ((i : Rat) - seg.1.1) / (seg.2.1 - seg.1.1) else 0
      (i, seg.1.2 + (seg.2.2 - seg.1.2) * frac)

theorem interp_eq_write (anchors : List (Nat × Rat)) (n : Nat) :
    interp anchors n = write (List.replicate n 0) (interpWrites anchors) :=
  foldl_foldl _ _ _ _

section Segments
variable {anchors : List (Nat × Rat)}

def Rising (anchors : List (Nat × Rat)) : Prop := anchors.Pairwise fun a b => a.1 < b.1

/-- Consecutive anchors have different indices. -/
theorem segment_lt (h : Rising anchors) : ∀ seg ∈ anchors.zip anchors.tail, seg.1.1 < seg.2.1 := by
  induction anchors with
  | nil => simp
  | cons a anchors ih =>
    cases anchors with
    | nil => simp
    | cons b anchors =>
      obtain ⟨ha, hrest⟩ := List.pairwise_cons.mp h
      intro seg hseg
      rcases List.mem_cons.mp hseg with rfl | hseg
      · exact ha b List.mem_cons_self
      · exact ih hrest seg hseg

/-- An index between two anchors is in a segment. -/
theorem exists_segment {a b : Nat × Rat} {i : Nat} (h : Rising (a :: b :: anchors)) (ha : a.1 ≤ i)
    (hlast : ∃ c ∈ b :: anchors, i ≤ c.1) :
    ∃ seg ∈ (a :: b :: anchors).zip (b :: anchors), seg.1.1 ≤ i ∧ i ≤ seg.2.1 := by
  induction anchors generalizing a b with
  | nil =>
    obtain ⟨c, hc, hi⟩ := hlast
    rw [List.mem_singleton.mp hc] at hi
    exact ⟨(a, b), by simp, ha, hi⟩
  | cons c anchors ih =>
    rcases Nat.lt_or_ge b.1 i with hb | hb
    · obtain ⟨d, hd, hi⟩ := hlast
      have hd' : d ∈ c :: anchors := by
        rcases List.mem_cons.mp hd with rfl | hd
        · omega
        · exact hd
      obtain ⟨seg, hseg, hin⟩ := ih h.of_cons hb.le ⟨d, hd', hi⟩
      exact ⟨seg, List.mem_cons_of_mem _ hseg, hin⟩
    · exact ⟨(a, b), List.mem_cons_self, ha, hb⟩

/-- The path is written from the first anchor to the last. -/
theorem mem_interpWrites {a b : Nat × Rat} {i : Nat} (h : Rising (a :: b :: anchors)) (ha : a.1 ≤ i)
    (hlast : ∃ c ∈ b :: anchors, i ≤ c.1) : i ∈ (interpWrites (a :: b :: anchors)).map Prod.fst := by
  obtain ⟨seg, hseg, hin⟩ := exists_segment h ha hlast
  simp only [interpWrites, List.map_flatMap, List.mem_flatMap, List.map_map]
  refine ⟨seg, hseg, List.mem_map.mpr ⟨i, ?_, rfl⟩⟩
  rw [List.mem_range'_1]
  omega

end Segments

variable {n hi lo : Nat}

theorem Admissible.nodup (h4 : 4 ≤ n) (h : Admissible n hi lo) : [0, hi, lo, n - 1].Nodup := by
  obtain ⟨hhi, hlo, hfar⟩ := h
  have hpos : 1 ≤ ((hi : Int) - lo).natAbs := (le_max_left _ _).trans hfar
  have hne : hi ≠ lo := by omega
  have h0 : 0 ≠ hi ∧ 0 ≠ lo ∧ 0 ≠ n - 1 := by omega
  have hlast : hi ≠ n - 1 ∧ lo ≠ n - 1 := by omega
  simp [hne, h0, hlast]

/-- The anchors of a path go up, from the first second to the last. -/
theorem Admissible.rising (h4 : 4 ≤ n) (h : Admissible n hi lo) (bar : Ohlcv) : Rising (anchorsOf bar hi lo n) := by
  have hperm : (anchorsOf bar hi lo n).Perm _ := List.perm_insertionSort _ _
  have hnodup : ((anchorsOf bar hi lo n).map Prod.fst).Nodup := (hperm.map Prod.fst).nodup_iff.mpr (h.nodup h4)
  have hsorted : (anchorsOf bar hi lo n).Pairwise fun a b => a.1 ≤ b.1 := by
    have : Std.Total fun a b : Nat × Rat => a.1 ≤ b.1 := ⟨fun a b => le_total a.1 b.1⟩
    have : IsTrans (Nat × Rat) fun a b => a.1 ≤ b.1 := ⟨fun _ _ _ => le_trans⟩
    exact List.pairwise_insertionSort _ _
  exact (hsorted.and (List.pairwise_map.mp hnodup)).imp fun hle => lt_of_le_of_ne hle.1 hle.2

/-- Every second of the path is written. -/
theorem Admissible.written (h4 : 4 ≤ n) (h : Admissible n hi lo) (bar : Ohlcv) {i : Nat} (hi' : i < n) :
    i ∈ (interpWrites (anchorsOf bar hi lo n)).map Prod.fst := by
  have hrising := h.rising h4 bar
  have hperm : (anchorsOf bar hi lo n).Perm _ := List.perm_insertionSort _ _
  have hfirst : (0, bar.open_) ∈ anchorsOf bar hi lo n := hperm.mem_iff.mpr (by simp)
  have hlast : (n - 1, bar.close) ∈ anchorsOf bar hi lo n := hperm.mem_iff.mpr (by simp)
  rcases he : anchorsOf bar hi lo n with - | ⟨a, - | ⟨b, anchors⟩⟩
  · rw [he] at hfirst
    cases hfirst
  · have hlen := hperm.length_eq
    rw [he] at hlen
    cases hlen
  · rw [he] at hrising hfirst hlast
    have ha : a.1 = 0 := by
      rcases List.mem_cons.mp hfirst with rfl | hmem
      · rfl
      · exact absurd ((List.pairwise_cons.mp hrising).1 _ hmem) (Nat.not_lt_zero _)
    have hb : (n - 1, bar.close) ∈ b :: anchors := by
      rcases List.mem_cons.mp hlast with rfl | hmem
      · simp only at ha
        omega
      · exact hmem
    exact mem_interpWrites hrising (by omega) ⟨_, hb, by simp only; omega⟩

/-- What the rest of the synthesis relies on: the anchors are at four different seconds, no segment divides by zero,
every second is written, and so what was in the path before does not matter. -/
structure Drawable (bar : Ohlcv) (n hi lo : Nat) : Prop where
  distinct : [0, hi, lo, n - 1].Nodup
  divisors : ∀ seg ∈ (anchorsOf bar hi lo n).zip (anchorsOf bar hi lo n).tail, (seg.2.1 : Rat) - seg.1.1 ≠ 0
  written : ∀ i < n, i ∈ (interpWrites (anchorsOf bar hi lo n)).map Prod.fst
  path : ∀ init : List Rat, init.length = n → write init (interpWrites (anchorsOf bar hi lo n)) =
    interp (anchorsOf bar hi lo n) n

theorem Admissible.drawable (h4 : 4 ≤ n) (h : Admissible n hi lo) (bar : Ohlcv) : Drawable bar n hi lo where
  distinct := h.nodup h4
  divisors seg hseg := by
    have hlt := segment_lt (h.rising h4 bar) seg hseg
    exact sub_ne_zero.mpr (Nat.cast_lt.mpr hlt).ne'
  written _ hi' := h.written h4 bar hi'
  path init hlen := by
    rw [interp_eq_write]
    apply write_congr (by rw [hlen, List.length_replicate])
    intro i hi'
    exact h.written h4 bar (hlen ▸ hi')

/-- For every first draw there is a second one that is far enough, so the draws end; and with it the anchors are at
four different seconds and the path through them is written everywhere without a division by zero. -/
theorem anchors_finish {n hi : Nat} (h4 : 4 ≤ n) (h1 : 1 ≤ hi) (h2 : hi ≤ n - 2) :
    (∃ lo : Nat, 1 ≤ lo ∧ lo ≤ n - 2 ∧ max 1 (min 5 ((n - 3) / 2)) ≤ ((hi : Int) - lo).natAbs) ∧
    (∀ (σ : Type) (rng : Rng σ) (s : σ), ∃ N, ∀ fuel ≥ N, ∃ lo s',
      redraw rng (minGap n) n hi fuel (rng.randrange s 1 (n - 1)) = some (lo, s') ∧ Admissible n hi lo) ∧
    ∀ lo, Admissible n hi lo → ∀ bar, Drawable bar n hi lo := by
  obtain ⟨v, hv⟩ := exists_admissible h4 ⟨h1, h2⟩
  have hvn : v < n - 1 := by
    have := hv.lo_mem.2
    omega
  refine ⟨⟨v, hv.lo_mem.1, hv.lo_mem.2, hv.far⟩, fun σ rng s => ?_, fun lo h bar => h.drawable h4 bar⟩
  obtain ⟨N, hN⟩ := redraw_finds rng hv.lo_mem.1 hvn (not_lt.mpr hv.far) s
  refine ⟨N, fun fuel hf => ?_⟩
  obtain ⟨lo, s', hre, hlo1, hlon, hgap⟩ := hN fuel hf
  exact ⟨lo, s', hre, ⟨h1, h2⟩, ⟨hlo1, by omega⟩, not_lt.mp hgap⟩

/-- The tightest range: four seconds, of which two are inside. -/
theorem four_seconds_finish :
    (∃ lo : Nat, 1 ≤ lo ∧ lo ≤ 4 - 2 ∧ max 1 (min 5 ((4 - 3) / 2)) ≤ (((1 : Nat) : Int) - lo).natAbs) ∧
    (∀ (σ : Type) (rng : Rng σ) (s : σ), ∃ N, ∀ fuel ≥ N, ∃ lo s',
      redraw rng (minGap 4) 4 1 fuel (rng.randrange s 1 (4 - 1)) = some (lo, s') ∧ Admissible 4 1 lo) ∧
    ∀ lo, Admissible 4 1 lo → ∀ bar, Drawable bar 4 1 lo :=
  anchors_finish (by decide) (by decide) (by decide)

end NTrade.Sim
