import NTrade.Lib.Trace

/-! Monitors: automata that read a trace. What holds initially and is kept by every entry
a monitor reads holds of each trace it accepts. -/
namespace NTrade.Lib

structure Monitor (σ α : Type*) where
  init : σ
  step : σ → α → σ → Prop

namespace Monitor
variable {σ α : Type*}

inductive Accepts (m : Monitor σ α) : List α → σ → Prop where
  | nil : Accepts m [] m.init
  | concat {t s o s'} (ht : Accepts m t s) (ho : m.step s o s') : Accepts m (t ++ [o]) s'

variable {m : Monitor σ α} {A : List α → α → Prop} {I : List α → σ → Prop} {t : List α} {s : σ}

theorem Accepts.of_isPrefix (ht : m.Accepts t s) {u : List α} (hu : u <+: t) : ∃ s', m.Accepts u s' := by
  induction ht with
  | nil =>
    obtain rfl := List.prefix_nil.mp hu
    exact ⟨_, .nil⟩
  | concat ht ho ih =>
    rcases List.prefix_concat_iff.mp hu with rfl | hu
    · exact ⟨_, .concat ht ho⟩
    · exact ih hu

/-- The induction on accepted traces, under an assumption on each entry and its past. -/
theorem Accepts.invariant (ht : m.Accepts t s) (h0 : I [] m.init)
    (hs : ∀ t s o s', I t s → A t o → m.step s o s' → I (t ++ [o]) s') (hA : Trace.Each A t) :
    I t s := by
  induction ht with
  | nil => exact h0
  | concat _ ho ih =>
    obtain ⟨ht, ha⟩ := Trace.each_concat.mp hA
    exact hs _ _ _ _ (ih ht) ha ho

end Monitor
end NTrade.Lib
