import NTrade.Lib.JsonText

/-! What a text looks like in the middle: its brackets, and whether a string is open. A parsed
text ends where it began, outside every bracket; the text of an array or an object that is cut
short does not, and what is written behind the cut does not mend it. -/
namespace NTrade.Lib.Json

/-- Where a reader stands in a text, with so many brackets open. -/
inductive Lex where
  | outside (depth : Nat)
  | string (depth : Nat)
  | escaped (depth : Nat)
  | bad
  deriving DecidableEq

namespace Lex

/-- There must be a bracket open to close. -/
def close : Nat → Lex
  | 0 => bad
  | d + 1 => outside d

/-- Outside strings an underscore belongs to no text. -/
def step : Lex → Char → Lex
  | outside d, c =>
    if c = '"' then string d
    else if c = '{' ∨ c = '[' then outside (d + 1)
    else if c = '}' ∨ c = ']' then close d
    else if c = '_' then bad
    else outside d
  | string d, c => if c = '"' then outside d else if c = '\\' then escaped d else string d
  | escaped d, _ => string d
  | bad, _ => bad

def run (s : Lex) (cs : List Char) : Lex := cs.foldl step s

@[simp] theorem run_nil (s : Lex) : s.run [] = s := rfl

@[simp] theorem run_cons (s : Lex) (c : Char) (cs : List Char) : s.run (c :: cs) = (s.step c).run cs := rfl

theorem run_append (s : Lex) (cs ds : List Char) : s.run (cs ++ ds) = (s.run cs).run ds := List.foldl_append

theorem run_bad (cs : List Char) : bad.run cs = bad := by
  induction cs with
  | nil => rfl
  | cons c cs ih => exact ih

/-- Characters that stand outside strings and open or close nothing. -/
def Neutral (c : Char) : Prop := c ≠ '"' ∧ ¬(c = '{' ∨ c = '[') ∧ ¬(c = '}' ∨ c = ']') ∧ c ≠ '_'

instance (c : Char) : Decidable (Neutral c) := inferInstanceAs (Decidable (_ ∧ _))

theorem step_neutral {c : Char} (h : Neutral c) (d : Nat) : (outside d).step c = outside d := by
  rw [step, if_neg h.1, if_neg h.2.1, if_neg h.2.2.1, if_neg h.2.2.2]

theorem run_neutral {cs : List Char} (h : ∀ c ∈ cs, Neutral c) (d : Nat) : (outside d).run cs = outside d := by
  induction cs with
  | nil => rfl
  | cons c cs ih =>
    rw [run_cons, step_neutral (h c (List.mem_cons_self ..))]
    exact ih fun b hb => h b (List.mem_cons_of_mem _ hb)

end Lex

section Parsed
open NTrade.Lib.Json.Lex

/-- Reading `cs` from `s` on comes to `s'` with `rest` left. -/
def Passes (s : Lex) (cs : List Char) (s' : Lex) (rest : List Char) : Prop := ∃ t, cs = t ++ rest ∧ s.run t = s'

namespace Passes
variable {s s' s'' : Lex} {cs ds rest : List Char}

theorem refl (s : Lex) (cs : List Char) : Passes s cs s cs := ⟨[], rfl, rfl⟩

theorem trans (h : Passes s cs s' ds) (h' : Passes s' ds s'' rest) : Passes s cs s'' rest := by
  obtain ⟨t, rfl, rfl⟩ := h
  obtain ⟨t', rfl, rfl⟩ := h'
  exact ⟨t ++ t', (List.append_assoc ..).symm, run_append ..⟩

theorem cons (s : Lex) (c : Char) (cs : List Char) : Passes s (c :: cs) (s.step c) cs := ⟨[c], rfl, rfl⟩

theorem neutral {c : Char} (h : Neutral c) (d : Nat) (cs : List Char) :
    Passes (outside d) (c :: cs) (outside d) cs := by
  have hc := cons (outside d) c cs
  rwa [step_neutral h] at hc

theorem literal {t : List Char} (h : ∀ c ∈ t, Neutral c) (d : Nat) (rest : List Char) :
    Passes (outside d) (t ++ rest) (outside d) rest :=
  ⟨t, rfl, run_neutral h d⟩

theorem run_eq (h : Passes s cs s' rest) : s.run cs = s'.run rest := by
  obtain ⟨t, rfl, rfl⟩ := h
  exact run_append ..

end Passes

/-- A reader that hands on the rest of another one. -/
private theorem some_of_map {α β : Type} {r : Option (α × List Char)} {f : α × List Char → β} {y : β} {rest : List Char}
    (h : (r.map fun x => (f x, x.2)) = some (y, rest)) : ∃ x, r = some (x, rest) := by
  obtain ⟨x, hx, he⟩ := Option.map_eq_some_iff.mp h
  obtain ⟨-, rfl⟩ := Prod.mk.inj he
  exact ⟨x.1, hx⟩

private theorem passes_word (t : List Char) (ht : ∀ c ∈ t, Neutral c) {d : Nat} {x j : Json} {after rest : List Char}
    (h : some (x, after) = some (j, rest)) : Passes (outside d) (t ++ after) (outside d) rest := by
  obtain ⟨-, rfl⟩ := Prod.mk.inj (Option.some.inj h)
  exact .literal ht d _

private theorem passes_skipWs (d : Nat) (cs : List Char) : Passes (outside d) cs (outside d) (skipWs cs) := by
  induction cs with
  | nil => exact .refl _ _
  | cons c cs ih =>
    by_cases h : c = ' ' ∨ c = '\t' ∨ c = '\n' ∨ c = '\r'
    · have hs : skipWs (c :: cs) = skipWs cs := List.dropWhile_cons_of_pos (by simpa using h)
      rw [hs]
      refine (Passes.neutral ?_ d cs).trans ih
      rcases h with rfl | rfl | rfl | rfl <;> decide
    · rw [skipWs_cons h]
      exact .refl _ _

private theorem neutral_digit (d : Fin 10) : Neutral (digit d) := by
  revert d
  decide

private theorem neutral_of_digitVal {c : Char} {d : Fin 10} (h : digitVal c = some d) : Neutral c := by
  have hd := List.find?_some h
  simp only [decide_eq_true_eq] at hd
  rw [← hd]
  exact neutral_digit d

private theorem passes_scanDigits (d : Nat) (cs : List Char) :
    Passes (outside d) cs (outside d) (scanDigits cs).2 := by
  induction cs with
  | nil => exact .refl _ _
  | cons c cs ih =>
    rw [scanDigits]
    split
    · exact .refl _ _
    · next h => exact (Passes.neutral (neutral_of_digitVal h) d cs).trans ih

private theorem passes_scanWhole {d n : Nat} {cs rest : List Char} (h : scanWhole cs = some (n, rest)) :
    Passes (outside d) cs (outside d) rest := by
  have hd := passes_scanDigits d cs
  rw [scanWhole] at h
  split at h
  · cases h
  · next v vs rest' heq =>
    split at h
    · obtain ⟨rfl, rfl⟩ := Prod.mk.inj (Option.some.inj h)
      cases cs with
      | nil => cases heq
      | cons c cs =>
        rw [scanDigits] at heq
        split at heq
        · cases heq
        · next hv => exact .neutral (neutral_of_digitVal hv) d cs
    · obtain ⟨rfl, rfl⟩ := Prod.mk.inj (Option.some.inj h)
      rw [heq] at hd
      exact hd

private theorem passes_scanFraction (d : Nat) (cs : List Char) :
    Passes (outside d) cs (outside d) (scanFraction cs).2 := by
  rw [scanFraction.eq_def]
  split
  · next cs =>
    have hd := passes_scanDigits d cs
    split
    · exact .refl _ _
    · next heq =>
      rw [heq] at hd
      exact (Passes.neutral (by decide) d cs).trans hd
  · exact .refl _ _

private theorem passes_scanSign (d : Nat) (cs : List Char) : Passes (outside d) cs (outside d) (scanSign cs).2 := by
  rw [scanSign.eq_def]
  split
  · exact .neutral (by decide) d _
  · exact .neutral (by decide) d _
  · exact .refl _ _

private theorem passes_scanExponent (d : Nat) (cs : List Char) :
    Passes (outside d) cs (outside d) (scanExponent cs).2 := by
  cases cs with
  | nil => exact .refl _ _
  | cons c cs =>
    rw [scanExponent]
    split
    · next hc =>
      have hd := passes_scanDigits d (scanSign cs).2
      have hn : Neutral c := by
        rcases hc with rfl | rfl <;> decide
      split
      · exact .refl _ _
      · next heq =>
        rw [heq] at hd
        exact ((Passes.neutral hn d cs).trans (passes_scanSign d cs)).trans hd
    · exact .refl _ _

private theorem passes_scanUnsigned {d : Nat} {negative : Bool} {cs rest : List Char} {n : Number}
    (h : scanUnsigned negative cs = some (n, rest)) : Passes (outside d) cs (outside d) rest := by
  rw [scanUnsigned] at h
  split at h
  · cases h
  · next whole cs' hw =>
    obtain ⟨-, rfl⟩ := Prod.mk.inj (Option.some.inj h)
    exact ((passes_scanWhole hw).trans (passes_scanFraction d cs')).trans (passes_scanExponent d _)

private theorem passes_scanNumber {d : Nat} {cs rest : List Char} {n : Number} (h : scanNumber cs = some (n, rest)) :
    Passes (outside d) cs (outside d) rest := by
  rw [scanNumber.eq_def] at h
  split at h
  · exact (Passes.neutral (by decide) d _).trans (passes_scanUnsigned h)
  · exact passes_scanUnsigned h

private theorem passes_scanHex {d n : Nat} {cs rest : List Char} (h : scanHex cs = some (n, rest)) :
    Passes (string d) cs (string d) rest := by
  have hstep {c : Char} {n : Nat} (h : hexVal c = some n) : (string d).step c = string d := by
    have hq : c ≠ '"' := by
      rintro rfl
      cases h
    have hb : c ≠ '\\' := by
      rintro rfl
      cases h
    rw [step, if_neg hq, if_neg hb]
  rw [scanHex.eq_def] at h
  split at h
  · next a b c e rest' =>
    split at h
    · next ha hb hc he =>
      obtain ⟨-, rfl⟩ := Prod.mk.inj (Option.some.inj h)
      refine ⟨[a, b, c, e], rfl, ?_⟩
      rw [run_cons, hstep ha, run_cons, hstep hb, run_cons, hstep hc, run_cons, hstep he, run_nil]
    · cases h
  · cases h

private theorem passes_scanUnicode {d : Nat} {c : Char} {cs rest : List Char} (h : scanUnicode cs = some (c, rest)) :
    Passes (string d) cs (string d) rest := by
  rw [scanUnicode] at h
  split at h
  · cases h
  · next hi after hhi =>
    have hfirst := passes_scanHex (d := d) hhi
    split at h
    · split at h
      · next more =>
        split at h
        · cases h
        · next lo after' hlo =>
          split at h
          · obtain ⟨-, rfl⟩ := Prod.mk.inj (Option.some.inj h)
            have hesc : Passes (string d) ('\\' :: 'u' :: more) (string d) more := ⟨['\\', 'u'], rfl, rfl⟩
            exact (hfirst.trans hesc).trans (passes_scanHex hlo)
          · obtain ⟨-, rfl⟩ := Prod.mk.inj (Option.some.inj h)
            exact hfirst
      · obtain ⟨-, rfl⟩ := Prod.mk.inj (Option.some.inj h)
        exact hfirst
    · obtain ⟨-, rfl⟩ := Prod.mk.inj (Option.some.inj h)
      exact hfirst

private theorem passes_scanEscape {d : Nat} {c : Char} {cs rest : List Char} (h : scanEscape cs = some (c, rest)) :
    Passes (escaped d) cs (string d) rest := by
  cases cs with
  | nil => cases h
  | cons b cs =>
    have hb := Passes.cons (escaped d) b cs
    rw [scanEscape] at h
    split at h
    · exact hb.trans (passes_scanUnicode h)
    · split at h
      · obtain ⟨-, rfl⟩ := Prod.mk.inj (Option.some.inj h)
        exact hb
      · obtain ⟨e, -, he⟩ := Option.map_eq_some_iff.mp h
        obtain ⟨-, rfl⟩ := Prod.mk.inj he
        exact hb

private theorem passes_scanString {d fuel : Nat} {s cs rest : List Char} (h : scanString fuel cs = some (s, rest)) :
    Passes (string d) cs (outside d) rest := by
  induction fuel generalizing cs s with
  | zero => cases h
  | succ fuel ih =>
    cases cs with
    | nil => cases h
    | cons c cs =>
      have hc := Passes.cons (string d) c cs
      rw [scanString] at h
      split at h
      · next hq =>
        obtain ⟨-, rfl⟩ := Prod.mk.inj (Option.some.inj h)
        rw [step, if_pos hq] at hc
        exact hc
      · next hq =>
        split at h
        · next hb =>
          rw [step, if_neg hq, if_pos hb] at hc
          split at h
          · cases h
          · next e rest' he =>
            obtain ⟨_, hr⟩ := some_of_map h
            exact (hc.trans (passes_scanEscape he)).trans (ih hr)
        · next hb =>
          rw [step, if_neg hq, if_neg hb] at hc
          split at h
          · cases h
          · obtain ⟨_, hr⟩ := some_of_map h
            exact hc.trans (ih hr)

/-- A value leaves as many brackets open as it found; its items and its members close one. -/
private structure Balanced (fuel : Nat) : Prop where
  value : ∀ {cs rest : List Char} {j : Json}, parseValue fuel cs = some (j, rest) → ∀ d,
    Passes (outside d) cs (outside d) rest
  items : ∀ {cs rest : List Char} {xs : List Json}, parseItems fuel cs = some (xs, rest) → ∀ d,
    Passes (outside (d + 1)) cs (outside d) rest
  members : ∀ {cs rest : List Char} {ms : List (String × Json)}, parseMembers fuel cs = some (ms, rest) → ∀ d,
    Passes (outside (d + 1)) cs (outside d) rest

namespace Balanced
variable {fuel : Nat} {cs rest : List Char}

private theorem passes_closed {d : Nat} (h : skipWs cs = ']' :: rest ∨ skipWs cs = '}' :: rest) :
    Passes (outside (d + 1)) cs (outside d) rest := by
  have hw := passes_skipWs (d + 1) cs
  rcases h with h | h <;> (rw [h] at hw; exact hw.trans (.cons _ _ rest))

private theorem passes_sign {d : Nat} {c : Char} (hn : Neutral c) (h : skipWs cs = c :: rest) :
    Passes (outside d) cs (outside d) (skipWs rest) := by
  have hw := passes_skipWs d cs
  rw [h] at hw
  exact (hw.trans (.neutral hn d rest)).trans (passes_skipWs d rest)

private theorem value_succ (ih : Balanced fuel) {j : Json} (h : parseValue (fuel + 1) cs = some (j, rest)) (d : Nat) :
    Passes (outside d) cs (outside d) rest := by
  rw [parseValue.eq_def] at h
  split at h
  · cases h
  · next heq =>
    obtain rfl := Nat.succ.inj heq
    split at h
    · next cs =>
      obtain ⟨_, hr⟩ := some_of_map h
      exact (Passes.cons (outside d) '"' cs).trans (passes_scanString hr)
    · next cs =>
      have ho := Passes.cons (outside d) '{' cs
      split at h
      · next hw =>
        obtain ⟨-, rfl⟩ := Prod.mk.inj (Option.some.inj h)
        exact ho.trans (passes_closed (.inr hw))
      · obtain ⟨_, hr⟩ := some_of_map h
        exact (ho.trans (passes_skipWs (d + 1) cs)).trans (ih.members hr d)
    · next cs =>
      have ho := Passes.cons (outside d) '[' cs
      split at h
      · next hw =>
        obtain ⟨-, rfl⟩ := Prod.mk.inj (Option.some.inj h)
        exact ho.trans (passes_closed (.inl hw))
      · obtain ⟨_, hr⟩ := some_of_map h
        exact (ho.trans (passes_skipWs (d + 1) cs)).trans (ih.items hr d)
    · exact passes_word ['n', 'u', 'l', 'l'] (forall_literal (by decide)) h
    · exact passes_word ['t', 'r', 'u', 'e'] (forall_literal (by decide)) h
    · exact passes_word ['f', 'a', 'l', 's', 'e'] (forall_literal (by decide)) h
    · exact passes_word ['N', 'a', 'N'] (forall_literal (by decide)) h
    · exact passes_word ['I', 'n', 'f', 'i', 'n', 'i', 't', 'y'] (forall_literal (by decide)) h
    · exact passes_word ['-', 'I', 'n', 'f', 'i', 'n', 'i', 't', 'y'] (forall_literal (by decide)) h
    · obtain ⟨_, hr⟩ := some_of_map h
      exact passes_scanNumber hr

private theorem items_succ (ih : Balanced fuel) {xs : List Json} (h : parseItems (fuel + 1) cs = some (xs, rest))
    (d : Nat) : Passes (outside (d + 1)) cs (outside d) rest := by
  rw [parseItems_cons] at h
  split at h
  · cases h
  · next x after hx =>
    have hv := ih.value hx (d + 1)
    split at h
    · next hw =>
      obtain ⟨-, rfl⟩ := Prod.mk.inj (Option.some.inj h)
      exact hv.trans (passes_closed (.inl hw))
    · next hw =>
      obtain ⟨_, hr⟩ := some_of_map h
      exact (hv.trans (passes_sign (by decide) hw)).trans (ih.items hr d)
    · cases h

private theorem members_succ (ih : Balanced fuel) {ms : List (String × Json)}
    (h : parseMembers (fuel + 1) cs = some (ms, rest)) (d : Nat) : Passes (outside (d + 1)) cs (outside d) rest := by
  rw [parseMembers.eq_def] at h
  dsimp only at h
  split at h
  · next cs =>
    split at h
    · cases h
    · next k after hk =>
      have hkey := (Passes.cons (outside (d + 1)) '"' cs).trans (passes_scanString hk)
      split at h
      · next hcolon =>
        split at h
        · cases h
        · next x after' hx =>
          have hv := (hkey.trans (passes_sign (by decide) hcolon)).trans (ih.value hx (d + 1))
          split at h
          · next hw =>
            obtain ⟨-, rfl⟩ := Prod.mk.inj (Option.some.inj h)
            exact hv.trans (passes_closed (.inr hw))
          · next hw =>
            obtain ⟨_, hr⟩ := some_of_map h
            exact (hv.trans (passes_sign (by decide) hw)).trans (ih.members hr d)
          · cases h
      · cases h
  · cases h

end Balanced

private theorem balanced (fuel : Nat) : Balanced fuel := by
  induction fuel with
  | zero => exact ⟨(nomatch ·), (nomatch ·), (nomatch ·)⟩
  | succ fuel ih => exact ⟨ih.value_succ, ih.items_succ, ih.members_succ⟩

/-- A text with a value in it closes every bracket it opens, and every string. -/
theorem run_of_parse {cs : List Char} {j : Json} (h : parse cs = some j) : (outside 0).run cs = outside 0 := by
  rw [parse] at h
  split at h
  · cases h
  · next x rest hx =>
    split at h
    · next hr =>
      have hp := ((passes_skipWs 0 cs).trans ((balanced _).value hx 0)).trans (passes_skipWs 0 rest)
      rw [hr] at hp
      exact hp.run_eq
    · cases h

end Parsed

section Written
open NTrade.Lib.Json.Lex

def Inside (d : Nat) : Lex → Prop
  | outside e => d ≤ e
  | string e => d ≤ e
  | escaped e => d ≤ e
  | bad => False

/-- `t` leads from `s` to `s'` and nowhere on the way closes the outer brackets. -/
def Stays (d : Nat) (s : Lex) (t : List Char) (s' : Lex) : Prop := s.run t = s' ∧ ∀ p, p <+: t → Inside d (s.run p)

namespace Stays
variable {d : Nat} {s s' s'' : Lex} {t t' : List Char}

theorem nil (h : Inside d s) : Stays d s [] s := by
  refine ⟨rfl, ?_⟩
  intro p hp
  rw [List.prefix_nil.mp hp]
  exact h

theorem cons (h : Inside d s) {c : Char} (ht : Stays d (s.step c) t s') : Stays d s (c :: t) s' := by
  refine ⟨ht.1, ?_⟩
  intro p hp
  rcases List.prefix_cons_iff.mp hp with rfl | ⟨q, rfl, hq⟩
  · exact h
  · exact ht.2 q hq

theorem append (ht : Stays d s t s') (ht' : Stays d s' t' s'') : Stays d s (t ++ t') s'' := by
  refine ⟨by rw [run_append, ht.1, ht'.1], ?_⟩
  intro p hp
  rcases List.prefix_or_prefix_of_prefix hp (List.prefix_append t t') with h | ⟨q, rfl⟩
  · exact ht.2 p h
  · rw [run_append, ht.1]
    exact ht'.2 q ((List.prefix_append_right_inj t).mp hp)

theorem mono {e : Nat} (h : e ≤ d) (ht : Stays d s t s') : Stays e s t s' := by
  refine ⟨ht.1, ?_⟩
  intro p hp
  have hi := ht.2 p hp
  match s.run p, hi with
  | outside _, hi => exact Nat.le_trans h hi
  | string _, hi => exact Nat.le_trans h hi
  | escaped _, hi => exact Nat.le_trans h hi

end Stays

theorem inside_outside (d : Nat) : Inside d (outside d) := Nat.le_refl d

theorem inside_string (d : Nat) : Inside d (string d) := Nat.le_refl d

theorem inside_escaped (d : Nat) : Inside d (escaped d) := Nat.le_refl d

private theorem stays_neutral {t : List Char} (h : ∀ c ∈ t, Neutral c) (d : Nat) : Stays d (outside d) t (outside d) := by
  refine ⟨run_neutral h d, ?_⟩
  intro p hp
  rw [run_neutral (fun c hc => h c (hp.subset hc)) d]
  exact Nat.le_refl d

private theorem stays_plain {t : List Char} (h : ∀ c ∈ t, c ≠ '"' ∧ c ≠ '\\') (d : Nat) :
    Stays d (string d) t (string d) := by
  induction t with
  | nil => exact .nil (inside_string d)
  | cons c t ih =>
    have hc := h c (List.mem_cons_self ..)
    refine .cons (inside_string d) ?_
    rw [step, if_neg hc.1, if_neg hc.2]
    exact ih fun b hb => h b (List.mem_cons_of_mem _ hb)

private theorem stays_backslash {c : Char} {t : List Char} {d : Nat} (h : Stays d (string d) t (string d)) :
    Stays d (string d) ('\\' :: c :: t) (string d) :=
  .cons (inside_string d) (.cons (inside_escaped d) h)

private theorem digitChar_plain : ∀ n < 16, Nat.digitChar n ≠ '"' ∧ Nat.digitChar n ≠ '\\' := by decide

private theorem stays_unicodeEscape (n d : Nat) : Stays d (string d) (unicodeEscape n) (string d) := by
  refine stays_backslash (stays_plain ?_ d)
  intro c hc
  simp only [List.mem_cons, List.not_mem_nil, or_false] at hc
  have hd (k : Nat) := digitChar_plain (k % 16) (Nat.mod_lt _ (by decide))
  rcases hc with rfl | rfl | rfl | rfl
  · exact hd _
  · exact hd _
  · exact hd _
  · exact hd _

private theorem stays_escape (c : Char) (d : Nat) : Stays d (string d) (escape c) (string d) := by
  rw [escape]
  split
  · exact stays_backslash (.nil (inside_string d))
  · next hn =>
    split
    · refine stays_plain ?_ d
      intro b hb
      obtain rfl := List.mem_singleton.mp hb
      refine ⟨?_, ?_⟩
      · rintro rfl
        cases hn
      · rintro rfl
        cases hn
    · split
      · exact stays_unicodeEscape _ d
      · exact (stays_unicodeEscape _ d).append (stays_unicodeEscape _ d)

private theorem stays_quoted (s : String) (d : Nat) : Stays d (outside d) (quoted s) (outside d) := by
  have h (cs : List Char) : Stays d (string d) (cs.flatMap escape) (string d) := by
    induction cs with
    | nil => exact .nil (inside_string d)
    | cons c cs ih =>
      rw [List.flatMap_cons]
      exact (stays_escape c d).append ih
  refine .cons (inside_outside d) ((h s.toList).append ?_)
  exact .cons (inside_string d) (.nil (inside_outside d))

private theorem neutral_numberText (n : Number) : ∀ c ∈ numberText n, Neutral c :=
  forall_numberText neutral_digit (by decide) (by decide) (by decide) (by decide) n

private def Body (t : List Char) : Prop := ∀ d, Stays d (outside d) t (outside d)

private theorem Body.append {t t' : List Char} (h : Body t) (h' : Body t') : Body (t ++ t') :=
  fun d => (h d).append (h' d)

private theorem Body.cons {c : Char} {t : List Char} (hc : Neutral c) (h : Body t) : Body (c :: t) := by
  intro d
  refine .cons (inside_outside d) ?_
  rw [step_neutral hc]
  exact h d

private theorem step_close (d : Nat) {c : Char} (h : c = '}' ∨ c = ']') : (outside (d + 1)).step c = outside d := by
  rcases h with rfl | rfl <;> rfl

private theorem step_open (d : Nat) {c : Char} (h : c = '{' ∨ c = '[') : (outside d).step c = outside (d + 1) := by
  rcases h with rfl | rfl <;> rfl

private def Bracketed (t : List Char) : Prop :=
  ∃ o body c, (o = '{' ∨ o = '[') ∧ (c = '}' ∨ c = ']') ∧ Body body ∧ t = o :: (body ++ [c])

private theorem Bracketed.body {t : List Char} (h : Bracketed t) : Body t := by
  obtain ⟨o, body, c, ho, hc, hb, rfl⟩ := h
  intro d
  refine .cons (inside_outside d) ?_
  rw [step_open d ho]
  have hi : Inside d (outside (d + 1)) := Nat.le_succ d
  refine ((hb (d + 1)).mono (Nat.le_succ d)).append (.cons hi ?_)
  rw [step_close d hc]
  exact .nil (inside_outside d)

private theorem body_nil : Body [] := fun d => .nil (inside_outside d)

private theorem bracketed_items {x : Json} {xs : List Json} {t : List Char} (hx : Body (text x)) (ht : Body t)
    (h : itemsText xs = t ++ [']']) : Bracketed (text (.arr (x :: xs))) := by
  refine ⟨'[', text x ++ t, ']', .inr rfl, .inr rfl, hx.append ht, ?_⟩
  rw [text, h, List.append_assoc]

private theorem body_member {k : String} {x : Json} (hx : Body (text x)) : Body (quoted k ++ ':' :: ' ' :: text x) :=
  Body.append (stays_quoted k) (.cons (by decide) (.cons (by decide) hx))

private theorem bracketed_members {k : String} {x : Json} {ms : List (String × Json)} {t : List Char}
    (hx : Body (text x)) (ht : Body t) (h : membersText ms = t ++ ['}']) :
    Bracketed (text (.obj ((k, x) :: ms))) := by
  refine ⟨'{', quoted k ++ ':' :: ' ' :: text x ++ t, '}', .inl rfl, .inl rfl, (body_member hx).append ht, ?_⟩
  simp only [text, h, List.append_assoc, List.cons_append]

mutual
private theorem body_text : ∀ j : Json, Body (text j)
  | .null => stays_neutral (forall_literal (by decide))
  | .bool true => stays_neutral (forall_literal (by decide))
  | .bool false => stays_neutral (forall_literal (by decide))
  | .nan => stays_neutral (forall_literal (by decide))
  | .infinite true => stays_neutral (forall_literal (by decide))
  | .infinite false => stays_neutral (forall_literal (by decide))
  | .num n => stays_neutral (neutral_numberText n)
  | .str s => stays_quoted s
  | .arr [] => Bracketed.body ⟨'[', [], ']', .inr rfl, .inr rfl, body_nil, rfl⟩
  | .arr (x :: xs) => by
    obtain ⟨t, h, ht⟩ := body_items xs
    exact (bracketed_items (body_text x) ht h).body
  | .obj [] => Bracketed.body ⟨'{', [], '}', .inl rfl, .inl rfl, body_nil, rfl⟩
  | .obj ((k, x) :: ms) => by
    obtain ⟨t, h, ht⟩ := body_members ms
    exact (bracketed_members (body_text x) ht h).body
private theorem body_items : ∀ xs : List Json, ∃ t, itemsText xs = t ++ [']'] ∧ Body t
  | [] => ⟨[], rfl, body_nil⟩
  | x :: xs => by
    obtain ⟨t, h, ht⟩ := body_items xs
    refine ⟨',' :: ' ' :: (text x ++ t), ?_, .cons (by decide) (.cons (by decide) ((body_text x).append ht))⟩
    rw [itemsText, h, List.cons_append, List.cons_append, List.append_assoc]
private theorem body_members : ∀ ms : List (String × Json), ∃ t, membersText ms = t ++ ['}'] ∧ Body t
  | [] => ⟨[], rfl, body_nil⟩
  | (k, x) :: ms => by
    obtain ⟨t, h, ht⟩ := body_members ms
    refine ⟨',' :: ' ' :: (quoted k ++ ':' :: ' ' :: text x ++ t), ?_,
      .cons (by decide) (.cons (by decide) ((body_member (body_text x)).append ht))⟩
    simp only [membersText, h, List.append_assoc, List.cons_append]
end

theorem run_text (j : Json) (d : Nat) : (outside d).run (text j) = outside d := (body_text j d).1

private theorem Bracketed.cut {t p : List Char} (h : Bracketed t) (hp : p <+: t) (hn : p ≠ []) (ht : p ≠ t) :
    Inside 1 ((outside 0).run p) := by
  obtain ⟨o, body, c, ho, -, hb, rfl⟩ := h
  rcases List.prefix_cons_iff.mp hp with rfl | ⟨q, rfl, hq⟩
  · exact absurd rfl hn
  · rw [run_cons, step_open 0 ho]
    rcases List.prefix_concat_iff.mp hq with rfl | hq
    · exact absurd rfl ht
    · exact (hb 1).2 q hq

theorem text_obj_concat (ms : List (String × Json)) : ∃ body, text (.obj ms) = body ++ ['}'] := by
  match ms with
  | [] => exact ⟨['{'], rfl⟩
  | (k, x) :: ms =>
    obtain ⟨t, h, -⟩ := body_members ms
    refine ⟨'{' :: (quoted k ++ ':' :: ' ' :: (text x ++ t)), ?_⟩
    simp only [text, h, List.append_assoc, List.cons_append]

/-- An object cut short leaves a bracket open. -/
theorem run_cut {ms : List (String × Json)} {p : List Char} (hp : p <+: text (.obj ms)) (hn : p ≠ [])
    (ht : p ≠ text (.obj ms)) : Inside 1 ((outside 0).run p) := by
  match ms, hp, ht with
  | [], hp, ht => exact Bracketed.cut ⟨'{', [], '}', .inl rfl, .inl rfl, body_nil, rfl⟩ hp hn ht
  | (k, x) :: ms, hp, ht =>
    obtain ⟨t, h, hb⟩ := body_members ms
    exact (bracketed_members (body_text x) hb h).cut hp hn ht

/-- An object cut short is no JSON. -/
theorem parse_cut {ms : List (String × Json)} {p : List Char} (hp : p <+: text (.obj ms)) (hn : p ≠ [])
    (ht : p ≠ text (.obj ms)) : parse p = none := by
  have hi := run_cut hp hn ht
  cases hj : parse p with
  | none => rfl
  | some j =>
    rw [run_of_parse hj] at hi
    exact absurd hi (Nat.not_succ_le_zero 0)

/-- An object written behind the cut is lost with it: it is read inside a bracket, or its first
quote ends the string the cut left open. -/
theorem parse_cut_append {ms ms' : List (String × Json)} {p : List Char} (hp : p <+: text (.obj ms)) (hn : p ≠ [])
    (ht : p ≠ text (.obj ms)) {rest : List Char} (hr : text (.obj ms') = '{' :: '"' :: '_' :: rest) :
    parse (p ++ text (.obj ms')) = none := by
  have hi := run_cut hp hn ht
  cases hj : parse (p ++ text (.obj ms')) with
  | none => rfl
  | some j =>
    exfalso
    have hrun := run_of_parse hj
    rw [run_append] at hrun
    match hs : (outside 0).run p, hi with
    | outside d, hi =>
      rw [hs, run_text] at hrun
      rw [Lex.outside.inj hrun] at hi
      exact Nat.not_succ_le_zero 0 hi
    | string d, _ =>
      have hbad : (string d).run (text (.obj ms')) = bad := by
        rw [hr]
        exact run_bad rest
      rw [hs, hbad] at hrun
      cases hrun
    | escaped d, _ =>
      have hbad : (escaped d).run (text (.obj ms')) = bad := by
        rw [hr]
        exact run_bad rest
      rw [hs, hbad] at hrun
      cases hrun

/-- Two objects on one line are no JSON either. -/
theorem parse_text_append (j : Json) {c : Char} (hc : Leads c) (hs : digitVal c = none ∧ c ≠ '.' ∧ c ≠ 'e' ∧ c ≠ 'E')
    (rest : List Char) : parse (text j ++ c :: rest) = none := by
  obtain ⟨b, t, ht, hb⟩ := text_leads j
  have hw : skipWs (text j ++ c :: rest) = text j ++ c :: rest := by
    rw [ht]
    exact skipWs_cons hb.1 _
  have hlen : (text j).length < (text j ++ c :: rest).length + 1 := by
    rw [List.length_append]
    omega
  rw [parse, hw, parseValue_text j hlen (stops_cons hs rest)]
  dsimp only
  rw [skipWs_cons hc.1, if_neg (List.cons_ne_nil _ _)]

end Written

end NTrade.Lib.Json
