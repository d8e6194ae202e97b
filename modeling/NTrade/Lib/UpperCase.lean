import Mathlib
import NTrade.Lib.Literal

/-! Texts without white space at their ends, in upper case. -/
namespace NTrade.Lib.Literal

section Characters
variable {c d : Char}

def foldedPoints : List Nat := [0xdf, 0x131, 0x17f, 0xfb00, 0xfb01, 0xfb02, 0xfb03, 0xfb04, 0xfb05, 0xfb06]

def Settled (c : Char) : Prop := c.isLower = false ∧ c.toNat ∉ foldedPoints

instance (c : Char) : Decidable (Settled c) := inferInstanceAs (Decidable (_ ∧ _))

theorem isLower_iff : c.isLower = true ↔ 97 ≤ c.toNat ∧ c.toNat ≤ 122 := by
  simp [Char.isLower, UInt32.le_iff_toNat_le, ← Char.toNat_val]

theorem toUpper_of_not_isLower (h : c.isLower = false) : c.toUpper = c := by
  have hcond : ¬ ('a'.val ≤ c.val ∧ c.val ≤ 'z'.val) := by
    simpa [Char.isLower] using h
  rw [Char.toUpper, dif_neg hcond]

theorem toNat_toUpper (h : c.isLower = true) : c.toUpper.toNat = c.toNat - 32 := by
  have hcond : 'a'.val ≤ c.val ∧ c.val ≤ 'z'.val := by
    simpa [Char.isLower] using h
  obtain ⟨h1, h2⟩ := isLower_iff.mp h
  rw [← Char.toNat_val] at h1 h2
  rw [Char.toUpper, dif_pos hcond, ← Char.toNat_val, ← Char.toNat_val]
  have hadd : (c.val + ('A'.val - 'a'.val)).toNat = (c.val.toNat + 4294967264) % 4294967296 := UInt32.toNat_add _ _
  change (c.val + ('A'.val - 'a'.val)).toNat = c.val.toNat - 32
  omega

theorem foldedChar_of_settled (h : Settled c) : foldedChar c = [c] := by
  obtain ⟨hlower, hpoint⟩ := h
  rw [foldedChar.eq_def]
  simp only [foldedPoints, List.mem_cons, List.not_mem_nil, or_false, not_or] at hpoint
  split <;> first | omega | rw [toUpper_of_not_isLower hlower]

theorem settled_toUpper (h : c.toNat ∉ foldedPoints) : Settled c.toUpper := by
  cases hlower : c.isLower with
  | false => rwa [toUpper_of_not_isLower hlower, Settled, and_iff_right hlower]
  | true =>
    obtain ⟨h1, h2⟩ := isLower_iff.mp hlower
    have hnat := toNat_toUpper hlower
    refine ⟨?_, ?_⟩
    · rw [Bool.eq_false_iff, Ne, isLower_iff]
      omega
    · simp only [foldedPoints, List.mem_cons, List.not_mem_nil, or_false]
      omega

/-- A character is folded to its own upper case, or to letters of ASCII. -/
theorem foldedChar_cases (c : Char) : (foldedChar c = [c.toUpper] ∧ c.toNat ∉ foldedPoints) ∨
    (∃ e es, foldedChar c = e :: es ∧ ∀ d ∈ e :: es, d.isUpper = true) := by
  rw [foldedChar.eq_def]
  split
  case h_11 h1 h2 h3 h4 h5 h6 h7 h8 h9 h10 =>
    refine .inl ⟨rfl, ?_⟩
    simp only [foldedPoints, List.mem_cons, List.not_mem_nil, or_false, not_or]
    exact ⟨h1, h2, h3, h4, h5, h6, h7, h8, h9, h10⟩
  all_goals exact .inr ⟨_, _, rfl, List.all_eq_true.mp (by decide)⟩

private theorem settled_of_isUpper (h : d.isUpper = true) : Settled d := by
  have hbounds : 65 ≤ d.toNat ∧ d.toNat ≤ 90 := by
    simpa [Char.isUpper, UInt32.le_iff_toNat_le, ← Char.toNat_val] using h
  refine ⟨?_, ?_⟩
  · rw [Bool.eq_false_iff, Ne, isLower_iff]
    omega
  · simp only [foldedPoints, List.mem_cons, List.not_mem_nil, or_false]
    omega

/-- Upper case is made of characters that it leaves as they are. -/
theorem settled_of_mem_foldedChar (h : d ∈ foldedChar c) : Settled d := by
  rcases foldedChar_cases c with ⟨heq, hpoint⟩ | ⟨e, es, heq, hupper⟩
  · rw [heq, List.mem_singleton] at h
    exact h ▸ settled_toUpper hpoint
  · rw [heq] at h
    exact settled_of_isUpper (hupper d h)

/-- Upper case makes no white space. -/
theorem isSpace_of_mem_foldedChar (hc : isSpace c = false) (h : d ∈ foldedChar c) : isSpace d = false := by
  have hletter {d : Char} (h1 : 65 ≤ d.toNat) (h2 : d.toNat ≤ 90) : isSpace d = false := by
    simp only [isSpace, List.mem_cons, List.not_mem_nil, or_false, decide_eq_false_iff_not]
    omega
  rcases foldedChar_cases c with ⟨heq, hpoint⟩ | ⟨e, es, heq, hupper⟩
  · rw [heq, List.mem_singleton] at h
    rw [h]
    cases hlower : c.isLower with
    | false => rwa [toUpper_of_not_isLower hlower]
    | true =>
      obtain ⟨h1, h2⟩ := isLower_iff.mp hlower
      have hnat := toNat_toUpper hlower
      exact hletter (by omega) (by omega)
  · rw [heq] at h
    have hbounds : 65 ≤ d.toNat ∧ d.toNat ≤ 90 := by
      simpa [Char.isUpper, UInt32.le_iff_toNat_le, ← Char.toNat_val] using hupper d h
    exact hletter hbounds.1 hbounds.2

theorem foldedChar_ne_nil (c : Char) : foldedChar c ≠ [] := by
  rcases foldedChar_cases c with ⟨heq, -⟩ | ⟨e, es, heq, -⟩ <;> rw [heq] <;> exact List.cons_ne_nil _ _

end Characters

section Texts

def Trimmed (cs : List Char) : Prop :=
  (∀ c ∈ cs.head?, isSpace c = false) ∧ ∀ c ∈ cs.getLast?, isSpace c = false

theorem dropWhile_eq_self {p : Char → Bool} {cs : List Char} (h : ∀ c ∈ cs.head?, p c = false) : cs.dropWhile p = cs := by
  cases cs with
  | nil => rfl
  | cons c cs => rw [List.dropWhile_cons_of_neg (by simp [h c rfl])]

theorem strip_of_trimmed {cs : List Char} (h : Trimmed cs) : strip cs = cs := by
  rw [strip, dropWhile_eq_self h.1, dropWhile_eq_self (by rw [List.head?_reverse]; exact h.2), List.reverse_reverse]

theorem head?_dropWhile {p : Char → Bool} (cs : List Char) : ∀ c ∈ (cs.dropWhile p).head?, p c = false := by
  intro c hc
  induction cs with
  | nil => cases hc
  | cons a cs ih =>
    rw [List.dropWhile_cons] at hc
    split_ifs at hc with ha
    · exact ih hc
    · rw [← Option.some.inj hc]
      exact Bool.eq_false_iff.mpr ha

theorem trimmed_strip (cs : List Char) : Trimmed (strip cs) := by
  constructor
  · intro c hc
    rw [strip, List.head?_reverse] at hc
    obtain ⟨pre, hpre⟩ := List.getLast?_eq_some_iff.mp hc
    obtain ⟨dropped, hdropped⟩ : ∃ dropped, (cs.dropWhile isSpace).reverse = dropped ++ (pre ++ [c]) := by
      have hsuffix := List.dropWhile_suffix isSpace (l := (cs.dropWhile isSpace).reverse)
      rw [hpre] at hsuffix
      obtain ⟨dropped, hd⟩ := hsuffix
      exact ⟨dropped, hd.symm⟩
    have hhead : (cs.dropWhile isSpace).head? = some c := by
      rw [← List.reverse_reverse (cs.dropWhile isSpace), hdropped]
      simp
    exact head?_dropWhile cs c hhead
  · intro c hc
    rw [strip, List.getLast?_reverse] at hc
    exact head?_dropWhile _ c hc

theorem trimmed_flatMap {cs : List Char} (h : Trimmed cs) : Trimmed (cs.flatMap foldedChar) := by
  constructor
  · intro d hd
    cases cs with
    | nil => cases hd
    | cons c cs =>
      rw [List.flatMap_cons, List.head?_append_of_ne_nil _ (foldedChar_ne_nil c)] at hd
      exact isSpace_of_mem_foldedChar (h.1 c rfl) (List.mem_of_head? hd)
  · intro d hd
    rcases List.eq_nil_or_concat cs with rfl | ⟨pre, c, rfl⟩
    · cases hd
    · rw [List.concat_eq_append, List.flatMap_append, List.flatMap_singleton,
        List.getLast?_append_of_ne_nil _ (foldedChar_ne_nil c)] at hd
      exact isSpace_of_mem_foldedChar (h.2 c (by simp)) (List.mem_of_getLast? hd)

theorem flatMap_foldedChar_of_settled {cs : List Char} (h : ∀ c ∈ cs, Settled c) : cs.flatMap foldedChar = cs := by
  induction cs with
  | nil => rfl
  | cons c cs ih =>
    rw [List.flatMap_cons, foldedChar_of_settled (h c List.mem_cons_self), ih fun d hd => h d (List.mem_cons_of_mem c hd)]
    rfl

theorem settled_of_mem_upper {s : String} {d : Char} (h : d ∈ (upper s).toList) : Settled d := by
  rw [upper, String.toList_ofList] at h
  obtain ⟨c, -, hd⟩ := List.mem_flatMap.mp h
  exact settled_of_mem_foldedChar hd

def clean (s : String) : String := upper (String.ofList (strip s.toList))

theorem trimmed_clean (s : String) : Trimmed (clean s).toList := by
  rw [clean, upper, String.toList_ofList, String.toList_ofList]
  exact trimmed_flatMap (trimmed_strip s.toList)

theorem clean_of_settled {s : String} (ht : Trimmed s.toList) (hs : ∀ c ∈ s.toList, Settled c) : clean s = s := by
  rw [clean, strip_of_trimmed ht, String.ofList_toList, upper, flatMap_foldedChar_of_settled hs, String.ofList_toList]

@[simp] theorem clean_clean (s : String) : clean (clean s) = clean s :=
  clean_of_settled (trimmed_clean s) fun _ hc => settled_of_mem_upper hc

end Texts
end NTrade.Lib.Literal
