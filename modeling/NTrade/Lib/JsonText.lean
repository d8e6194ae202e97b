import NTrade.Lib.Json

/-! Reading back what was written: `loads` inverts `dumps`, up to the members of an object that
share a key. -/
namespace NTrade.Lib.Json

section Normal

mutual
/-- The value read back from the text of `j`. -/
def normalize : Json → Json
  | .arr xs => .arr (normalizeItems xs)
  | .obj ms => object (normalizeMembers ms)
  | j => j
def normalizeItems : List Json → List Json
  | [] => []
  | x :: xs => normalize x :: normalizeItems xs
def normalizeMembers : List (String × Json) → List (String × Json)
  | [] => []
  | (k, x) :: ms => (k, normalize x) :: normalizeMembers ms
end

@[simp] theorem normalize_str (s : String) : normalize (.str s) = .str s := rfl

theorem normalizeMembers_eq_map (ms : List (String × Json)) :
    normalizeMembers ms = ms.map fun m => (m.1, normalize m.2) := by
  induction ms with
  | nil => rfl
  | cons m ms ih => rw [normalizeMembers, ih, List.map_cons]

private theorem entries_foldl_set (d : Dict String Json) (ms : List (String × Json))
    (h : (d.entries.map Prod.fst ++ ms.map Prod.fst).Nodup) :
    (ms.foldl (fun d m => d.set m.1 m.2) d).entries = d.entries ++ ms := by
  induction ms generalizing d with
  | nil => exact (List.append_nil _).symm
  | cons m ms ih =>
    have hm : m.1 ∉ d.keys := by
      intro hk
      rw [List.map_cons, List.nodup_append] at h
      exact h.2.2 _ hk _ (List.mem_cons_self ..) rfl
    have hs := Dict.entries_set_of_not_mem hm m.2
    rw [List.foldl_cons, ih, hs, List.append_assoc]
    · rfl
    · rw [hs, List.map_append, List.append_assoc]
      exact h

/-- Members with distinct keys stay as they are. -/
theorem object_of_nodup {ms : List (String × Json)} (h : (ms.map Prod.fst).Nodup) : object ms = .obj ms := by
  rw [object, entries_foldl_set Dict.empty ms h]
  rfl

end Normal

section Digits

@[simp] theorem digitVal_digit (d : Fin 10) : digitVal (digit d) = some d := by
  revert d
  decide

/-- The text after a number does not go on with it. -/
def Stops (rest : List Char) : Prop := ∀ c ∈ rest.head?, digitVal c = none ∧ c ≠ '.' ∧ c ≠ 'e' ∧ c ≠ 'E'

theorem stops_nil : Stops [] := by
  intro c hc
  cases hc

theorem stops_cons {c : Char} (h : digitVal c = none ∧ c ≠ '.' ∧ c ≠ 'e' ∧ c ≠ 'E') (rest : List Char) :
    Stops (c :: rest) := by
  intro b hb
  obtain rfl := Option.some.inj hb
  exact h

theorem scanDigits_append (ds : List (Fin 10)) {rest : List Char} (h : ∀ c ∈ rest.head?, digitVal c = none) :
    scanDigits (ds.map digit ++ rest) = (ds, rest) := by
  induction ds with
  | nil =>
    cases rest with
    | nil => rfl
    | cons c cs => simp [scanDigits, h c rfl]
  | cons d ds ih => simp [scanDigits, ih]

private theorem digitChar_mod (n : Nat) : Nat.digitChar (n % 10) = digit (Fin.ofNat 10 n) := rfl

/-- A numeral has no zero in front but the zero itself. -/
theorem toDigits_eq_map_digit (n : Nat) :
    ∃ d ds, Nat.toDigits 10 n = (d :: ds : List (Fin 10)).map digit ∧
      ofDigits (d :: ds) = n ∧ (d = 0 → ds = []) := by
  induction n using Nat.strongRecOn with
  | ind n ih =>
    rcases Nat.lt_or_ge n 10 with h | h
    · refine ⟨Fin.ofNat 10 n, [], ?_, ?_, fun _ => rfl⟩
      · rw [Nat.toDigits_of_lt_base h, List.map_cons, ← digitChar_mod, Nat.mod_eq_of_lt h]
        rfl
      · simp [ofDigits, Nat.mod_eq_of_lt h]
    · obtain ⟨d, ds, ht, hv, hz⟩ := ih (n / 10) (by omega)
      refine ⟨d, ds ++ [Fin.ofNat 10 n], ?_, ?_, ?_⟩
      · rw [Nat.toDigits_of_base_le (by decide) h, ht, digitChar_mod]
        simp
      · rw [← List.cons_append, ofDigits, List.foldl_concat]
        change 10 * ofDigits (d :: ds) + n % 10 = n
        omega
      · intro hd
        exfalso
        have hn : n / 10 = 0 := by
          rw [← hv, hd, hz hd]
          rfl
        omega

private theorem scanWhole_toDigits (n : Nat) {rest : List Char} (h : ∀ c ∈ rest.head?, digitVal c = none) :
    scanWhole (Nat.toDigits 10 n ++ rest) = some (n, rest) := by
  obtain ⟨d, ds, ht, hv, hz⟩ := toDigits_eq_map_digit n
  rw [ht, scanWhole, scanDigits_append _ h]
  dsimp only
  split
  · next hd =>
    obtain rfl := hz hd
    subst hd
    rw [← hv]
    rfl
  · rw [hv]

end Digits

section Numbers

private def fractionText (ds : List (Fin 10)) : List Char :=
  match ds with
  | [] => []
  | d :: ds => '.' :: (d :: ds).map digit

private def exponentText (e : Option (Bool × Fin 10 × List (Fin 10))) : List Char :=
  match e with
  | none => []
  | some (negative, d, ds) => 'e' :: (if negative then '-' else '+') :: (d :: ds).map digit

private theorem numberText_eq (n : Number) :
    numberText n = (if n.negative then ['-'] else []) ++
      (Nat.toDigits 10 n.whole ++ (fractionText n.fraction ++ exponentText n.exponent)) := rfl

/-- A number is written in digits and four signs. -/
theorem forall_numberText {P : Char → Prop} (hdigit : ∀ d, P (digit d)) (hminus : P '-') (hplus : P '+') (hpoint : P '.')
    (he : P 'e') (n : Number) : ∀ c ∈ numberText n, P c := by
  have hdigits (ds : List (Fin 10)) : ∀ c ∈ ds.map digit, P c := by
    intro c hc
    obtain ⟨d, -, rfl⟩ := List.mem_map.mp hc
    exact hdigit d
  have hfraction : ∀ c ∈ fractionText n.fraction, P c := by
    cases n.fraction with
    | nil => exact fun _ h => absurd h List.not_mem_nil
    | cons d ds => exact List.forall_mem_cons.mpr ⟨hpoint, hdigits (d :: ds)⟩
  have hexponent : ∀ c ∈ exponentText n.exponent, P c := by
    rcases n.exponent with _ | ⟨negative, d, ds⟩
    · exact fun _ h => absurd h List.not_mem_nil
    · refine List.forall_mem_cons.mpr ⟨he, List.forall_mem_cons.mpr ⟨?_, hdigits (d :: ds)⟩⟩
      cases negative
      · exact hplus
      · exact hminus
  have hsign : ∀ c ∈ (if n.negative then ['-'] else []), P c := by
    split
    · exact List.forall_mem_singleton.mpr hminus
    · exact fun _ h => absurd h List.not_mem_nil
  obtain ⟨d, ds, ht, -, -⟩ := toDigits_eq_map_digit n.whole
  rw [numberText_eq, ht]
  exact List.forall_mem_append.mpr ⟨hsign, List.forall_mem_append.mpr ⟨hdigits _,
    List.forall_mem_append.mpr ⟨hfraction, hexponent⟩⟩⟩

private theorem head_exponentText (e : Option (Bool × Fin 10 × List (Fin 10))) {rest : List Char} (h : Stops rest) :
    ∀ c ∈ (exponentText e ++ rest).head?, digitVal c = none ∧ c ≠ '.' := by
  intro c hc
  cases e with
  | none => exact ⟨(h c hc).1, (h c hc).2.1⟩
  | some e =>
    obtain rfl := Option.some.inj hc
    decide

private theorem scanExponent_text (e : Option (Bool × Fin 10 × List (Fin 10))) {rest : List Char} (h : Stops rest) :
    scanExponent (exponentText e ++ rest) = (e, rest) := by
  rcases e with _ | ⟨negative, d, ds⟩
  · cases rest with
    | nil => rfl
    | cons c cs =>
      have hc := h c rfl
      simp [exponentText, scanExponent, hc.2.2.1, hc.2.2.2]
  · have hd := scanDigits_append (d :: ds) fun c hc => (h c hc).1
    cases negative <;> simp only [exponentText, List.cons_append, scanExponent, scanSign, true_or, if_true, hd,
      Bool.false_eq_true, if_false]

private theorem scanFraction_text (ds : List (Fin 10)) (e : Option (Bool × Fin 10 × List (Fin 10))) {rest : List Char}
    (h : Stops rest) :
    scanFraction (fractionText ds ++ (exponentText e ++ rest)) = (ds, exponentText e ++ rest) := by
  have hhead := head_exponentText e h
  cases ds with
  | nil =>
    rw [fractionText, List.nil_append, scanFraction]
    intro cs hcs
    rw [hcs] at hhead
    exact (hhead '.' rfl).2 rfl
  | cons d ds =>
    rw [fractionText, List.cons_append, scanFraction, scanDigits_append (d :: ds) fun c hc => (hhead c hc).1]

private theorem head_fractionText (ds : List (Fin 10)) (e : Option (Bool × Fin 10 × List (Fin 10))) {rest : List Char}
    (h : Stops rest) : ∀ c ∈ (fractionText ds ++ (exponentText e ++ rest)).head?, digitVal c = none := by
  intro c hc
  cases ds with
  | nil => exact (head_exponentText e h c hc).1
  | cons d ds =>
    obtain rfl := Option.some.inj hc
    decide

private theorem digit_ne_minus (d : Fin 10) : digit d ≠ '-' := by
  revert d
  decide

theorem scanNumber_text (n : Number) {rest : List Char} (h : Stops rest) :
    scanNumber (numberText n ++ rest) = some (n, rest) := by
  have hw := scanWhole_toDigits n.whole (head_fractionText n.fraction n.exponent h)
  have hf := scanFraction_text n.fraction n.exponent h
  have he := scanExponent_text n.exponent h
  have hu (negative : Bool) : scanUnsigned negative (Nat.toDigits 10 n.whole ++
      (fractionText n.fraction ++ (exponentText n.exponent ++ rest))) = some ({ n with negative }, rest) := by
    simp only [scanUnsigned, hw, hf, he]
  obtain ⟨negative, whole, fraction, exponent⟩ := n
  rw [numberText_eq]
  cases negative with
  | true =>
    simp only [if_true, List.append_assoc, List.cons_append, List.nil_append, scanNumber]
    exact hu true
  | false =>
    simp only [Bool.false_eq_true, if_false, List.append_assoc, List.nil_append]
    rw [scanNumber]
    · exact hu false
    · obtain ⟨d, ds, ht, -, -⟩ := toDigits_eq_map_digit whole
      rw [ht]
      intro cs heq
      exact digit_ne_minus d (List.cons.inj heq).1

end Numbers

section Strings

private theorem hexVal_digitChar : ∀ n < 16, hexVal (Nat.digitChar n) = some n := by decide

private theorem scanHex_digits {n : Nat} (h : n < 0x10000) (rest : List Char) :
    scanHex (Nat.digitChar (n / 4096 % 16) :: Nat.digitChar (n / 256 % 16) :: Nat.digitChar (n / 16 % 16) ::
      Nat.digitChar (n % 16) :: rest) = some (n, rest) := by
  have hd (k : Nat) : hexVal (Nat.digitChar (k % 16)) = some (k % 16) := hexVal_digitChar _ (Nat.mod_lt _ (by decide))
  simp only [scanHex, hd, Option.some.injEq, Prod.mk.injEq, and_true]
  omega

private theorem scanEscape_u (cs : List Char) : scanEscape ('u' :: cs) = scanUnicode cs := rfl

/-- An escape outside the surrogates stands for its character. -/
private theorem scanEscape_basic {c : Char} (h : c.toNat < 0x10000) (rest : List Char) :
    scanEscape ((unicodeEscape c.toNat ++ rest).tail) = some (c, rest) := by
  have hv : ¬(0xD800 ≤ c.toNat ∧ c.toNat < 0xDC00) := by
    have hc : c.toNat < 0xD800 ∨ 0xDFFF < c.toNat ∧ c.toNat < 0x110000 := c.valid
    omega
  simp only [unicodeEscape, List.cons_append, List.nil_append, List.tail_cons, scanEscape_u, scanUnicode,
    scanHex_digits h, if_neg hv, Char.ofNat_toNat]

private theorem scanEscape_surrogates {hi lo : Nat} (hhi : 0xD800 ≤ hi ∧ hi < 0xDC00) (hlo : 0xDC00 ≤ lo ∧ lo < 0xE000)
    (rest : List Char) :
    scanEscape ((unicodeEscape hi ++ unicodeEscape lo ++ rest).tail) =
      some (Char.ofNat (0x10000 + (hi - 0xD800) * 0x400 + (lo - 0xDC00)), rest) := by
  have h1 : hi < 0x10000 := by omega
  have h2 : lo < 0x10000 := by omega
  simp only [unicodeEscape, List.cons_append, List.nil_append, List.tail_cons, scanEscape_u, scanUnicode,
    scanHex_digits h1, scanHex_digits h2, if_pos hhi, if_pos hlo]

/-- Beyond the basic plane the two surrogates are read as one character. -/
private theorem scanEscape_pair {c : Char} (h : 0x10000 ≤ c.toNat) (rest : List Char) :
    scanEscape ((unicodeEscape (0xD800 + (c.toNat - 0x10000) / 0x400) ++
      unicodeEscape (0xDC00 + (c.toNat - 0x10000) % 0x400) ++ rest).tail) = some (c, rest) := by
  have hc : c.toNat < 0xD800 ∨ 0xDFFF < c.toNat ∧ c.toNat < 0x110000 := c.valid
  have hn : 0x10000 + (0xD800 + (c.toNat - 0x10000) / 0x400 - 0xD800) * 0x400 +
      (0xDC00 + (c.toNat - 0x10000) % 0x400 - 0xDC00) = c.toNat := by omega
  rw [scanEscape_surrogates (by omega) (by omega), hn, Char.ofNat_toNat]

private theorem shortEscapes_back : ∀ p ∈ shortEscapes,
    p.2 ≠ 'u' ∧ p.2 ≠ '/' ∧ (shortEscapes.map Prod.swap).lookup p.2 = some p.1 := by decide

private theorem scanEscape_short {c e : Char} (h : shortEscapes.lookup c = some e) (rest : List Char) :
    scanEscape (e :: rest) = some (c, rest) := by
  obtain ⟨before, after, hs, -⟩ := List.lookup_eq_some_iff.mp h
  obtain ⟨hu, hd, hl⟩ := shortEscapes_back (c, e) (by rw [hs]; simp)
  rw [scanEscape, if_neg hu, if_neg hd, hl]
  rfl

private theorem scanString_backslash (fuel : Nat) {cs rest : List Char} {c : Char} (h : scanEscape cs = some (c, rest)) :
    scanString (fuel + 1) ('\\' :: cs) = (scanString fuel rest).map fun r => (c :: r.1, r.2) := by
  rw [scanString, if_neg (by decide), if_pos rfl, h]

/-- Every escape is read back as the character it is of. -/
theorem scanString_escape (fuel : Nat) (c : Char) (cs : List Char) :
    scanString (fuel + 1) (escape c ++ cs) = (scanString fuel cs).map fun r => (c :: r.1, r.2) := by
  rw [escape]
  split
  · next e he => exact scanString_backslash fuel (scanEscape_short he cs)
  · next hn =>
    split
    · next hp =>
      have hq : c ≠ '"' := by
        rintro rfl
        cases hn
      have hb : c ≠ '\\' := by
        rintro rfl
        cases hn
      rw [List.singleton_append, scanString, if_neg hq, if_neg hb, if_neg (by omega)]
    · split
      · next h => exact scanString_backslash fuel (scanEscape_basic h cs)
      · next h => exact scanString_backslash fuel (scanEscape_pair (by omega) cs)

theorem scanString_escapes (s : List Char) {fuel : Nat} (h : s.length < fuel) (rest : List Char) :
    scanString fuel (s.flatMap escape ++ '"' :: rest) = some (s, rest) := by
  induction s generalizing fuel with
  | nil =>
    obtain ⟨fuel, rfl⟩ := Nat.exists_eq_succ_of_ne_zero (Nat.ne_of_gt h)
    rfl
  | cons c s ih =>
    obtain ⟨fuel, rfl⟩ := Nat.exists_eq_succ_of_ne_zero (Nat.ne_of_gt (Nat.zero_lt_of_lt h))
    rw [List.flatMap_cons, List.append_assoc, Nat.succ_eq_add_one, scanString_escape,
      ih (Nat.lt_of_succ_lt_succ h)]
    rfl

theorem length_escape_pos (c : Char) : 0 < (escape c).length := by
  rw [escape]
  split
  · exact Nat.zero_lt_succ _
  · split
    · exact Nat.zero_lt_succ _
    · split
      · exact Nat.zero_lt_succ _
      · exact Nat.zero_lt_succ _

theorem length_quoted (s : String) : s.toList.length + 2 ≤ (quoted s).length := by
  have h (cs : List Char) : cs.length ≤ (cs.flatMap escape).length := by
    induction cs with
    | nil => exact Nat.le_refl _
    | cons c cs ih =>
      rw [List.flatMap_cons, List.length_append, List.length_cons]
      have hc := length_escape_pos c
      omega
  have hs := h s.toList
  simp only [quoted, List.length_cons, List.length_append, List.length_nil]
  omega

theorem scanString_quoted (s : String) {fuel : Nat} (h : (quoted s).length ≤ fuel) (rest : List Char) :
    scanString fuel ((quoted s).tail ++ rest) = some (s.toList, rest) := by
  have hs := length_quoted s
  rw [quoted, List.tail_cons, List.append_assoc, List.singleton_append]
  exact scanString_escapes s.toList (by omega) rest

end Strings

section Values

def Leads (c : Char) : Prop := ¬(c = ' ' ∨ c = '\t' ∨ c = '\n' ∨ c = '\r') ∧ c ≠ ']' ∧ c ≠ '}'

theorem leads_digit (d : Fin 10) : Leads (digit d) := by
  revert d
  unfold Leads
  decide

theorem skipWs_cons {c : Char} (h : ¬(c = ' ' ∨ c = '\t' ∨ c = '\n' ∨ c = '\r')) (cs : List Char) :
    skipWs (c :: cs) = c :: cs :=
  List.dropWhile_cons_of_neg (by simpa using h)

theorem numberText_leads (n : Number) : ∃ c cs, numberText n = c :: cs ∧ Leads c := by
  obtain ⟨negative, whole, fraction, exponent⟩ := n
  cases negative with
  | true => exact ⟨'-', _, rfl, by unfold Leads; decide⟩
  | false =>
    obtain ⟨d, ds, ht, -, -⟩ := toDigits_eq_map_digit whole
    rw [numberText_eq, ht]
    exact ⟨digit d, _, rfl, leads_digit d⟩

theorem text_leads (j : Json) : ∃ c cs, text j = c :: cs ∧ Leads c := by
  have hl {c : Char} (h : Leads c) (cs : List Char) : ∃ c' cs', c :: cs = c' :: cs' ∧ Leads c' := ⟨c, cs, rfl, h⟩
  match j with
  | .num n => exact numberText_leads n
  | .null | .bool true | .bool false | .nan | .infinite true | .infinite false | .str _ | .arr [] | .arr (_ :: _)
  | .obj [] | .obj ((_, _) :: _) => exact hl (by unfold Leads; decide) _

private theorem parseValue_digit (fuel : Nat) (d : Fin 10) (cs : List Char) :
    parseValue (fuel + 1) (digit d :: cs) = (scanNumber (digit d :: cs)).map fun r => (.num r.1, r.2) := by
  match d with
  | 0 | 1 | 2 | 3 | 4 | 5 | 6 | 7 | 8 | 9 => rfl

private theorem parseValue_minus (fuel : Nat) (d : Fin 10) (cs : List Char) :
    parseValue (fuel + 1) ('-' :: digit d :: cs) = (scanNumber ('-' :: digit d :: cs)).map fun r => (.num r.1, r.2) := by
  match d with
  | 0 | 1 | 2 | 3 | 4 | 5 | 6 | 7 | 8 | 9 => rfl

private theorem parseValue_number (fuel : Nat) (n : Number) {rest : List Char} (h : Stops rest) :
    parseValue (fuel + 1) (numberText n ++ rest) = some (.num n, rest) := by
  have hs := scanNumber_text n h
  obtain ⟨negative, whole, fraction, exponent⟩ := n
  obtain ⟨d, ds, ht, -, -⟩ := toDigits_eq_map_digit whole
  rw [numberText_eq, ht] at hs ⊢
  cases negative with
  | true =>
    have hp := parseValue_minus fuel d
      (ds.map digit ++ (fractionText fraction ++ exponentText exponent) ++ rest)
    simp only [if_true, List.map_cons, List.cons_append, List.nil_append] at hs hp ⊢
    rw [hp, hs]
    rfl
  | false =>
    have hp := parseValue_digit fuel d
      (ds.map digit ++ (fractionText fraction ++ exponentText exponent) ++ rest)
    simp only [Bool.false_eq_true, if_false, List.map_cons, List.cons_append, List.nil_append] at hs hp ⊢
    rw [hp, hs]
    rfl

private theorem parseValue_string (fuel : Nat) (s : String) (h : (quoted s).length ≤ fuel) (rest : List Char) :
    parseValue (fuel + 1) (quoted s ++ rest) = some (.str s, rest) := by
  have hs := scanString_quoted s h rest
  have hp : parseValue (fuel + 1) (quoted s ++ rest) =
      (scanString fuel ((quoted s).tail ++ rest)).map fun r => (.str (String.ofList r.1), r.2) := rfl
  rw [hp, hs, Option.map_some, String.ofList_toList]

private theorem parseValue_bracket (fuel : Nat) (cs : List Char) :
    parseValue (fuel + 1) ('[' :: cs) =
      match skipWs cs with
      | ']' :: rest => some (.arr [], rest)
      | cs => (parseItems fuel cs).map fun r => (.arr r.1, r.2) := rfl

private theorem parseValue_items (fuel : Nat) {c : Char} (h : Leads c) (cs : List Char) :
    parseValue (fuel + 1) ('[' :: c :: cs) = (parseItems fuel (c :: cs)).map fun r => (.arr r.1, r.2) := by
  rw [parseValue_bracket, skipWs_cons h.1]
  split
  · next rest heq => exact absurd (List.cons.inj heq).1 h.2.1
  · rfl

theorem parseItems_cons (fuel : Nat) (cs : List Char) :
    parseItems (fuel + 1) cs =
      match parseValue fuel cs with
      | none => none
      | some (x, rest) =>
        match skipWs rest with
        | ']' :: rest => some ([x], rest)
        | ',' :: rest => (parseItems fuel (skipWs rest)).map fun r => (x :: r.1, r.2)
        | _ => none := rfl

private theorem parseMembers_quote (fuel : Nat) (k : String) (cs : List Char) :
    parseMembers (fuel + 1) (quoted k ++ cs) =
      match scanString fuel ((quoted k).tail ++ cs) with
      | none => none
      | some (k, rest) =>
        match skipWs rest with
        | ':' :: rest =>
          match parseValue fuel (skipWs rest) with
          | none => none
          | some (x, rest) =>
            match skipWs rest with
            | '}' :: rest => some ([(String.ofList k, x)], rest)
            | ',' :: rest =>
              (parseMembers fuel (skipWs rest)).map fun r => ((String.ofList k, x) :: r.1, r.2)
            | _ => none
        | _ => none := rfl

private theorem parseMembers_quoted (fuel : Nat) {k : String} {x : Json} {cs rest : List Char}
    (hk : (quoted k).length ≤ fuel) (hc : skipWs cs = cs) (hx : parseValue fuel cs = some (x, rest)) :
    parseMembers (fuel + 1) (quoted k ++ ':' :: ' ' :: cs) =
      match skipWs rest with
      | '}' :: rest => some ([(k, x)], rest)
      | ',' :: rest => (parseMembers fuel (skipWs rest)).map fun r => ((k, x) :: r.1, r.2)
      | _ => none := by
  have hs := scanString_quoted k hk (':' :: ' ' :: cs)
  have hw : skipWs (' ' :: cs) = skipWs cs := rfl
  rw [parseMembers_quote, hs]
  simp only [skipWs_cons (c := ':') (by decide), hw, hc, hx, String.ofList_toList]

private theorem stops_itemsText (xs : List Json) (rest : List Char) : Stops (itemsText xs ++ rest) := by
  cases xs <;> exact stops_cons (by decide) _

private theorem stops_membersText (ms : List (String × Json)) (rest : List Char) : Stops (membersText ms ++ rest) := by
  rcases ms with _ | ⟨⟨k, x⟩, ms⟩ <;> exact stops_cons (by decide) _

private theorem skipWs_text (j : Json) (cs : List Char) : skipWs (text j ++ cs) = text j ++ cs := by
  obtain ⟨c, t, ht, hc⟩ := text_leads j
  rw [ht]
  exact skipWs_cons hc.1 _

private theorem itemsText_length_pos (xs : List Json) : 0 < (itemsText xs).length := by
  cases xs <;> exact Nat.zero_lt_succ _

private theorem membersText_length_pos (ms : List (String × Json)) : 0 < (membersText ms).length := by
  rcases ms with _ | ⟨⟨k, x⟩, ms⟩ <;> exact Nat.zero_lt_succ _

private structure Reads (fuel : Nat) : Prop where
  value : ∀ j : Json, (text j).length < fuel → ∀ rest, Stops rest →
    parseValue fuel (text j ++ rest) = some (normalize j, rest)
  items : ∀ (x : Json) (xs : List Json), (text x).length + (itemsText xs).length < fuel → ∀ rest,
    parseItems fuel (text x ++ itemsText xs ++ rest) = some (normalize x :: normalizeItems xs, rest)
  members : ∀ (k : String) (x : Json) (ms : List (String × Json)),
    (quoted k).length + 2 + (text x).length + (membersText ms).length < fuel → ∀ rest,
    parseMembers fuel (quoted k ++ ':' :: ' ' :: (text x ++ membersText ms) ++ rest) =
      some ((k, normalize x) :: normalizeMembers ms, rest)

namespace Reads
variable {fuel : Nat}

private theorem value_succ (ih : Reads fuel) (j : Json) (h : (text j).length < fuel + 1) (rest : List Char)
    (hr : Stops rest) : parseValue (fuel + 1) (text j ++ rest) = some (normalize j, rest) := by
  match j with
  | .null | .bool true | .bool false | .nan | .infinite true | .infinite false | .arr [] | .obj [] => rfl
  | .num n => exact parseValue_number fuel n hr
  | .str s => exact parseValue_string fuel s (Nat.le_of_lt_succ h) rest
  | .arr (x :: xs) =>
    simp only [text, List.length_cons, List.length_append] at h
    have hx := ih.items x xs (by omega) rest
    obtain ⟨c, t, ht, hc⟩ := text_leads x
    simp only [text, List.cons_append, ht] at hx ⊢
    rw [parseValue_items fuel hc, hx]
    rfl
  | .obj ((k, x) :: ms) =>
    simp only [text, List.length_cons, List.length_append] at h
    have hm := ih.members k x ms (by omega) rest
    have hp : parseValue (fuel + 1) (text (.obj ((k, x) :: ms)) ++ rest) =
        (parseMembers fuel (quoted k ++ ':' :: ' ' :: (text x ++ membersText ms) ++ rest)).map fun r =>
          (object r.1, r.2) := rfl
    rw [hp, hm]
    rfl

private theorem items_succ (ih : Reads fuel) (x : Json) (xs : List Json)
    (h : (text x).length + (itemsText xs).length < fuel + 1) (rest : List Char) :
    parseItems (fuel + 1) (text x ++ itemsText xs ++ rest) = some (normalize x :: normalizeItems xs, rest) := by
  have hpos := itemsText_length_pos xs
  have hx := ih.value x (by omega) (itemsText xs ++ rest) (stops_itemsText xs rest)
  rw [parseItems_cons, List.append_assoc, hx]
  match xs with
  | [] => rfl
  | y :: ys =>
    simp only [itemsText, List.length_cons, List.length_append] at h
    have hy := ih.items y ys (by omega) rest
    have hw : skipWs (' ' :: (text y ++ itemsText ys ++ rest)) = text y ++ itemsText ys ++ rest := by
      rw [List.append_assoc]
      exact skipWs_text y _
    simp only [itemsText, List.cons_append, skipWs_cons (c := ',') (by decide), hw, hy]
    rfl

private theorem members_succ (ih : Reads fuel) (k : String) (x : Json) (ms : List (String × Json))
    (h : (quoted k).length + 2 + (text x).length + (membersText ms).length < fuel + 1) (rest : List Char) :
    parseMembers (fuel + 1) (quoted k ++ ':' :: ' ' :: (text x ++ membersText ms) ++ rest) =
      some ((k, normalize x) :: normalizeMembers ms, rest) := by
  have hpos := membersText_length_pos ms
  have hx := ih.value x (by omega) (membersText ms ++ rest) (stops_membersText ms rest)
  simp only [List.append_assoc, List.cons_append]
  rw [parseMembers_quoted fuel (by omega) (skipWs_text x _) hx]
  match ms with
  | [] => rfl
  | (l, y) :: ms =>
    simp only [membersText, List.length_cons, List.length_append] at h
    have hy := ih.members l y ms (by omega) rest
    have hw : skipWs (' ' :: (quoted l ++ ':' :: ' ' :: (text y ++ membersText ms) ++ rest)) =
        quoted l ++ ':' :: ' ' :: (text y ++ membersText ms) ++ rest := rfl
    simp only [List.append_assoc, List.cons_append] at hy hw
    simp only [membersText, List.append_assoc, List.cons_append, skipWs_cons (c := ',') (by decide), hw, hy]
    rfl

end Reads

private theorem reads (fuel : Nat) : Reads fuel := by
  induction fuel with
  | zero => exact ⟨fun _ h => absurd h (Nat.not_lt_zero _), fun _ _ h => absurd h (Nat.not_lt_zero _),
      fun _ _ _ h => absurd h (Nat.not_lt_zero _)⟩
  | succ fuel ih => exact ⟨ih.value_succ, ih.items_succ, ih.members_succ⟩

/-- The text of a value is read as that value, whatever follows it. -/
theorem parseValue_text (j : Json) {fuel : Nat} (h : (text j).length < fuel) {rest : List Char} (hr : Stops rest) :
    parseValue fuel (text j ++ rest) = some (normalize j, rest) :=
  (reads fuel).value j h rest hr

/-- What is written is read back. -/
theorem loads_dumps (j : Json) : loads (dumps j) = some (normalize j) := by
  have ht := parseValue_text j (Nat.lt_succ_self _) stops_nil
  have hw := skipWs_text j []
  simp only [List.append_nil] at ht hw
  rw [loads, dumps, String.toList_ofList, parse, hw, ht]
  rfl

end Values

section Printable

/-- A fixed text has what each of its characters has. -/
theorem forall_literal {P : Char → Prop} [DecidablePred P] {t : List Char} (h : t.all (fun c => decide (P c)) = true) :
    ∀ c ∈ t, P c :=
  fun c hc => of_decide_eq_true (List.all_eq_true.mp h c hc)

def Printable (c : Char) : Prop := 32 ≤ c.toNat ∧ c.toNat < 127

instance (c : Char) : Decidable (Printable c) := inferInstanceAs (Decidable (_ ∧ _))

private theorem printable_digitChar : ∀ n < 16, Printable (Nat.digitChar n) := by decide

private theorem printable_unicodeEscape (n : Nat) : ∀ c ∈ unicodeEscape n, Printable c := by
  have hd (k : Nat) : Printable (Nat.digitChar (k % 16)) := printable_digitChar _ (Nat.mod_lt _ (by decide))
  simp only [unicodeEscape, List.forall_mem_cons]
  exact ⟨by decide, by decide, hd _, hd _, hd _, hd _, fun _ h => absurd h List.not_mem_nil⟩

private theorem printable_shortEscapes : ∀ p ∈ shortEscapes, Printable p.2 := by decide

private theorem printable_escape (c : Char) : ∀ b ∈ escape c, Printable b := by
  rw [escape]
  split
  · next e he =>
    obtain ⟨before, after, hs, -⟩ := List.lookup_eq_some_iff.mp he
    have hp := printable_shortEscapes (c, e) (by rw [hs]; simp)
    exact List.forall_mem_cons.mpr ⟨by decide, List.forall_mem_singleton.mpr hp⟩
  · split
    · next hp => exact List.forall_mem_singleton.mpr hp
    · split
      · exact printable_unicodeEscape _
      · exact List.forall_mem_append.mpr ⟨printable_unicodeEscape _, printable_unicodeEscape _⟩

private theorem printable_quoted (s : String) : ∀ c ∈ quoted s, Printable c := by
  refine List.forall_mem_cons.mpr ⟨by decide, List.forall_mem_append.mpr ⟨?_, forall_literal (by decide)⟩⟩
  intro b hb
  obtain ⟨c, -, hc⟩ := List.mem_flatMap.mp hb
  exact printable_escape c b hc

private theorem printable_member {k : String} {t : List Char} (h : ∀ c ∈ t, Printable c) :
    ∀ c ∈ quoted k ++ ':' :: ' ' :: t, Printable c :=
  List.forall_mem_append.mpr ⟨printable_quoted k, List.forall_mem_cons.mpr ⟨by decide,
    List.forall_mem_cons.mpr ⟨by decide, h⟩⟩⟩

mutual
/-- A text fits on one line. -/
theorem printable_text : ∀ j : Json, ∀ c ∈ text j, Printable c
  | .null => forall_literal (by decide)
  | .bool true => forall_literal (by decide)
  | .bool false => forall_literal (by decide)
  | .nan => forall_literal (by decide)
  | .infinite true => forall_literal (by decide)
  | .infinite false => forall_literal (by decide)
  | .num n => forall_numberText (by decide) (by decide) (by decide) (by decide) (by decide) n
  | .str s => printable_quoted s
  | .arr [] => forall_literal (by decide)
  | .arr (x :: xs) => List.forall_mem_cons.mpr ⟨by decide,
    List.forall_mem_append.mpr ⟨printable_text x, printable_items xs⟩⟩
  | .obj [] => forall_literal (by decide)
  | .obj ((k, x) :: ms) => List.forall_mem_cons.mpr ⟨by decide,
    printable_member (List.forall_mem_append.mpr ⟨printable_text x, printable_members ms⟩)⟩
private theorem printable_items : ∀ xs : List Json, ∀ c ∈ itemsText xs, Printable c
  | [] => forall_literal (by decide)
  | x :: xs => List.forall_mem_cons.mpr ⟨by decide, List.forall_mem_cons.mpr ⟨by decide,
    List.forall_mem_append.mpr ⟨printable_text x, printable_items xs⟩⟩⟩
private theorem printable_members : ∀ ms : List (String × Json), ∀ c ∈ membersText ms, Printable c
  | [] => forall_literal (by decide)
  | (k, x) :: ms => List.forall_mem_cons.mpr ⟨by decide, List.forall_mem_cons.mpr ⟨by decide,
    printable_member (List.forall_mem_append.mpr ⟨printable_text x, printable_members ms⟩)⟩⟩
end

end Printable

end NTrade.Lib.Json
