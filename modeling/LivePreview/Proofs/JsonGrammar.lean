/-
  LivePreview.Proofs.JsonGrammar

  The values that JSON allows, and how they are skipped.

  Of a value that nobody asked for only the grammar counts (`Json.PartText`).  Such a value is
  skipped to its end, whatever stands behind it, as long as a number does not go on there
  (`Json.PartText.skipValue`).
-/

import LivePreview.Proofs.JsonStrings

namespace LivePreview.Json

/-! ## Strings are skipped -/

/-- What may stand between the quotes of a string that nobody asked for: the codes need not be
    those of characters. -/
inductive InnerText : List Char → Prop
  | nil : InnerText []
  | plain {c : Char} {tail : List Char} (h : IsPlainChar c) (htail : InnerText tail) :
      InnerText (c :: tail)
  | short {c letter : Char} {tail : List Char} (h : (letter, c) ∈ shortEscapes)
      (htail : InnerText tail) : InnerText ('\\' :: letter :: tail)
  | code {digits tail : List Char} {n : Nat} (h : IsHex4 digits n) (htail : InnerText tail) :
      InnerText ('\\' :: 'u' :: (digits ++ tail))

variable {c : Char} {digits inner text : List Char} {n : Nat}

theorem InnerText.skipCharsWithin (h : InnerText inner) (hn : inner.length < n)
    (rest : List Char) : skipCharsWithin n (inner ++ '"' :: rest) = .ok rest := by
  obtain ⟨n, rfl⟩ : ∃ m, n = m + 1 := ⟨n - 1, by omega⟩
  -- Every spelling is at least as long as the one step that it takes.
  induction h generalizing n with
  | nil => rfl
  | plain h _ ih =>
    rw [List.length_cons] at hn
    obtain ⟨n, rfl⟩ : ∃ m, n = m + 1 := ⟨n - 1, by omega⟩
    rw [List.cons_append, Json.skipCharsWithin, if_neg (Nat.not_lt.mpr h.le_toNat)]
    · exact ih n (by omega)
    · exact h.ne_quote
    · exact h.ne_backslash
  | short h _ ih =>
    rw [List.length_cons, List.length_cons] at hn
    obtain ⟨n, rfl⟩ : ∃ m, n = m + 1 := ⟨n - 1, by omega⟩
    obtain ⟨hne, hescaped⟩ := escaped?_of_mem h
    simp [Json.skipCharsWithin, skipEscape, hescaped, ih n (by omega)]
  | code h _ ih =>
    rw [List.length_cons, List.length_cons, List.length_append] at hn
    obtain ⟨n, rfl⟩ : ∃ m, n = m + 1 := ⟨n - 1, by omega⟩
    simp [Json.skipCharsWithin, skipEscape, h.readHex4, Except.map, ih n (by omega)]

theorem InnerText.skipChars (h : InnerText inner) (rest : List Char) :
    skipChars (inner ++ '"' :: rest) = .ok rest := by
  refine h.skipCharsWithin ?_ rest
  rw [List.length_append, List.length_cons]
  omega

/-! ## The grammar of numbers -/

/-- At least one digit. -/
structure IsDigits (s : List Char) : Prop where
  ne_nil : s ≠ []
  isDigit : ∀ c ∈ s, c.isDigit = true

/-- The digits before the point; a zero stands alone. -/
inductive WholeText : List Char → Prop
  | zero : WholeText ['0']
  | digits {c : Char} {cs : List Char} (h : IsDigits (c :: cs)) (hc : c ≠ '0') :
      WholeText (c :: cs)

/-- The point and the digits behind it, or nothing. -/
inductive FractionText : List Char → Prop
  | nil : FractionText []
  | point {digits : List Char} (h : IsDigits digits) : FractionText ('.' :: digits)

/-- The exponent, or nothing. -/
inductive ExponentText : List Char → Prop
  | nil : ExponentText []
  | exponent {e : Char} {sign digits : List Char} (he : e = 'e' ∨ e = 'E')
      (hsign : sign = [] ∨ sign = ['+'] ∨ sign = ['-']) (h : IsDigits digits) :
      ExponentText (e :: (sign ++ digits))

/-- A number without its sign. -/
inductive NumeralText : List Char → Prop
  | mk {whole fraction exponent : List Char} (hwhole : WholeText whole)
      (hfraction : FractionText fraction) (hexponent : ExponentText exponent) :
      NumeralText (whole ++ (fraction ++ exponent))

/-! ## Numbers are read -/

/-- A character with which a number can go on. -/
def isNumeralChar (c : Char) : Bool := c.isDigit || c == '.' || c == 'e' || c == 'E'

/-- No number goes on at this text. -/
def StopsNumeral (rest : List Char) : Prop := ∀ c ∈ rest.head?, isNumeralChar c = false

/-- No digit stands at the beginning of this text. -/
def StopsDigits (rest : List Char) : Prop := ∀ c ∈ rest.head?, c.isDigit = false

theorem StopsNumeral.stopsDigits {rest : List Char} (h : StopsNumeral rest) :
    StopsDigits rest := by
  intro c hc
  have hstop := h c hc
  simp only [isNumeralChar, Bool.or_eq_false_iff] at hstop
  exact hstop.1.1.1

theorem IsDigits.readDigits1 (h : IsDigits digits) {rest : List Char} (hrest : StopsDigits rest)
    (atEnd : Fault) : readDigits1 atEnd (digits ++ rest) = .ok (digits, rest) := by
  obtain ⟨c, cs, rfl⟩ := List.exists_cons_of_ne_nil h.ne_nil
  obtain ⟨hc, hcs⟩ := List.forall_mem_cons.mp h.isDigit
  have htake : (cs ++ rest).takeWhile Char.isDigit = cs := by
    rw [List.takeWhile_append_of_pos hcs]
    cases rest with
    | nil => simp
    | cons d rest => rw [List.takeWhile_cons_of_neg (by simp [hrest d rfl]), List.append_nil]
  have hdrop : (cs ++ rest).dropWhile Char.isDigit = rest := by
    rw [List.dropWhile_append_of_pos hcs]
    cases rest with
    | nil => rfl
    | cons d rest => rw [List.dropWhile_cons_of_neg (by simp [hrest d rfl])]
  rw [List.cons_append, Json.readDigits1, if_pos hc, htake, hdrop]

theorem WholeText.readWhole (h : WholeText text) {rest : List Char} (hrest : StopsDigits rest)
    (atEnd : Fault) : readWhole atEnd (text ++ rest) = .ok (text, rest) := by
  cases h with
  | zero =>
    cases rest with
    | nil => rfl
    | cons d rest => simp [Json.readWhole, hrest d rfl]
  | digits h hc =>
    rw [List.cons_append, Json.readWhole]
    · exact h.readDigits1 hrest atEnd
    · exact fun _ heq => hc (List.cons.inj heq).1

theorem FractionText.exists_readFraction (h : FractionText text) {rest : List Char}
    (hrest : StopsDigits rest) (hpoint : rest.head? ≠ some '.') (atEnd : Fault) :
    ∃ digits, readFraction atEnd (text ++ rest) = .ok (digits, rest) := by
  cases h with
  | nil =>
    rw [List.nil_append, readFraction]
    · exact ⟨[], rfl⟩
    · rintro cs rfl
      exact hpoint rfl
  | point h => exact ⟨_, h.readDigits1 hrest atEnd⟩

theorem ExponentText.exists_readExponent (h : ExponentText text) {rest : List Char}
    (hrest : StopsNumeral rest) (atEnd : Fault) :
    ∃ exponent, readExponent atEnd (text ++ rest) = .ok (exponent, rest) := by
  cases h with
  | nil =>
    cases rest with
    | nil => exact ⟨none, rfl⟩
    | cons c rest =>
      have hc := hrest c rfl
      simp only [isNumeralChar, Bool.or_eq_false_iff, beq_eq_false_iff_ne] at hc
      rw [List.nil_append, readExponent, if_neg (not_or.mpr ⟨hc.1.2, hc.2⟩)]
      exact ⟨none, rfl⟩
  | @exponent e sign digits he hsign h =>
    have hdigits := h.readDigits1 hrest.stopsDigits atEnd
    -- Without a sign the first digit is taken for none.
    have hsigned : ∃ negative,
        exponentSign (sign ++ (digits ++ rest)) = (negative, digits ++ rest) := by
      rcases hsign with rfl | rfl | rfl
      · obtain ⟨c, cs, rfl⟩ := List.exists_cons_of_ne_nil h.ne_nil
        have hc := h.isDigit c List.mem_cons_self
        refine ⟨false, ?_⟩
        rw [List.nil_append, List.cons_append, exponentSign]
        · rintro _ ⟨rfl, -⟩
          exact absurd hc (by decide)
        · rintro _ ⟨rfl, -⟩
          exact absurd hc (by decide)
      · exact ⟨false, rfl⟩
      · exact ⟨true, rfl⟩
    obtain ⟨negative, hnegative⟩ := hsigned
    rw [List.cons_append, readExponent, if_pos he, List.append_assoc, hnegative]
    simp only [hdigits]
    exact ⟨_, rfl⟩

/-- A number is read up to its end. -/
theorem NumeralText.exists_readNumeral (h : NumeralText text) {rest : List Char}
    (hrest : StopsNumeral rest) (atEnd : Fault) :
    ∃ numeral, readNumeral atEnd (text ++ rest) = .ok (numeral, rest) := by
  obtain @⟨whole, fraction, exponent, hwhole, hfraction, hexponent⟩ := h
  -- Each part ends where the next one begins, or where the number does.
  have hbehindFraction :
      StopsDigits (exponent ++ rest) ∧ (exponent ++ rest).head? ≠ some '.' := by
    cases hexponent with
    | nil =>
      refine ⟨hrest.stopsDigits, fun hpoint => ?_⟩
      exact absurd (hrest '.' hpoint) (by decide)
    | exponent he => rcases he with rfl | rfl <;> simp [StopsDigits]
  have hbehindWhole : StopsDigits (fraction ++ (exponent ++ rest)) := by
    cases hfraction with
    | nil => exact hbehindFraction.1
    | point h => simp [StopsDigits]
  obtain ⟨digits, hdigits⟩ :=
    hfraction.exists_readFraction hbehindFraction.1 hbehindFraction.2 atEnd
  obtain ⟨exp, hexp⟩ := hexponent.exists_readExponent hrest atEnd
  rw [List.append_assoc, List.append_assoc, readNumeral, hwhole.readWhole hbehindWhole]
  simp only [hdigits, hexp]
  exact ⟨_, rfl⟩

/-! ## The grammar of values -/

/-- The parts of a text that hold one another: a value, the items of an array from an item on,
    and the members of an object from a member on, each with the closing bracket. -/
inductive Part where
  | value
  | items
  | members

/-- The values that are words. -/
def words : List (List Char) :=
  [['n', 'u', 'l', 'l'], ['t', 'r', 'u', 'e'], ['f', 'a', 'l', 's', 'e']]

/-- The text of a value of any kind, without white space around it, and of what stands in an
    array or an object. -/
inductive PartText : Part → List Char → Prop
  | word {text : List Char} (h : text ∈ words) : PartText .value text
  | string {inner : List Char} (h : InnerText inner) : PartText .value ('"' :: (inner ++ ['"']))
  | number {text : List Char} (h : NumeralText text) : PartText .value text
  | negative {text : List Char} (h : NumeralText text) : PartText .value ('-' :: text)
  | emptyArray {space : List Char} (hspace : IsSpaces space) :
      PartText .value ('[' :: (space ++ [']']))
  | array {items : List Char} (h : PartText .items items) : PartText .value ('[' :: items)
  | emptyObject {space : List Char} (hspace : IsSpaces space) :
      PartText .value ('\x7b' :: (space ++ ['\x7d']))
  | object {members : List Char} (h : PartText .members members) :
      PartText .value ('\x7b' :: members)
  | lastItem {before value after : List Char} (hbefore : IsSpaces before)
      (hvalue : PartText .value value) (hafter : IsSpaces after) :
      PartText .items (before ++ (value ++ (after ++ [']'])))
  | nextItem {before value after items : List Char} (hbefore : IsSpaces before)
      (hvalue : PartText .value value) (hafter : IsSpaces after) (h : PartText .items items) :
      PartText .items (before ++ (value ++ (after ++ ',' :: items)))
  | lastMember {before key behind space value after : List Char} (hbefore : IsSpaces before)
      (hkey : InnerText key) (hbehind : IsSpaces behind) (hspace : IsSpaces space)
      (hvalue : PartText .value value) (hafter : IsSpaces after) :
      PartText .members
        (before ++ '"' :: (key ++ '"' :: (behind ++ ':' :: (space ++ (value ++
          (after ++ ['\x7d']))))))
  | nextMember {before key behind space value after members : List Char}
      (hbefore : IsSpaces before) (hkey : InnerText key) (hbehind : IsSpaces behind)
      (hspace : IsSpaces space) (hvalue : PartText .value value) (hafter : IsSpaces after)
      (h : PartText .members members) :
      PartText .members
        (before ++ '"' :: (key ++ '"' :: (behind ++ ':' :: (space ++ (value ++
          (after ++ ',' :: members))))))

/-! ## Values are skipped -/

/-- The text behind a part. -/
def skipPartWithin : Part → Nat → List Char → Except Fault (List Char)
  | .value => skipValueWithin
  | .items => skipItemsWithin
  | .members => skipMembersWithin

theorem skipSpace_spaces {space : List Char} (h : IsSpaces space) (s : List Char) :
    skipSpace (space ++ s) = skipSpace s :=
  List.dropWhile_append_of_pos h

/-- White space in front of a value is skipped with it. -/
theorem skipValueWithin_spaces {space : List Char} (h : IsSpaces space) (n : Nat)
    (s : List Char) : skipValueWithin n (space ++ s) = skipValueWithin n s := by
  cases n with
  | zero => rfl
  | succ n => rw [skipValueWithin, skipValueWithin, skipSpace_spaces h]

/-- Behind a value stands white space and then a comma or a closing bracket. -/
theorem stopsNumeral_append {space : List Char} (h : IsSpaces space)
    (hc : c ∈ [',', ']', '\x7d']) (rest : List Char) : StopsNumeral (space ++ c :: rest) := by
  have hspace : ∀ d, isSpace d = true → isNumeralChar d = false := by
    intro d hd
    simp only [isSpace, Bool.or_eq_true, beq_iff_eq] at hd
    rcases hd with ((rfl | rfl) | rfl) | rfl <;> decide
  intro d hd
  cases space with
  | nil =>
    obtain rfl : c = d := by simpa using hd
    simp only [List.mem_cons, List.not_mem_nil, or_false] at hc
    rcases hc with rfl | rfl | rfl <;> decide
  | cons s space =>
    obtain rfl : s = d := by simpa using hd
    exact hspace s (h s List.mem_cons_self)

theorem isSpace_of_isDigit (h : c.isDigit = true) : isSpace c = false := by
  cases hspace : isSpace c with
  | false => rfl
  | true =>
    simp only [isSpace, Bool.or_eq_true, beq_iff_eq] at hspace
    rcases hspace with ((rfl | rfl) | rfl) | rfl <;> exact absurd h (by decide)

theorem NumeralText.exists_cons (h : NumeralText text) :
    ∃ c cs, text = c :: cs ∧ c.isDigit = true := by
  obtain ⟨hwhole, -, -⟩ := h
  cases hwhole with
  | zero => exact ⟨_, _, rfl, rfl⟩
  | digits h => exact ⟨_, _, rfl, h.isDigit _ List.mem_cons_self⟩

/-- A value begins with a character that is no white space and no closing bracket. -/
theorem PartText.exists_cons (h : PartText .value text) :
    ∃ c cs, text = c :: cs ∧ isSpace c = false ∧ c ≠ ']' := by
  cases h with
  | word h =>
    have hall : ∀ w ∈ words, ∃ c cs, w = c :: cs ∧ isSpace c = false ∧ c ≠ ']' := by
      simp [words, isSpace]
    exact hall text h
  | number h =>
    obtain ⟨c, cs, rfl, hc⟩ := h.exists_cons
    refine ⟨c, cs, rfl, isSpace_of_isDigit hc, ?_⟩
    rintro rfl
    cases hc
  | _ => exact ⟨_, _, rfl, by decide, by decide⟩

theorem skipSpace_cons (h : isSpace c = false) (s : List Char) : skipSpace (c :: s) = c :: s :=
  skipSpace_append isSpaces_nil h s

theorem skipValueWithin_word (h : text ∈ words) (n : Nat) (rest : List Char) :
    skipValueWithin (n + 1) (text ++ rest) = .ok rest := by
  simp only [words, List.mem_cons, List.not_mem_nil, or_false] at h
  rcases h with rfl | rfl | rfl <;> rfl

/-- A digit is none of the characters that other values begin with. -/
theorem skipValueWithin_digit (h : c.isDigit = true) (n : Nat) (cs : List Char) :
    skipValueWithin (n + 1) (c :: cs) =
      (readNumeral .malformed (c :: cs)).map Prod.snd := by
  rw [skipValueWithin, skipSpace_cons (isSpace_of_isDigit h)]
  split <;> rename_i heq <;> cases heq
  all_goals first | exact absurd h (by decide) | exact if_pos h

theorem skipValueWithin_numeral (h : NumeralText text) {rest : List Char}
    (hrest : StopsNumeral rest) (n : Nat) :
    skipValueWithin (n + 1) (text ++ rest) = .ok rest := by
  obtain ⟨numeral, hread⟩ := h.exists_readNumeral hrest .malformed
  obtain ⟨c, cs, rfl, hc⟩ := h.exists_cons
  rw [List.cons_append] at hread ⊢
  rw [skipValueWithin_digit hc, hread]
  rfl

/-- What stands in an array is no closing bracket. -/
theorem PartText.exists_item (h : PartText .items text) (rest : List Char) :
    ∃ c cs, skipSpace (text ++ rest) = c :: cs ∧ c ≠ ']' := by
  cases h with
  | lastItem hbefore hvalue hafter | nextItem hbefore hvalue hafter =>
    obtain ⟨c, cs, rfl, hc, hne⟩ := hvalue.exists_cons
    rw [List.append_assoc, List.append_assoc, List.cons_append, skipSpace_append hbefore hc]
    exact ⟨c, _, rfl, hne⟩

/-- What stands in an object is a quote. -/
theorem PartText.exists_member (h : PartText .members text) (rest : List Char) :
    ∃ cs, skipSpace (text ++ rest) = '"' :: cs := by
  cases h with
  | lastMember hbefore | nextMember hbefore =>
    rw [List.append_assoc, List.cons_append, skipSpace_append hbefore (by decide)]
    exact ⟨_, rfl⟩

section Steps

variable {before value after key behind space : List Char}

theorem skipValueWithin_string (h : InnerText text) (n : Nat) (rest : List Char) :
    skipValueWithin (n + 1) ('"' :: (text ++ '"' :: rest)) = .ok rest := by
  simp only [skipValueWithin, skipSpace_cons (c := '"') (by decide), h.skipChars]

theorem skipValueWithin_negative (h : NumeralText text) {rest : List Char}
    (hrest : StopsNumeral rest) (n : Nat) :
    skipValueWithin (n + 1) ('-' :: (text ++ rest)) = .ok rest := by
  obtain ⟨numeral, hread⟩ := h.exists_readNumeral hrest .malformed
  simp only [skipValueWithin, skipSpace_cons (c := '-') (by decide), hread]
  rfl

theorem skipValueWithin_emptyArray (hspace : IsSpaces space) (n : Nat) (rest : List Char) :
    skipValueWithin (n + 1) ('[' :: (space ++ ']' :: rest)) = .ok rest := by
  simp only [skipValueWithin, skipSpace_cons (c := '[') (by decide),
    skipSpace_append hspace (c := ']') (by decide)]

/-- Behind the bracket of an array that is not empty, its items are skipped. -/
theorem skipValueWithin_array (h : PartText .items text) (n : Nat) (rest : List Char) :
    skipValueWithin (n + 1) ('[' :: (text ++ rest)) = skipItemsWithin n (text ++ rest) := by
  obtain ⟨c, cs, hfirst, hne⟩ := h.exists_item rest
  rw [skipValueWithin, skipSpace_cons (c := '[') (by decide)]
  simp only [hfirst]
  split
  · next heq => exact absurd (List.cons.inj heq).1 hne
  · rfl

theorem skipValueWithin_emptyObject (hspace : IsSpaces space) (n : Nat) (rest : List Char) :
    skipValueWithin (n + 1) ('\x7b' :: (space ++ '\x7d' :: rest)) = .ok rest := by
  simp only [skipValueWithin, skipSpace_cons (c := '\x7b') (by decide),
    skipSpace_append hspace (c := '\x7d') (by decide)]

/-- Behind the brace of an object that is not empty, its members are skipped. -/
theorem skipValueWithin_object (h : PartText .members text) (n : Nat) (rest : List Char) :
    skipValueWithin (n + 1) ('\x7b' :: (text ++ rest)) = skipMembersWithin n (text ++ rest) := by
  obtain ⟨cs, hfirst⟩ := h.exists_member rest
  rw [skipValueWithin, skipSpace_cons (c := '\x7b') (by decide)]
  simp only [hfirst]
  rfl

/-- After an item that is skipped the array ends, or the next item is skipped. -/
theorem skipItemsWithin_last (hbefore : IsSpaces before) (hafter : IsSpaces after)
    {rest : List Char} (hvalue : skipValueWithin n (value ++ (after ++ ']' :: rest)) =
      .ok (after ++ ']' :: rest)) :
    skipItemsWithin (n + 1) (before ++ (value ++ (after ++ ']' :: rest))) = .ok rest := by
  simp only [skipItemsWithin, skipValueWithin_spaces hbefore, hvalue,
    skipSpace_append hafter (c := ']') (by decide)]

theorem skipItemsWithin_next (hbefore : IsSpaces before) (hafter : IsSpaces after)
    {rest : List Char} (hvalue : skipValueWithin n (value ++ (after ++ ',' :: rest)) =
      .ok (after ++ ',' :: rest)) :
    skipItemsWithin (n + 1) (before ++ (value ++ (after ++ ',' :: rest))) =
      skipItemsWithin n rest := by
  rw [skipItemsWithin]
  simp only [skipValueWithin_spaces hbefore, hvalue,
    skipSpace_append hafter (c := ',') (by decide)]

/-- After a member that is skipped the object ends, or the next member is skipped. -/
theorem skipMembersWithin_last (hbefore : IsSpaces before) (hkey : InnerText key)
    (hbehind : IsSpaces behind) (hspace : IsSpaces space) (hafter : IsSpaces after)
    {rest : List Char} (hvalue : skipValueWithin n (value ++ (after ++ '\x7d' :: rest)) =
      .ok (after ++ '\x7d' :: rest)) :
    skipMembersWithin (n + 1) (before ++ '"' :: (key ++ '"' :: (behind ++ ':' ::
      (space ++ (value ++ (after ++ '\x7d' :: rest)))))) = .ok rest := by
  rw [skipMembersWithin]
  simp only [skipSpace_append hbefore (c := '"') (by decide), hkey.skipChars,
    skipSpace_append hbehind (c := ':') (by decide), skipValueWithin_spaces hspace, hvalue,
    skipSpace_append hafter (c := '\x7d') (by decide)]

theorem skipMembersWithin_next (hbefore : IsSpaces before) (hkey : InnerText key)
    (hbehind : IsSpaces behind) (hspace : IsSpaces space) (hafter : IsSpaces after)
    {rest : List Char} (hvalue : skipValueWithin n (value ++ (after ++ ',' :: rest)) =
      .ok (after ++ ',' :: rest)) :
    skipMembersWithin (n + 1) (before ++ '"' :: (key ++ '"' :: (behind ++ ':' ::
      (space ++ (value ++ (after ++ ',' :: rest)))))) = skipMembersWithin n rest := by
  rw [skipMembersWithin]
  simp only [skipSpace_append hbefore (c := '"') (by decide), hkey.skipChars,
    skipSpace_append hbehind (c := ':') (by decide), skipValueWithin_spaces hspace, hvalue,
    skipSpace_append hafter (c := ',') (by decide)]

end Steps

theorem PartText.length_pos {part : Part} (h : PartText part text) : 0 < text.length := by
  cases h with
  | word h =>
    have hall : ∀ w ∈ words, 0 < w.length := by decide
    exact hall text h
  | number h =>
    obtain ⟨c, cs, rfl, -⟩ := h.exists_cons
    exact Nat.succ_pos _
  | _ =>
    simp only [List.length_cons, List.length_append]
    omega

theorem PartText.exists_succ {part : Part} (h : PartText part text) (hn : 2 * text.length ≤ n) :
    ∃ m, n = m + 1 :=
  ⟨n - 1, by have := h.length_pos; omega⟩

/-- A part is skipped to its end; twice its length is fuel enough. -/
theorem PartText.skipPartWithin {part : Part} (h : PartText part text)
    (hn : 2 * text.length ≤ n) (rest : List Char) (hrest : part = .value → StopsNumeral rest) :
    skipPartWithin part n (text ++ rest) = .ok rest := by
  -- By induction on the text.  A part and its first smaller part take a step each, and twice
  -- the length pays for both, as no part is empty.
  obtain ⟨n, rfl⟩ := h.exists_succ hn
  induction h generalizing n rest with
  | word h => exact skipValueWithin_word h n rest
  | string h =>
    rw [List.cons_append, List.append_assoc, List.singleton_append]
    exact skipValueWithin_string h n rest
  | number h => exact skipValueWithin_numeral h (hrest rfl) n
  | negative h => exact skipValueWithin_negative h (hrest rfl) n
  | emptyArray hspace =>
    rw [List.cons_append, List.append_assoc, List.singleton_append]
    exact skipValueWithin_emptyArray hspace n rest
  | @array items h ih =>
    rw [List.length_cons] at hn
    have hlength : 2 * items.length ≤ n := by omega
    obtain ⟨n, rfl⟩ := h.exists_succ hlength
    exact (skipValueWithin_array h (n + 1) rest).trans (ih rest nofun n hlength)
  | emptyObject hspace =>
    rw [List.cons_append, List.append_assoc, List.singleton_append]
    exact skipValueWithin_emptyObject hspace n rest
  | @object members h ih =>
    rw [List.length_cons] at hn
    have hlength : 2 * members.length ≤ n := by omega
    obtain ⟨n, rfl⟩ := h.exists_succ hlength
    exact (skipValueWithin_object h (n + 1) rest).trans (ih rest nofun n hlength)
  | @lastItem before value after hbefore hvalue hafter ih =>
    simp only [List.length_append, List.length_cons, List.length_nil] at hn
    have hlength : 2 * value.length ≤ n := by omega
    obtain ⟨n, rfl⟩ := hvalue.exists_succ hlength
    simp only [List.append_assoc, List.singleton_append]
    refine skipItemsWithin_last hbefore hafter ?_
    exact ih _ (fun _ => stopsNumeral_append hafter (by decide) rest) n hlength
  | @nextItem before value after items hbefore hvalue hafter h ihvalue ih =>
    simp only [List.length_append, List.length_cons] at hn
    have hlength : 2 * value.length ≤ n := by omega
    obtain ⟨n, rfl⟩ := hvalue.exists_succ hlength
    simp only [List.append_assoc, List.cons_append]
    refine (skipItemsWithin_next hbefore hafter ?_).trans (ih rest nofun n (by omega))
    exact ihvalue _ (fun _ => stopsNumeral_append hafter (by decide) _) n hlength
  | @lastMember before key behind space value after hbefore hkey hbehind hspace hvalue hafter ih =>
    simp only [List.length_append, List.length_cons, List.length_nil] at hn
    have hlength : 2 * value.length ≤ n := by omega
    obtain ⟨n, rfl⟩ := hvalue.exists_succ hlength
    simp only [List.append_assoc, List.cons_append, List.nil_append]
    refine skipMembersWithin_last hbefore hkey hbehind hspace hafter ?_
    exact ih _ (fun _ => stopsNumeral_append hafter (by decide) rest) n hlength
  | @nextMember before key behind space value after members hbefore hkey hbehind hspace hvalue
      hafter h ihvalue ih =>
    simp only [List.length_append, List.length_cons] at hn
    have hlength : 2 * value.length ≤ n := by omega
    obtain ⟨n, rfl⟩ := hvalue.exists_succ hlength
    simp only [List.append_assoc, List.cons_append]
    refine (skipMembersWithin_next hbefore hkey hbehind hspace hafter ?_).trans
      (ih rest nofun n (by omega))
    exact ihvalue _ (fun _ => stopsNumeral_append hafter (by decide) _) n hlength

/-- A value is skipped with the white space in front of it. -/
theorem PartText.skipValue (h : PartText .value text) {space rest : List Char}
    (hspace : IsSpaces space) (hrest : StopsNumeral rest) :
    skipValue (space ++ (text ++ rest)) = .ok rest := by
  have hfuel : 2 * text.length ≤ 2 * (space ++ (text ++ rest)).length + 1 := by
    simp only [List.length_append]
    omega
  rw [Json.skipValue, skipValueWithin_spaces hspace]
  exact h.skipPartWithin hfuel rest fun _ => hrest

end LivePreview.Json
