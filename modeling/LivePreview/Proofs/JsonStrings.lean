/-
  LivePreview.Proofs.JsonStrings

  JSON strings are read back.

  `Json.Reads` says that a reader finds a value at a text, whatever stands behind it and
  whatever white space stands in front.  A character of a string may stand for itself or be
  escaped in three ways (`Json.SpellsChar`), and every spelling is read as the string that it
  spells (`Json.reads_stringText`).  A written string is one of the spellings.
-/

import LivePreview.Json.Reader
import LivePreview.Json.Value

namespace LivePreview.Json

/-! ## White space -/

/-- White space that may stand between words. -/
def IsSpaces (s : List Char) : Prop := ∀ c ∈ s, isSpace c = true

theorem isSpaces_nil : IsSpaces [] := by simp [IsSpaces]

theorem skipSpace_append {space : List Char} (h : IsSpaces space) {c : Char}
    (hc : isSpace c = false) (s : List Char) : skipSpace (space ++ c :: s) = c :: s := by
  rw [skipSpace, List.dropWhile_append_of_pos h, List.dropWhile_cons_of_neg (by simp [hc])]

/-! ## Reading a text -/

/-- The reader finds the value at the text and leaves what is behind it. -/
def Reads {α : Type} (read : Reader α) (text : List Char) (a : α) : Prop :=
  ∀ space rest, IsSpaces space → read (space ++ (text ++ rest)) = .ok (a, rest)

/-- What is found may be changed. -/
theorem Reads.map {α β : Type} {read : Reader α} {text : List Char} {a : α}
    (h : Reads read text a) (f : α → β) :
    Reads (fun s => (read s).map fun (value, rest) => (f value, rest)) text (f a) := by
  intro space rest hspace
  simp only [h space rest hspace]
  rfl

/-- A text that holds nothing else has the value that is found at it. -/
theorem Reads.parse {α : Type} {read : Reader α} {text : List Char} {a : α}
    (h : Reads read text a) : parse read (String.ofList text) = .ok a := by
  have hread : read text = .ok (a, []) := by simpa using h [] [] isSpaces_nil
  simp [Json.parse, hread, skipSpace]

/-! ## The grammar of strings -/

/-- The escapes of one letter: the letter behind the backslash, and its character. -/
def shortEscapes : List (Char × Char) :=
  [('"', '"'), ('\\', '\\'), ('/', '/'), ('b', '\x08'), ('f', '\x0c'), ('n', '\n'), ('r', '\r'),
    ('t', '\t')]

/-- A hexadecimal digit, small or capital, and its value. -/
def IsHexDigit (d : Char) (n : Nat) : Prop :=
  n < 16 ∧ (d = Nat.digitChar n ∨ d = (Nat.digitChar n).toUpper)

/-- Four hexadecimal digits and the number that they write. -/
inductive IsHex4 : List Char → Nat → Prop
  | mk {a b c d : Char} {x y z w : Nat} (ha : IsHexDigit a x) (hb : IsHexDigit b y)
      (hc : IsHexDigit c z) (hd : IsHexDigit d w) :
      IsHex4 [a, b, c, d] (0x1000 * x + 0x100 * y + 0x10 * z + w)

/-- A character that may stand for itself in a string. -/
structure IsPlainChar (c : Char) : Prop where
  le_toNat : 32 ≤ c.toNat
  ne_quote : c ≠ '"'
  ne_backslash : c ≠ '\\'

instance (c : Char) : Decidable (IsPlainChar c) :=
  decidable_of_iff (32 ≤ c.toNat ∧ c ≠ '"' ∧ c ≠ '\\')
    ⟨fun h => ⟨h.1, h.2.1, h.2.2⟩, fun h => ⟨h.le_toNat, h.ne_quote, h.ne_backslash⟩⟩

/-- The ways to write a character in a string: as it is, by a letter, by its code, or by a pair
    of codes if it is beyond the codes of four digits. -/
inductive SpellsChar : Char → List Char → Prop
  | plain {c : Char} (h : IsPlainChar c) : SpellsChar c [c]
  | short {c letter : Char} (h : (letter, c) ∈ shortEscapes) : SpellsChar c ['\\', letter]
  | code {c : Char} {digits : List Char} (h : IsHex4 digits c.toNat) :
      SpellsChar c ('\\' :: 'u' :: digits)
  | pair {c : Char} {first second : List Char} {high low : Nat} (hhigh : high < 0x400)
      (hlow : low < 0x400) (hc : c.toNat = 0x10000 + high * 0x400 + low)
      (hfirst : IsHex4 first (0xd800 + high)) (hsecond : IsHex4 second (0xdc00 + low)) :
      SpellsChar c ('\\' :: 'u' :: (first ++ '\\' :: 'u' :: second))

/-- The ways to write characters one after the other. -/
inductive SpellsChars : List Char → List Char → Prop
  | nil : SpellsChars [] []
  | cons {c : Char} {cs head tail : List Char} (hhead : SpellsChar c head)
      (htail : SpellsChars cs tail) : SpellsChars (c :: cs) (head ++ tail)

/-- The ways to write a string. -/
def StringText (s : String) (text : List Char) : Prop :=
  ∃ inner, SpellsChars s.toList inner ∧ text = '"' :: (inner ++ ['"'])

/-! ## Strings are read -/

variable {c : Char} {cs digits inner text : List Char} {n : Nat}

theorem hexValue?_digitChar : ∀ n < 16, hexValue? (Nat.digitChar n) = some n := by
  decide

theorem hexValue?_of_isHexDigit (h : IsHexDigit c n) : hexValue? c = some n := by
  have hupper : ∀ n < 16, hexValue? (Nat.digitChar n).toUpper = some n := by decide
  obtain ⟨hn, rfl | rfl⟩ := h
  · exact hexValue?_digitChar n hn
  · exact hupper n hn

theorem IsHex4.readHex4 (h : IsHex4 digits n) (rest : List Char) :
    readHex4 (digits ++ rest) = .ok (n, rest) := by
  obtain ⟨ha, hb, hc, hd⟩ := h
  simp only [List.cons_append, List.nil_append, Json.readHex4, hexValue4?,
    hexValue?_of_isHexDigit ha, hexValue?_of_isHexDigit hb, hexValue?_of_isHexDigit hc,
    hexValue?_of_isHexDigit hd, Except.ok.injEq, Prod.mk.injEq, and_true]
  omega

theorem escaped?_of_mem {letter : Char} (h : (letter, c) ∈ shortEscapes) :
    letter ≠ 'u' ∧ escaped? letter = some c := by
  have hall : ∀ e ∈ shortEscapes, e.1 ≠ 'u' ∧ escaped? e.1 = some e.2 := by decide
  exact hall _ h

/-- No character is half of a pair. -/
theorem not_surrogate (c : Char) :
    isLowSurrogate c.toNat = false ∧ isHighSurrogate c.toNat = false := by
  have hvalid : c.toNat < 0xd800 ∨ 0xdfff < c.toNat ∧ c.toNat < 0x110000 := c.valid
  simp only [isLowSurrogate, isHighSurrogate, Bool.and_eq_false_iff, decide_eq_false_iff_not]
  omega

theorem IsHex4.readEscape (h : IsHex4 digits c.toNat) (rest : List Char) :
    readEscape ('u' :: (digits ++ rest)) = .ok (c, rest) := by
  obtain ⟨hlow, hhigh⟩ := not_surrogate c
  simp only [Json.readEscape, h.readHex4, hlow, hhigh, Bool.false_eq_true, if_false,
    Char.ofNat_toNat]

theorem readEscape_pair {first second : List Char} {high low : Nat} (hhigh : high < 0x400)
    (hlow : low < 0x400) (hc : c.toNat = 0x10000 + high * 0x400 + low)
    (hfirst : IsHex4 first (0xd800 + high)) (hsecond : IsHex4 second (0xdc00 + low))
    (rest : List Char) :
    readEscape ('u' :: (first ++ '\\' :: 'u' :: (second ++ rest))) = .ok (c, rest) := by
  have hnotLow : isLowSurrogate (0xd800 + high) = false := by
    simp only [isLowSurrogate, Bool.and_eq_false_iff, decide_eq_false_iff_not]
    omega
  have hisHigh : isHighSurrogate (0xd800 + high) = true := by
    simp only [isHighSurrogate, Bool.and_eq_true, decide_eq_true_eq]
    omega
  have hisLow : isLowSurrogate (0xdc00 + low) = true := by
    simp only [isLowSurrogate, Bool.and_eq_true, decide_eq_true_eq]
    omega
  have hchar : Char.ofNat (0x10000 + (0xd800 + high - 0xd800) * 0x400 + (0xdc00 + low - 0xdc00)) =
      c := by
    rw [Nat.add_sub_cancel_left, Nat.add_sub_cancel_left, ← hc, Char.ofNat_toNat]
  simp only [Json.readEscape, hfirst.readHex4, hnotLow, hisHigh, Bool.false_eq_true, if_false,
    if_true, readLowSurrogate, hsecond.readHex4, hisLow, hchar]

/-- A character is read from each of its spellings. -/
theorem SpellsChar.readChar (h : SpellsChar c text) (rest : List Char) :
    readChar (text ++ rest) = .ok (some c, rest) := by
  cases h with
  | plain h =>
    rw [List.singleton_append, Json.readChar, if_neg (Nat.not_lt.mpr h.le_toNat)]
    · exact h.ne_quote
    · exact h.ne_backslash
  | short h =>
    obtain ⟨hne, hescaped⟩ := escaped?_of_mem h
    simp [Json.readChar, Json.readEscape, hescaped, Except.map]
  | code h => simp [Json.readChar, h.readEscape, Except.map]
  | pair hhigh hlow hc hfirst hsecond =>
    simp [Json.readChar, readEscape_pair hhigh hlow hc hfirst hsecond, Except.map]

/-- Plain characters are their own spelling. -/
theorem spellsChars_plain (h : cs.all (IsPlainChar ·) = true) : SpellsChars cs cs := by
  induction cs with
  | nil => exact .nil
  | cons c cs ih =>
    rw [List.all_cons, Bool.and_eq_true, decide_eq_true_iff] at h
    exact .cons (.plain h.1) (ih h.2)

theorem SpellsChar.length_pos (h : SpellsChar c text) : 0 < text.length := by
  cases h <;> simp

theorem SpellsChars.readCharsWithin (h : SpellsChars cs inner) (hn : inner.length < n)
    (rest : List Char) : readCharsWithin n (inner ++ '"' :: rest) = .ok (cs, rest) := by
  obtain ⟨n, rfl⟩ : ∃ m, n = m + 1 := ⟨n - 1, by omega⟩
  induction h generalizing n with
  | nil => rfl
  | cons hhead _ ih =>
    have hpos := hhead.length_pos
    rw [List.length_append] at hn
    obtain ⟨n, rfl⟩ : ∃ m, n = m + 1 := ⟨n - 1, by omega⟩
    rw [List.append_assoc, Json.readCharsWithin, hhead.readChar]
    simp only [ih n (by omega)]
    rfl

/-- The characters of a string are read up to its closing quote. -/
theorem SpellsChars.readChars (h : SpellsChars cs inner) (rest : List Char) :
    readChars (inner ++ '"' :: rest) = .ok (cs, rest) := by
  refine h.readCharsWithin ?_ rest
  rw [List.length_append, List.length_cons]
  omega

/-- A string is read from each of its spellings. -/
theorem reads_stringText {s : String} (h : StringText s text) : Reads readString text s := by
  obtain ⟨inner, hinner, rfl⟩ := h
  intro space rest hspace
  simp only [readString, List.cons_append, List.append_assoc,
    skipSpace_append hspace (c := '"') (by decide), List.nil_append, hinner.readChars]
  simp [Except.map]

/-! ## Written strings -/

theorem isHexDigit_digitChar (h : n < 16) : IsHexDigit (Nat.digitChar n) n := ⟨h, .inl rfl⟩

/-- A character below 256 is written by the two digits of its code. -/
theorem spellsChar_hex {x y : Nat} (hx : x < 16) (hy : y < 16) (hc : c.toNat = 16 * x + y) :
    SpellsChar c ['\\', 'u', '0', '0', Nat.digitChar x, Nat.digitChar y] := by
  have hzero : IsHexDigit '0' 0 := isHexDigit_digitChar (by decide)
  have hcode := IsHex4.mk hzero hzero (isHexDigit_digitChar hx) (isHexDigit_digitChar hy)
  refine .code ?_
  rwa [hc, show 16 * x + y = 0x1000 * 0 + 0x100 * 0 + 0x10 * x + y by omega]

/-- A written character is one of its spellings. -/
theorem spellsChar_encodeChar (c : Char) : SpellsChar c (Quoted.encodeChar c) := by
  rw [Quoted.encodeChar]
  -- The characters with escapes of their own come first, one after the other.
  by_cases hquote : c = '"'
  · rw [if_pos hquote, hquote]; exact .short (by decide)
  rw [if_neg hquote]
  by_cases hback : c = '\\'
  · rw [if_pos hback, hback]; exact .short (by decide)
  rw [if_neg hback]
  by_cases hb : c = '\x08'
  · rw [if_pos hb, hb]; exact .short (by decide)
  rw [if_neg hb]
  by_cases hf : c = '\x0c'
  · rw [if_pos hf, hf]; exact .short (by decide)
  rw [if_neg hf]
  by_cases hn : c = '\n'
  · rw [if_pos hn, hn]; exact .short (by decide)
  rw [if_neg hn]
  by_cases hr : c = '\r'
  · rw [if_pos hr, hr]; exact .short (by decide)
  rw [if_neg hr]
  by_cases ht : c = '\t'
  · rw [if_pos ht, ht]; exact .short (by decide)
  rw [if_neg ht]
  by_cases h16 : c.toNat < 16
  · rw [if_pos h16]
    exact spellsChar_hex (x := 0) (by decide) h16 (by omega)
  rw [if_neg h16]
  by_cases h32 : c.toNat < 32
  · rw [if_pos h32]
    exact spellsChar_hex (x := 1) (by decide) (by omega) (by omega)
  rw [if_neg h32]
  exact .plain ⟨by omega, hquote, hback⟩

theorem spellsChars_encode (cs : List Char) : SpellsChars cs (cs.flatMap Quoted.encodeChar) := by
  induction cs with
  | nil => exact .nil
  | cons c cs ih => exact .cons (spellsChar_encodeChar c) ih

theorem stringText_encode (s : String) : StringText s (Quoted.encode s.toList) :=
  ⟨_, spellsChars_encode s.toList, rfl⟩

end LivePreview.Json
