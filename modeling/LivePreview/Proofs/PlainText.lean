/-
  LivePreview.Proofs.PlainText

  Texts in which neither leading word stands.  Nothing is matched in them, so the rest of
  an item stays behind a match at its beginning.
-/

import LivePreview.Proofs.Shapes

namespace LivePreview.Script

open Pattern

variable {last : Option Char}

/-! ## Lines that stay -/

theorem Keywordless.mono {s t : List Char} (h : Keywordless s) (ht : t <:+: s) :
    Keywordless t :=
  ⟨fun hi => h.1 (hi.trans ht), fun he => h.2 (he.trans ht)⟩

theorem Keywordless.of_suffix {s t : List Char} (h : Keywordless (s ++ t)) : Keywordless t :=
  h.mono (List.suffix_append s t).isInfix

/-- A line of plain text stays. -/
theorem reads_plain {p : Pattern} {f : Match → List Char} (hp : p.LedBy "export".toList)
    {s : List Char} (hs : Keywordless s) (r : List Char) :
    p.Reads f last (s ++ ['\n']) r (s ++ ['\n']) [] :=
  hp.reads_line (by decide) hs.2

theorem reads_plain_of_import {p : Pattern} {f : Match → List Char} (hp : p.LedBy "import".toList)
    {s : List Char} (hs : Keywordless s) (r : List Char) :
    p.Reads f last (s ++ ['\n']) r (s ++ ['\n']) [] :=
  hp.reads_line (by decide) hs.1

/-- An item that begins with `export` stays if nothing matches at its beginning. -/
theorem reads_exported {p : Pattern} {f : Match → List Char} (hp : p.LedBy "export".toList)
    {s r : List Char} (hs : Keywordless s)
    (hfails : p.Fails last ("export".toList ++ (s ++ '\n' :: r))) :
    p.Reads f last ("export".toList ++ s ++ ['\n']) r ("export".toList ++ s ++ ['\n']) [] :=
  hp.reads_word (by decide) (by decide) hs.2 hfails

theorem reads_imported {p : Pattern} {f : Match → List Char} (hp : p.LedBy "import".toList)
    {s r : List Char} (hs : Keywordless s)
    (hfails : p.Fails last ("import".toList ++ (s ++ '\n' :: r))) :
    p.Reads f last ("import".toList ++ s ++ ['\n']) r ("import".toList ++ s ++ ['\n']) [] :=
  hp.reads_word (by decide) (by decide) hs.1 hfails

/-- An item without `import` stays when imports are looked for. -/
theorem reads_exported_of_import {p : Pattern} {f : Match → List Char}
    (hp : p.LedBy "import".toList) {s : List Char} (hs : Keywordless s) (r : List Char) :
    p.Reads f last ("export".toList ++ s ++ ['\n']) r ("export".toList ++ s ++ ['\n']) [] :=
  hp.reads_line (by decide) (not_infix_append (by decide) hs.1)

/-- A line that follows some written text stays. -/
theorem reads_written {p : Pattern} {f : Match → List Char} (hp : p.LedBy "export".toList)
    {s t : List Char} (hs : 'e' ∉ s) (ht : Keywordless t) (r : List Char) :
    p.Reads f last (s ++ t ++ ['\n']) r (s ++ t ++ ['\n']) [] :=
  hp.reads_line (by decide) (not_infix_append hs ht.2)

theorem reads_lineFeed {p : Pattern} {f : Match → List Char} (hp : p.LedBy "export".toList)
    (r : List Char) : p.Reads f last ['\n'] r ['\n'] [] :=
  reads_plain hp (s := []) (by decide) r

/-- A match at the beginning of an item is replaced, and the plain text behind it stays. -/
theorem reads_rewritten {p : Pattern} {f : Match → List Char} (hp : p.LedBy "export".toList)
    {t s r : List Char} {gs : List (List Char)}
    (hmatch : p.Prefers last t (s ++ ['\n'] ++ r) gs) (ht : t ≠ []) (hs : Keywordless s) :
    p.Reads f last (t ++ (s ++ ['\n'])) r (f ⟨t, gs⟩ ++ (s ++ ['\n'])) [gs] :=
  hp.reads_match (by decide) hmatch ht hs.2

/-- An import holds nothing that begins with `export`. -/
theorem reads_importing {p : Pattern} {f : Match → List Char} (hp : p.LedBy "export".toList)
    {indent : Spaces} {gap : Gap} {clause : Clause} {s : Specifier} {ending : Ending}
    (hi : (Item.importing indent gap clause s ending).WellFormed) (r : List Char) :
    p.Reads f last (Item.importing indent gap clause s ending).text r
      (Item.importing indent gap clause s ending).text [] := by
  have hlead : 'e' ∉ indent.chars ++ "import".toList := by
    intro h
    rcases List.mem_append.mp h with h | h
    · exact absurd (indent.indent 'e' h) (by decide)
    · exact absurd h (by decide)
  exact reads_written hp hlead hi.1 r

/-! ## Parts of well-formed items -/

theorem keywordless_name_text {g₁ g₂ g₃ : Gap} {n : Name} {text : List Char}
    (h : (Item.defaultFunction g₁ g₂ g₃ n text).WellFormed) : Keywordless (n.chars ++ text) := by
  have hbody := h.1
  rw [Item.body_defaultFunction] at hbody
  exact hbody.of_suffix.of_suffix.of_suffix.of_suffix.of_suffix

theorem keywordless_value {g₁ g₂ : Gap} {v : Value}
    (h : (Item.defaultValue g₁ g₂ v).WellFormed) : Keywordless v.chars :=
  h.1.of_suffix

theorem keywordless_declared {g : Gap} {k : Keyword} {d : Declared}
    (h : (Item.declaration g k d).WellFormed) : Keywordless d.chars :=
  h.1.of_suffix

theorem stops_value {g₁ g₂ : Gap} {v : Value} (h : (Item.defaultValue g₁ g₂ v).WellFormed)
    (r : List Char) : Stops Text.isBlank (v.chars ++ r) := by
  have hshape := h.2
  rw [Item.isShaped, Bool.and_eq_true] at hshape
  exact stops_append hshape.1 r

end LivePreview.Script
