/-
  LivePreview.Html.Escape

  Texts made fit to stand in an HTML document: between tags or in an attribute,
  and inside a script element.
-/

import LivePreview.Pattern.Replace
import LivePreview.Script.Shape

namespace LivePreview.Html

/-- The text with every occurrence of a character replaced. -/
def replaceChar (c : Char) (new : List Char) (s : List Char) : List Char :=
  s.flatMap fun d => if d = c then new else [d]

/-- Ampersands are replaced first, so that those of the other entities stay. -/
def escapeChars (s : List Char) : List Char :=
  replaceChar '"' "&quot;".toList
    (replaceChar '>' "&gt;".toList (replaceChar '<' "&lt;".toList
      (replaceChar '&' "&amp;".toList s)))

/-- The entity of a character that may not stand in markup, else the character. -/
def entity (c : Char) : List Char :=
  if c = '&' then "&amp;".toList
  else if c = '<' then "&lt;".toList
  else if c = '>' then "&gt;".toList
  else if c = '"' then "&quot;".toList
  else [c]

theorem replaceChar_append (c : Char) (new s t : List Char) :
    replaceChar c new (s ++ t) = replaceChar c new s ++ replaceChar c new t := by
  simp [replaceChar]

private theorem replaceChar_singleton (c : Char) (new : List Char) (d : Char) :
    replaceChar c new [d] = if d = c then new else [d] := by
  simp [replaceChar]

/-- An entity is left alone by the replacement of a character that is not in
    it. -/
private theorem replaceChar_of_not_mem {c : Char} {new s : List Char} (h : c ∉ s) :
    replaceChar c new s = s := by
  induction s with
  | nil => rfl
  | cons d ds ih =>
    simp only [List.mem_cons, not_or] at h
    rw [← List.singleton_append, replaceChar_append, ih h.2, replaceChar_singleton,
      if_neg (Ne.symm h.1)]

private theorem escapeChars_singleton (c : Char) : escapeChars [c] = entity c := by
  unfold escapeChars entity
  rw [replaceChar_singleton]
  split
  · rw [replaceChar_of_not_mem (by decide), replaceChar_of_not_mem (by decide),
      replaceChar_of_not_mem (by decide)]
  · rw [replaceChar_singleton]
    split
    · rw [replaceChar_of_not_mem (by decide), replaceChar_of_not_mem (by decide)]
    · rw [replaceChar_singleton]
      split
      · rw [replaceChar_of_not_mem (by decide)]
      · rw [replaceChar_singleton]

/-- The replacements one after the other act on each character by itself. -/
theorem escapeChars_eq_flatMap (s : List Char) : escapeChars s = s.flatMap entity := by
  induction s with
  | nil => rfl
  | cons c cs ih =>
    have hstep : escapeChars ([c] ++ cs) = escapeChars [c] ++ escapeChars cs := by
      simp only [escapeChars, replaceChar_append]
    rw [← List.singleton_append, hstep, escapeChars_singleton, ih]
    rfl

theorem escapeChars_cons (c : Char) (s : List Char) :
    escapeChars (c :: s) = entity c ++ escapeChars s := by
  rw [escapeChars_eq_flatMap, escapeChars_eq_flatMap, List.flatMap_cons]

/-- What would begin or end a tag, or end an attribute, is in no entity. -/
theorem not_mem_entity {c : Char} (hc : c ∈ ['<', '>', '"']) (d : Char) : c ∉ entity d := by
  simp only [List.mem_cons, List.not_mem_nil, or_false] at hc
  unfold entity
  split
  · rcases hc with rfl | rfl | rfl <;> decide
  split
  · rcases hc with rfl | rfl | rfl <;> decide
  split
  · rcases hc with rfl | rfl | rfl <;> decide
  split
  · rcases hc with rfl | rfl | rfl <;> decide
  · rw [List.mem_singleton]
    rintro rfl
    simp_all

theorem not_mem_escapeChars {c : Char} (hc : c ∈ ['<', '>', '"']) (s : List Char) :
    c ∉ escapeChars s := by
  rw [escapeChars_eq_flatMap, List.mem_flatMap]
  rintro ⟨d, -, hd⟩
  exact not_mem_entity hc d hd

/-- A text as it can stand between tags or in a quoted attribute. -/
def escape (s : String) : String := String.ofList (escapeChars s.toList)

theorem toList_escape (s : String) : (escape s).toList = escapeChars s.toList :=
  String.toList_ofList

/-- Script text in which no closing tag of a script element is left: a backslash
    keeps `</` and `script` apart. -/
def escapeScriptChars (code : List Char) : List Char :=
  Script.Shape.scriptClose.replace (fun _ => "<\\/script".toList) code

/-- A text as it can stand inside a script element. -/
def escapeScript (code : String) : String := String.ofList (escapeScriptChars code.toList)

end LivePreview.Html
