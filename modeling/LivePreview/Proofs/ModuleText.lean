/-
  LivePreview.Proofs.ModuleText

  Scripts as sequences of items: plain text, import statements, default exports,
  exported declarations and export lists, each up to the end of its line.

  An item is its leading word `import` or `export`, if it has one, and a body in which
  neither word occurs (`Item.WellFormed`).  The white space between the words of an
  item may be of any kind and length, line feeds included.  For this reason an item that
  breaks off can be carried on by what stands behind it: `function` by a name, a bare
  `*` by `as` and a name, `const` by a name.
-/

import LivePreview.Script.StrippedModule
import Mathlib.Data.List.Infix

namespace LivePreview.Script

/-! ## Parts of items -/

/-- White space, perhaps none. -/
structure White where
  chars : List Char
  blank : ∀ c ∈ chars, Text.isBlank c = true

/-- White space, at least one character. -/
structure Gap extends White where
  nonempty : chars ≠ []

/-- Spaces and tabs, perhaps none. -/
structure Spaces where
  chars : List Char
  indent : ∀ c ∈ chars, (c == ' ' || c == '\t') = true

def White.empty : White := ⟨[], by simp⟩

def Spaces.empty : Spaces := ⟨[], by simp⟩

def Gap.space : Gap := ⟨⟨[' '], List.all_eq_true.mp (by decide)⟩, by simp⟩

/-- An identifier. -/
structure Name where
  chars : List Char
  valid : isIdentifier chars = true

/-- A specifier with its quotes, on one line. -/
structure Specifier where
  opening : Char
  text : List Char
  closing : Char
  opening_isQuote : Shape.isQuote opening = true
  isSpecifierPart_of_mem : ∀ c ∈ text, Shape.isSpecifierPart c = true
  closing_isQuote : Shape.isQuote closing = true

def Specifier.chars (s : Specifier) : List Char := s.opening :: (s.text ++ [s.closing])

/-- The text of a clause: names, braces, stars, commas and white space. -/
structure ClauseText where
  chars : List Char
  nonempty : chars ≠ []
  isClausePart_of_mem : ∀ c ∈ chars, Shape.isClausePart c = true

/-- What stands between `import` and the specifier. -/
inductive Clause where
  /-- Nothing: the module is imported for its effects. -/
  | none
  /-- One name and `from`. -/
  | name (name : Name) (before after : Gap)
  /-- Anything else and `from`. -/
  | other (text : ClauseText) (after : White)

def Clause.chars : Clause → List Char
  | none => []
  | name n before after => n.chars ++ before.chars ++ "from".toList ++ after.chars
  | other text after => text.chars ++ "from".toList ++ after.chars

/-- What stands behind the specifier of an import: spaces, and perhaps a semicolon and
    more spaces. -/
structure Ending where
  before : Spaces
  semicolon : Option Spaces

def Ending.chars (e : Ending) : List Char :=
  e.before.chars ++ match e.semicolon with
    | some after => ';' :: after.chars
    | none => []

/-- What is exported as the default. -/
inductive Value where
  /-- The binding of that name, with a semicolon. -/
  | name (name : Name)
  /-- Any other text. -/
  | other (text : List Char)

def Value.chars : Value → List Char
  | name n => n.chars ++ [';']
  | other text => text

/-- The word that begins a declaration. -/
inductive Keyword where
  | function
  | asyncFunction (gap : Gap)
  | constWord
  | letWord
  | varWord
  | classWord

def Keyword.chars : Keyword → List Char
  | function => "function".toList
  | asyncFunction gap => "async".toList ++ gap.chars ++ "function".toList
  | constWord => "const".toList
  | letWord => "let".toList
  | varWord => "var".toList
  | classWord => "class".toList

/-- What stands behind the word that begins a declaration. -/
inductive Declared where
  /-- The declared name and plain text. -/
  | name (gap : Gap) (name : Name) (text : List Char)
  /-- Any other plain text. -/
  | other (text : List Char)

def Declared.chars : Declared → List Char
  | name gap n text => gap.chars ++ n.chars ++ text
  | other text => text

/-- What an export list lists. -/
inductive Listed where
  | names (text : List Char) (closed : '\x7d' ∉ text)
  | all
  | allAs (before : White) (after : Gap) (name : Name)

def Listed.chars : Listed → List Char
  | names text _ => '\x7b' :: (text ++ ['\x7d'])
  | all => ['*']
  | allAs before after n => '*' :: (before.chars ++ "as".toList ++ after.chars ++ n.chars)

/-- The module that an export list takes its names from. -/
structure Source where
  before : White
  after : White
  specifier : Specifier

def Source.chars (s : Source) : List Char :=
  s.before.chars ++ "from".toList ++ s.after.chars ++ s.specifier.chars

/-! ## Items -/

/-- A part of a script, without the line feed behind it. -/
inductive Item where
  | plain (text : List Char)
  | importing (indent : Spaces) (gap : Gap) (clause : Clause) (specifier : Specifier)
      (ending : Ending)
  | defaultFunction (gap₁ gap₂ gap₃ : Gap) (name : Name) (text : List Char)
  | defaultValue (gap₁ gap₂ : Gap) (value : Value)
  | declaration (gap : Gap) (keyword : Keyword) (declared : Declared)
  | list (gap : White) (listed : Listed) (source : Option Source) (before : Spaces)
      (semicolon : Bool)

namespace Item

/-- What stands before the leading word. -/
def lead : Item → List Char
  | importing indent _ _ _ _ => indent.chars
  | _ => []

/-- The leading word. -/
def word : Item → List Char
  | plain _ => []
  | importing .. => "import".toList
  | _ => "export".toList

/-- What stands behind the source of an export list. -/
def listEnd (before : Spaces) (semicolon : Bool) : List Char :=
  before.chars ++ if semicolon then [';'] else []

/-- What stands behind the listed names. -/
def listTail (source : Option Source) (before : Spaces) (semicolon : Bool) : List Char :=
  (source.map Source.chars).getD [] ++ listEnd before semicolon

/-- What stands behind the leading word. -/
def body : Item → List Char
  | plain text => text
  | importing _ gap clause specifier ending =>
    gap.chars ++ clause.chars ++ specifier.chars ++ ending.chars
  | defaultFunction gap₁ gap₂ gap₃ name text =>
    gap₁.chars ++ "default".toList ++ gap₂.chars ++ "function".toList ++ gap₃.chars ++
      name.chars ++ text
  | defaultValue gap₁ gap₂ value => gap₁.chars ++ "default".toList ++ gap₂.chars ++ value.chars
  | declaration gap keyword declared => gap.chars ++ keyword.chars ++ declared.chars
  | list gap listed source before semicolon =>
    gap.chars ++ listed.chars ++ listTail source before semicolon

theorem body_defaultFunction (gap₁ gap₂ gap₃ : Gap) (name : Name) (text : List Char) :
    (defaultFunction gap₁ gap₂ gap₃ name text).body = gap₁.chars ++ ("default".toList ++
      (gap₂.chars ++ ("function".toList ++ (gap₃.chars ++ (name.chars ++ text))))) := by
  unfold body
  simp only [List.append_assoc]

theorem body_defaultValue (gap₁ gap₂ : Gap) (value : Value) :
    (defaultValue gap₁ gap₂ value).body =
      gap₁.chars ++ ("default".toList ++ (gap₂.chars ++ value.chars)) := by
  unfold body
  simp only [List.append_assoc]

theorem body_declaration (gap : Gap) (keyword : Keyword) (declared : Declared) :
    (declaration gap keyword declared).body = gap.chars ++ (keyword.chars ++ declared.chars) := by
  unfold body
  simp only [List.append_assoc]

/-- The item with the line feed behind it. -/
def text (i : Item) : List Char := i.lead ++ i.word ++ i.body ++ ['\n']

theorem text_importing (indent : Spaces) (gap : Gap) (clause : Clause) (s : Specifier)
    (ending : Ending) : (importing indent gap clause s ending).text = indent.chars ++
      ("import".toList ++ gap.chars ++ clause.chars ++ s.chars ++ (ending.chars ++ ['\n'])) := by
  show indent.chars ++ "import".toList ++
    (gap.chars ++ clause.chars ++ s.chars ++ ending.chars) ++ ['\n'] = _
  simp only [List.append_assoc]

theorem text_defaultFunction (gap₁ gap₂ gap₃ : Gap) (name : Name) (text : List Char) :
    (defaultFunction gap₁ gap₂ gap₃ name text).text = "export".toList ++ gap₁.chars ++
      "default".toList ++ gap₂.chars ++ "function".toList ++ gap₃.chars ++ name.chars ++
        (text ++ ['\n']) := by
  show "export".toList ++ (defaultFunction gap₁ gap₂ gap₃ name text).body ++ ['\n'] = _
  rw [body_defaultFunction]
  simp only [List.append_assoc]

theorem text_defaultValue (gap₁ gap₂ : Gap) (value : Value) :
    (defaultValue gap₁ gap₂ value).text = "export".toList ++ gap₁.chars ++ "default".toList ++
      gap₂.chars ++ (value.chars ++ ['\n']) := by
  show "export".toList ++ (defaultValue gap₁ gap₂ value).body ++ ['\n'] = _
  rw [body_defaultValue]
  simp only [List.append_assoc]

theorem text_declaration (gap : Gap) (keyword : Keyword) (declared : Declared) :
    (declaration gap keyword declared).text =
      "export".toList ++ gap.chars ++ keyword.chars ++ (declared.chars ++ ['\n']) := by
  show "export".toList ++ (declaration gap keyword declared).body ++ ['\n'] = _
  rw [body_declaration]
  simp only [List.append_assoc]

theorem text_list (gap : White) (listed : Listed) (source : Option Source) (before : Spaces)
    (semicolon : Bool) : (list gap listed source before semicolon).text = "export".toList ++
      gap.chars ++ listed.chars ++ listTail source before semicolon ++ ['\n'] := by
  show "export".toList ++ (gap.chars ++ listed.chars ++ listTail source before semicolon) ++
    ['\n'] = _
  simp only [List.append_assoc]

/-- The item is a default export. -/
def isDefault : Item → Bool
  | defaultFunction .. => true
  | defaultValue .. => true
  | _ => false

/-- The item is an export list. -/
def isList : Item → Bool
  | list .. => true
  | _ => false

end Item

/-- The text of some items. -/
def textOf (items : List Item) : List Char := items.flatMap Item.text

/-- The test holds of each item and the items behind it. -/
def eachWithBehind (test : List Item → Item → Bool) : List Item → Bool
  | [] => true
  | i :: behind => test behind i && eachWithBehind test behind

theorem eachWithBehind_of_suffix {test : List Item → Item → Bool} {items behind : List Item}
    {i : Item} (h : eachWithBehind test items = true) (hi : i :: behind <:+ items) :
    test behind i = true := by
  induction items with
  | nil => simp at hi
  | cons j rest ih =>
    rw [eachWithBehind, Bool.and_eq_true] at h
    -- The suffix is the whole list, or a suffix of the rest.
    rcases List.suffix_cons_iff.mp hi with heq | hrest
    · obtain ⟨rfl, rfl⟩ := List.cons.inj heq
      exact h.1
    · exact ih h.2 hrest

/-! ## Well-formed items -/

/-- The text does not begin with a character that would prolong a name. -/
def endsName (s : List Char) : Bool := !s.head?.any fun c => c == '$' || Text.isWord c

/-- White space and then an identifier stand at the beginning of the text. -/
def nameFollows (s : List Char) : Bool :=
  s.head?.any Text.isBlank && (s.dropWhile Text.isBlank).head?.any isIdentifierStart

/-- The word, white space and an identifier stand at the beginning of the text. -/
def wordThenName (word : String) (s : List Char) : Bool :=
  word.toList.isPrefixOf s && nameFollows (s.drop word.toList.length)

/-- The first text that is not white space is the word. -/
def leadsWith (word : String) (s : List Char) : Bool :=
  let t := s.dropWhile Text.isBlank
  word.toList.isPrefixOf t && endsName (t.drop word.toList.length)

/-- Neither of the two leading words occurs in the text. -/
def Keywordless (s : List Char) : Prop :=
  ¬ "import".toList <:+: s ∧ ¬ "export".toList <:+: s

instance (s : List Char) : Decidable (Keywordless s) := inferInstanceAs (Decidable (_ ∧ _))

namespace Item

/-- Names end where something else begins, and a default value begins at once and with no
    named function. -/
def isShaped : Item → Bool
  | defaultFunction _ _ _ _ text => endsName text
  | defaultValue _ _ value =>
    value.chars.head?.any (!Text.isBlank ·) && !wordThenName "function" value.chars
  | declaration _ _ declared => !declared.chars.head?.any Text.isWord
  | list _ (.allAs _ _ _) source before semicolon => endsName (listTail source before semicolon)
  | _ => true

/-- The leading words occur at the beginning of items only, and the item has its shape. -/
def WellFormed (i : Item) : Prop := Keywordless i.body ∧ i.isShaped = true

instance (i : Item) : Decidable i.WellFormed := inferInstanceAs (Decidable (_ ∧ _))

end Item

end LivePreview.Script
