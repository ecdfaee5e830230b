/-
  LivePreview.Script.Shape

  The textual shapes of module syntax.  Scripts are not parsed: each shape is a
  pattern that is looked for anywhere in the text, also inside comments and
  strings.
-/

import LivePreview.Script.Identifier

namespace LivePreview.Script.Shape

open Pattern

/-! ## Parts -/

/-- White space, any number. -/
def blanks : Pattern := many Text.isBlank

/-- White space, at least one. -/
def blanks1 : Pattern := many1 Text.isBlank

/-- Spaces and tabs, any number. -/
def indent : Pattern := many fun c => c == ' ' || c == '\t'

/-- A single or double quote. -/
def isQuote (c : Char) : Bool := c == '\'' || c == '"'

/-- A character of a quoted specifier that stays on its line. -/
def isSpecifierPart (c : Char) : Bool := !isQuote c && c != '\n'

/-- A quoted text on one line, empty or not. -/
def quotedSpecifier : Pattern := one isQuote ++ many isSpecifierPart ++ one isQuote

/-- A character of the clause between `import` and `from`. -/
def isClausePart (c : Char) : Bool :=
  Text.isWord c || c == '$' || c == '*' || c == '\x7b' || c == '\x7d' || Text.isBlank c || c == ','

/-- The indentation of a line that begins here. -/
def lineIndent : Pattern := optional (lineStart ++ indent)

/-- The word `async` and white space, if present. -/
def optionalAsync : Pattern := optional (literal "async" ++ blanks1)

/-! ## What is recorded -/

/-- `export default`, an optional `function`, and the name. -/
def defaultExport : Pattern :=
  literal "export" ++ blanks1 ++ literal "default" ++ blanks1 ++
    optional (literal "function" ++ blanks1) ++ group identifier

/-- `export` and a declaration, with the declared name. -/
def namedExport : Pattern :=
  literal "export" ++ blanks1 ++ oneOf ["function", "const", "let", "var"] ++ blanks1 ++
    group identifier

/-- `import` of one name, with the name and the specifier. -/
def defaultImport : Pattern :=
  literal "import" ++ blanks1 ++ group identifier ++ blanks1 ++ literal "from" ++ blanks1 ++
    one isQuote ++ group (many1 fun c => !isQuote c) ++ one isQuote

/-! ## What is stripped -/

/-- An import statement of any form, with the indentation before it and the end
    of the line after it. -/
def importStatement : Pattern :=
  lineIndent ++ wordBoundary ++ literal "import" ++ blanks1 ++
    optional (few1 isClausePart ++ blanks ++ literal "from" ++ blanks) ++
    quotedSpecifier ++ indent ++ optional (char ';') ++ indent ++
    optional (char '\r') ++ optional (char '\n')

/-- `export` of a list of names or of everything, with an optional source. -/
def exportList : Pattern :=
  lineIndent ++ wordBoundary ++ literal "export" ++ blanks ++
    (char '\x7b' ++ many (· != '\x7d') ++ char '\x7d' |||
      char '*' ++ optional (blanks ++ literal "as" ++ blanks1 ++ identifier)) ++
    optional (blanks ++ literal "from" ++ blanks ++ quotedSpecifier) ++ indent ++
    optional (char ';')

/-- `export default function` and the name. -/
def defaultFunction : Pattern :=
  literal "export" ++ blanks1 ++ literal "default" ++ blanks1 ++ literal "function" ++
    blanks1 ++ group identifier

/-- `export default` before anything else. -/
def defaultExpression : Pattern := literal "export" ++ blanks1 ++ literal "default" ++ blanks1

/-- `export` before a declaration, with the words that begin the declaration. -/
def exportedDeclaration : Pattern :=
  literal "export" ++ blanks1 ++
    group (optionalAsync ++ literal "function" ||| oneOf ["const", "let", "var", "class"]) ++
    wordBoundary

/-! ## What can be rendered -/

/-- The word `function` as it begins a declaration, perhaps of a generator. -/
def functionWord : Pattern :=
  literal "function" ++ (blanks ++ char '*' ++ blanks ||| blanks1)

/-- A declaration of the name `App` at the beginning of a line. -/
def appDeclaration : Pattern :=
  lineStart ++ optionalAsync ++
    (functionWord ||| oneOf ["class", "const", "let", "var"] ++ blanks1) ++
    literal "App" ++ wordBoundary

/-- A function with an uppercase name declared at the beginning of a line. -/
def componentFunction : Pattern :=
  lineStart ++ optionalAsync ++ functionWord ++
    group (one Char.isUpper ++ many isIdentifierPart)

/-- The closing tag of a script element in any case; the long s folds to s. -/
def scriptClose : Pattern :=
  char '<' ++ char '/' ++ one (fun c => c == 's' || c == 'S' || c == '\u017f') ++
    one (fun c => c == 'c' || c == 'C') ++ one (fun c => c == 'r' || c == 'R') ++
    one (fun c => c == 'i' || c == 'I') ++ one (fun c => c == 'p' || c == 'P') ++
    one (fun c => c == 't' || c == 'T')

end LivePreview.Script.Shape
