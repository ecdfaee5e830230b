/-
  LivePreview.Json.Value

  JSON values as they are written here: strings, arrays and objects, on one line
  or on a line for each item.
-/

import LivePreview.Json.Quoted

namespace LivePreview.Json

/-- A value to write.  The members of an object keep their order. -/
inductive Value where
  | string (text : String)
  | array (items : List Value)
  | object (members : List (String × Value))

namespace Value

/-! ## On one line -/

mutual

/-- The value without any white space. -/
def compactChars : Value → List Char
  | string text => Quoted.encode text.toList
  | array items => '[' :: compactItems items ++ [']']
  | object members => '\x7b' :: compactMembers members ++ ['\x7d']

/-- The items with commas between them. -/
def compactItems : List Value → List Char
  | [] => []
  | [v] => v.compactChars
  | v :: w :: rest => v.compactChars ++ ',' :: compactItems (w :: rest)

/-- The members with commas between them. -/
def compactMembers : List (String × Value) → List Char
  | [] => []
  | [(k, v)] => Quoted.encode k.toList ++ ':' :: v.compactChars
  | (k, v) :: m :: rest =>
    Quoted.encode k.toList ++ ':' :: v.compactChars ++ ',' :: compactMembers (m :: rest)

end

/-- The value without any white space. -/
def compact (v : Value) : String := String.ofList v.compactChars

/-! ## On several lines -/

/-- A new line with two spaces for each level. -/
def newline (level : Nat) : List Char := '\n' :: List.replicate (2 * level) ' '

mutual

/-- The value with every item and member on a line of its own. -/
def prettyChars (level : Nat) : Value → List Char
  | string text => Quoted.encode text.toList
  | array [] => ['[', ']']
  | array (v :: rest) => '[' :: prettyItems (level + 1) (v :: rest) ++ newline level ++ [']']
  | object [] => ['\x7b', '\x7d']
  | object (m :: rest) =>
    '\x7b' :: prettyMembers (level + 1) (m :: rest) ++ newline level ++ ['\x7d']

/-- The items, each on a new line, with commas between them. -/
def prettyItems (level : Nat) : List Value → List Char
  | [] => []
  | [v] => newline level ++ v.prettyChars level
  | v :: w :: rest => newline level ++ v.prettyChars level ++ ',' :: prettyItems level (w :: rest)

/-- The members, each on a new line, with commas between them. -/
def prettyMembers (level : Nat) : List (String × Value) → List Char
  | [] => []
  | [(k, v)] => newline level ++ Quoted.encode k.toList ++ ':' :: ' ' :: v.prettyChars level
  | (k, v) :: m :: rest =>
    newline level ++ Quoted.encode k.toList ++ ':' :: ' ' :: v.prettyChars level ++
      ',' :: prettyMembers level (m :: rest)

end

/-- The value with every item and member on a line of its own. -/
def pretty (v : Value) : String := String.ofList (v.prettyChars 0)

end Value

end LivePreview.Json
