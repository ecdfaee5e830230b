/-
  LivePreview.Json.Reader

  Readers for values of a known shape: strings, sequences, maps, and records,
  which may be written as objects or as arrays of their fields.
-/

import LivePreview.Json.Skip
import LivePreview.Table

namespace LivePreview.Json

/-! ## Other shapes -/

/-- The fault of a value that should have another shape.  A string or a number is
    read to its end before it is refused, an array or object only to its opening
    bracket. -/
def faultAt (expected : Expected) : List Char → Fault
  | [] => .ended
  | 'n' :: rest => ofWord (readWord ['u', 'l', 'l'] rest) .null
  | 't' :: rest => ofWord (readWord ['r', 'u', 'e'] rest) (.boolean true)
  | 'f' :: rest => ofWord (readWord ['a', 'l', 's', 'e'] rest) (.boolean false)
  | '"' :: rest =>
    match readChars rest with
    | .error e => e
    | .ok (value, _) => wrong (.string value)
  | '-' :: rest => ofNumeral true (readNumeral .ended rest)
  | '[' :: _ => wrong .sequence
  | '\x7b' :: _ => wrong .map
  | c :: rest =>
    if c.isDigit then ofNumeral false (readNumeral .ended (c :: rest)) else .malformed
where
  /-- The fault of having found something else. -/
  wrong (found : Found) : Fault := .mismatch (.wrongType found expected)
  /-- The fault at one of the three words. -/
  ofWord (read : Except Fault (List Char)) (found : Found) : Fault :=
    match read with
    | .error e => e
    | .ok _ => wrong found
  /-- The fault at a number. -/
  ofNumeral (negative : Bool) (read : Except Fault (Numeral × List Char)) : Fault :=
    match read with
    | .error e => e
    | .ok (n, _) =>
      match n.found? negative with
      | none => .malformed
      | some found => wrong found

/-! ## Strings, sequences and maps -/

/-- A string. -/
def readString : Reader String := fun s =>
  match skipSpace s with
  | '"' :: rest => (readChars rest).map fun (value, rest) => (String.ofList value, rest)
  | s => .error (faultAt .string s)

/-- What stands before an element of an array: `some` with the text at the
    element, or `none` with the text behind the bracket that ends the array.
    Elements after the first stand behind a comma. -/
def nextElement (first : Bool) (s : List Char) :
    Except Fault (Option (List Char) × List Char) :=
  match skipSpace s with
  | [] => .error .ended
  | ']' :: rest => .ok (none, rest)
  | c :: rest =>
    if first then .ok (some (c :: rest), [])
    else if c = ',' then
      match skipSpace rest with
      | [] => .error .ended
      | ']' :: _ => .error .malformed
      | rest => .ok (some rest, [])
    else .error .malformed

/-- What stands before a key of an object: `some` with the text behind its opening
    quote, or `none` with the text behind the brace that ends the object. -/
def nextKey (first : Bool) (s : List Char) : Except Fault (Option (List Char) × List Char) :=
  match skipSpace s with
  | [] => .error .ended
  | '\x7d' :: rest => .ok (none, rest)
  | c :: rest =>
    if first then
      if c = '"' then .ok (some rest, []) else .error .malformed
    else if c = ',' then
      match skipSpace rest with
      | [] => .error .ended
      | '"' :: rest => .ok (some rest, [])
      | _ => .error .malformed
    else .error .malformed

/-- The text behind the colon of a member. -/
def readColon (s : List Char) : Except Fault (List Char) :=
  match skipSpace s with
  | [] => .error .ended
  | ':' :: rest => .ok rest
  | _ => .error .malformed

variable {α : Type}

/-- The elements of an array from its opening bracket or from an element on; there
    are fewer than `n` of them. -/
def readElementsWithin (item : Reader α) : Nat → Bool → Reader (List α)
  | 0, _, _ => .error .ended
  | n + 1, first, s =>
    match nextElement first s with
    | .error e => .error e
    | .ok (none, rest) => .ok ([], rest)
    | .ok (some s, _) =>
      match item s with
      | .error e => .error e
      | .ok (a, s) => (readElementsWithin item n false s).map fun (as, rest) => (a :: as, rest)

/-- An array of values of one shape. -/
def readSequence (item : Reader α) : Reader (List α) := fun s =>
  match skipSpace s with
  | '[' :: rest => readElementsWithin item (rest.length + 1) true rest
  | s => .error (faultAt .sequence s)

/-- The members of an object from its opening brace or from a member on; there are
    fewer than `n` of them. -/
def readMembersWithin (item : Reader α) : Nat → Bool → Reader (List (String × α))
  | 0, _, _ => .error .ended
  | n + 1, first, s =>
    match nextKey first s with
    | .error e => .error e
    | .ok (none, rest) => .ok ([], rest)
    | .ok (some s, _) =>
      match readChars s with
      | .error e => .error e
      | .ok (key, s) =>
        match readColon s with
        | .error e => .error e
        | .ok s =>
          match item s with
          | .error e => .error e
          | .ok (a, s) =>
            (readMembersWithin item n false s).map fun (ms, rest) =>
              ((String.ofList key, a) :: ms, rest)

/-- An object with values of one shape; of a repeated key the last value counts,
    at the place of the first. -/
def readMap (item : Reader α) : Reader (Table α) := fun s =>
  match skipSpace s with
  | '\x7b' :: rest =>
    (readMembersWithin item (rest.length + 1) true rest).map fun (ms, rest) =>
      (.ofList ms, rest)
  | s => .error (faultAt .map s)

/-! ## Records -/

/-- A field of a record: its name, whether it may be missing, and the reader of
    its value, which says how the record changes. -/
structure Field (σ : Type) where
  name : String
  required : Bool
  read : Reader (σ → σ)

/-- A field that holds a text. -/
def Field.text {σ : Type} (name : String) (required : Bool) (set : String → σ → σ) : Field σ :=
  ⟨name, required, fun s => (readString s).map fun (value, rest) => (set value, rest)⟩

/-- A record: its name, its fields in the order of their declaration, and its
    value when no field is set. -/
structure Record (σ : Type) where
  name : String
  fields : List (Field σ)
  start : σ

namespace Record

variable {σ : Type}

/-- The first required field that was not seen. -/
def missing? (r : Record σ) (seen : List String) : Option String :=
  (r.fields.find? fun f => f.required && !seen.contains f.name).map (·.name)

/-- The members of an object from its opening brace or from a member on; there are
    fewer than `n` of them. -/
def readMembersWithin (r : Record σ) : Nat → Bool → List String → σ → Reader σ
  | 0, _, _, _, _ => .error .ended
  | n + 1, first, seen, x, s =>
    match nextKey first s with
    | .error e => .error e
    | .ok (none, rest) =>
      match r.missing? seen with
      | some field => .error (.mismatch (.missingField field))
      | none => .ok (x, rest)
    | .ok (some s, _) =>
      match readChars s with
      | .error e => .error e
      | .ok (key, s) =>
        let key := String.ofList key
        match r.fields.find? (·.name == key) with
        | none =>
          -- Nobody asked for this member, but it has to be one.
          match readColon s with
          | .error e => .error e
          | .ok s =>
            match skipValue s with
            | .error e => .error e
            | .ok s => readMembersWithin r n false seen x s
        | some field =>
          -- The second key is refused before its value is looked at.
          if seen.contains key then .error (.mismatch (.duplicateField key))
          else
            match readColon s with
            | .error e => .error e
            | .ok s =>
              match field.read s with
              | .error e => .error e
              | .ok (change, s) => readMembersWithin r n false (key :: seen) (change x) s

/-- The elements of an array that stands for a record, when `found` fields were
    read and these are left. -/
def readElements (r : Record σ) : Nat → List (Field σ) → σ → Reader σ
  | _, [], x, s =>
    match skipSpace s with
    | [] => .error .ended
    | ']' :: rest => .ok (x, rest)
    | _ => .error .malformed
  | found, field :: fields, x, s =>
    match nextElement (found == 0) s with
    | .error e => .error e
    | .ok (none, rest) =>
      -- The elements that are not there take the value they have from the start.
      if (field :: fields).any (·.required) then
        .error (.mismatch (.wrongLength found r.name r.fields.length))
      else .ok (x, rest)
    | .ok (some s, _) =>
      match field.read s with
      | .error e => .error e
      | .ok (change, s) => readElements r (found + 1) fields (change x) s

/-- A record as an object or as an array of its fields. -/
def read (r : Record σ) : Reader σ := fun s =>
  match skipSpace s with
  | '\x7b' :: rest => r.readMembersWithin (rest.length + 1) true [] r.start rest
  | '[' :: rest => r.readElements 0 r.fields r.start rest
  | s => .error (faultAt (.record r.name) s)

end Record

/-! ## Whole texts -/

/-- The value of a text that holds nothing else. -/
def parse (read : Reader α) (text : String) : Except Fault α :=
  match read text.toList with
  | .error e => .error e
  | .ok (a, rest) => if (skipSpace rest).isEmpty then .ok a else .error .malformed

end LivePreview.Json
