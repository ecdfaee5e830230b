/-
  LivePreview.Json.Skip

  Values that nobody asked for.  They have to be JSON, but nothing is kept of
  them: strings are not decoded, and a number that breaks off is malformed even
  at the end of the text.
-/

import LivePreview.Json.Numeral

namespace LivePreview.Json

mutual

/-- The text behind a value. -/
def skipValueWithin : Nat → List Char → Except Fault (List Char)
  | 0, _ => .error .ended
  | n + 1, s =>
    match skipSpace s with
    | [] => .error .ended
    | 'n' :: rest => readWord ['u', 'l', 'l'] rest
    | 't' :: rest => readWord ['r', 'u', 'e'] rest
    | 'f' :: rest => readWord ['a', 'l', 's', 'e'] rest
    | '"' :: rest => skipChars rest
    | '-' :: rest => (readNumeral .malformed rest).map Prod.snd
    | '[' :: rest =>
      match skipSpace rest with
      | ']' :: rest => .ok rest
      | _ => skipItemsWithin n rest
    | '\x7b' :: rest =>
      match skipSpace rest with
      | '\x7d' :: rest => .ok rest
      | _ => skipMembersWithin n rest
    | c :: rest =>
      if c.isDigit then (readNumeral .malformed (c :: rest)).map Prod.snd else .error .malformed

/-- The text behind the items of an array, from an item on. -/
def skipItemsWithin : Nat → List Char → Except Fault (List Char)
  | 0, _ => .error .ended
  | n + 1, s =>
    match skipValueWithin n s with
    | .error e => .error e
    | .ok s =>
      match skipSpace s with
      | [] => .error .ended
      | ']' :: rest => .ok rest
      | ',' :: rest => skipItemsWithin n rest
      | _ => .error .malformed

/-- The text behind the members of an object, from a member on. -/
def skipMembersWithin : Nat → List Char → Except Fault (List Char)
  | 0, _ => .error .ended
  | n + 1, s =>
    match skipSpace s with
    | [] => .error .ended
    | '"' :: s =>
      match skipChars s with
      | .error e => .error e
      | .ok s =>
        match skipSpace s with
        | [] => .error .ended
        | ':' :: s =>
          match skipValueWithin n s with
          | .error e => .error e
          | .ok s =>
            match skipSpace s with
            | [] => .error .ended
            | '\x7d' :: rest => .ok rest
            | ',' :: rest => skipMembersWithin n rest
            | _ => .error .malformed
        | _ => .error .malformed
    | _ => .error .malformed

end

/-- The text behind a value.  Each character is looked at in at most two steps. -/
def skipValue (s : List Char) : Except Fault (List Char) := skipValueWithin (2 * s.length + 1) s

end LivePreview.Json
