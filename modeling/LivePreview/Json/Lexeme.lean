/-
  LivePreview.Json.Lexeme

  The words of a JSON text that are no numbers: white space, fixed words and
  strings.  Each reader takes the text from its place on and gives back what is
  left behind the word.
-/

import LivePreview.Json.Fault

namespace LivePreview.Json

/-- A reader: the value at the beginning of a text and the text behind it, or the
    first fault. -/
abbrev Reader (α : Type) : Type := List Char → Except Fault (α × List Char)

/-! ## White space -/

/-- The four characters that may stand between words. -/
def isSpace (c : Char) : Bool := c == ' ' || c == '\n' || c == '\t' || c == '\r'

/-- The text behind the white space. -/
def skipSpace (s : List Char) : List Char := s.dropWhile isSpace

/-- Reads the letters of a fixed word. -/
def readWord : List Char → List Char → Except Fault (List Char)
  | [], s => .ok s
  | _ :: _, [] => .error .ended
  | w :: ws, c :: cs => if c = w then readWord ws cs else .error .malformed

/-! ## Strings -/

/-- The value of a hexadecimal digit. -/
def hexValue? (c : Char) : Option Nat :=
  if c.isDigit then some (c.toNat - 48)
  else if 'a' ≤ c ∧ c ≤ 'f' then some (c.toNat - 87)
  else if 'A' ≤ c ∧ c ≤ 'F' then some (c.toNat - 55)
  else none

/-- The number written by four hexadecimal digits. -/
def hexValue4? (a b c d : Char) : Option Nat :=
  match hexValue? a, hexValue? b, hexValue? c, hexValue? d with
  | some a, some b, some c, some d => some (((a * 16 + b) * 16 + c) * 16 + d)
  | _, _, _, _ => none

/-- Four hexadecimal digits.  The text has ended when fewer than four bytes of
    UTF-8 are left. -/
def readHex4 : Reader Nat
  | a :: b :: c :: d :: rest =>
    match hexValue4? a b c d with
    | some n => .ok (n, rest)
    | none => .error .malformed
  | s => .error (if (String.ofList s).utf8ByteSize < 4 then .ended else .malformed)

/-- The character of an escape of one letter. -/
def escaped? : Char → Option Char
  | '"' => some '"'
  | '\\' => some '\\'
  | '/' => some '/'
  | 'b' => some '\x08'
  | 'f' => some '\x0c'
  | 'n' => some '\n'
  | 'r' => some '\r'
  | 't' => some '\t'
  | _ => none

/-- A number that stands for the first half of a pair. -/
def isHighSurrogate (n : Nat) : Bool := 0xd800 ≤ n && n ≤ 0xdbff

/-- A number that stands for the second half of a pair. -/
def isLowSurrogate (n : Nat) : Bool := 0xdc00 ≤ n && n ≤ 0xdfff

/-- The second half of a pair whose first half was read. -/
def readLowSurrogate (high : Nat) : Reader Char
  | '\\' :: 'u' :: s =>
    match readHex4 s with
    | .error e => .error e
    | .ok (low, rest) =>
      if isLowSurrogate low then
        .ok (Char.ofNat (0x10000 + (high - 0xd800) * 0x400 + (low - 0xdc00)), rest)
      else .error .malformed
  | [] => .error .ended
  | ['\\'] => .error .ended
  | _ => .error .malformed

/-- The character of an escape, behind its backslash. -/
def readEscape : Reader Char
  | [] => .error .ended
  | 'u' :: s =>
    match readHex4 s with
    | .error e => .error e
    | .ok (n, rest) =>
      if isLowSurrogate n then .error .malformed
      else if isHighSurrogate n then readLowSurrogate n rest
      else .ok (Char.ofNat n, rest)
  | c :: rest =>
    match escaped? c with
    | some d => .ok (d, rest)
    | none => .error .malformed

/-- The next character of a string, or `none` at its closing quote. -/
def readChar : Reader (Option Char)
  | [] => .error .ended
  | '"' :: rest => .ok (none, rest)
  | '\\' :: rest => (readEscape rest).map fun (c, rest) => (some c, rest)
  | c :: rest => if c.toNat < 32 then .error .malformed else .ok (some c, rest)

/-- The characters up to the closing quote, which is among the next `n`
    characters or missing. -/
def readCharsWithin : Nat → Reader (List Char)
  | 0, _ => .error .ended
  | n + 1, s =>
    match readChar s with
    | .error e => .error e
    | .ok (none, rest) => .ok ([], rest)
    | .ok (some c, rest) => (readCharsWithin n rest).map fun (cs, rest) => (c :: cs, rest)

/-- The characters of a string behind its opening quote. -/
def readChars : Reader (List Char) := fun s => readCharsWithin s.length s

/-- The text behind an escape that is not decoded. -/
def skipEscape : List Char → Except Fault (List Char)
  | [] => .error .ended
  | 'u' :: s => (readHex4 s).map Prod.snd
  | c :: rest => if (escaped? c).isSome then .ok rest else .error .malformed

/-- The text behind the closing quote of a string that is not decoded; the quote
    is among the next `n` characters or missing. -/
def skipCharsWithin : Nat → List Char → Except Fault (List Char)
  | 0, _ => .error .ended
  | _ + 1, [] => .error .ended
  | _ + 1, '"' :: rest => .ok rest
  | n + 1, '\\' :: rest =>
    match skipEscape rest with
    | .error e => .error e
    | .ok rest => skipCharsWithin n rest
  | n + 1, c :: rest => if c.toNat < 32 then .error .malformed else skipCharsWithin n rest

/-- The text behind a string that is not decoded, from behind its opening quote. -/
def skipChars (s : List Char) : Except Fault (List Char) := skipCharsWithin s.length s

end LivePreview.Json
