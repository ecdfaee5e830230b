/-
  LivePreview.Json.Fault

  What can be wrong with a JSON text that is read for values of a known shape.
  The text is read from the front, so the first fault in it counts.
-/

import LivePreview.Number.Layout
import LivePreview.Text.Quoted

namespace LivePreview.Json

/-- What was found in place of the expected shape. -/
inductive Found where
  | null
  | boolean (value : Bool)
  | integer (value : Int)
  /-- A number that is no integer of a machine word. -/
  | decimal (negative : Bool) (magnitude : Number.Binary64)
  | string (value : List Char)
  | sequence
  | map
deriving DecidableEq

/-- The shape that was expected. -/
inductive Expected where
  | string
  | sequence
  | map
  /-- A record of that name. -/
  | record (name : String)
deriving DecidableEq

/-- How a well-formed text differs from the expected shape. -/
inductive Mismatch where
  | wrongType (found : Found) (expected : Expected)
  /-- The object ends without a required field. -/
  | missingField (field : String)
  /-- The field stands in the object twice. -/
  | duplicateField (field : String)
  /-- The array that stands for the record ends without a required element. -/
  | wrongLength (found : Nat) (record : String) (size : Nat)
deriving DecidableEq

/-- The first fault of a text. -/
inductive Fault where
  /-- The text ends too early. -/
  | ended
  /-- The text is no JSON, has too large a number, or goes on after the value. -/
  | malformed
  /-- The text is JSON so far, but of another shape. -/
  | mismatch (m : Mismatch)
deriving DecidableEq

/-! ## Wording -/

/-- How a found value is named. -/
def Found.describe : Found → String
  | null => "null"
  | boolean true => "boolean `true`"
  | boolean false => "boolean `false`"
  | integer value => "integer `" ++ toString value ++ "`"
  | decimal negative magnitude =>
    "floating point `" ++ (if negative then "-" else "") ++ String.ofList magnitude.text ++ "`"
  | string value => "string " ++ String.ofList (Text.Quoted.encode value)
  | sequence => "sequence"
  | map => "map"

/-- How an expected shape is named. -/
def Expected.describe : Expected → String
  | string => "a string"
  | sequence => "a sequence"
  | map => "a map"
  | record name => "struct " ++ name

/-- The text shown for a mismatch. -/
def Mismatch.message : Mismatch → String
  | wrongType found expected =>
    "invalid type: " ++ found.describe ++ ", expected " ++ expected.describe
  | missingField field => "missing field `" ++ field ++ "`"
  | duplicateField field => "duplicate field `" ++ field ++ "`"
  | wrongLength found record size =>
    "invalid length " ++ toString found ++ ", expected struct " ++ record ++ " with " ++
      toString size ++ " elements"

end LivePreview.Json
