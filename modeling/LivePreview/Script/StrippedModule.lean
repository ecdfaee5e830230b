/-
  LivePreview.Script.StrippedModule

  A script without its module syntax.  Declarations stay as they are, so they
  become globals; every default export is assigned to one shared slot instead.

  Five passes run over the text: import statements go, export lists go, default
  functions keep their declaration, other default exports become assignments to
  the slot, and exported declarations lose the word `export`.  Functions are
  hoisted, so the slot is assigned to them after the body.
-/

import LivePreview.Pattern.Replace
import LivePreview.Script.Shape

namespace LivePreview.Script

/-- A script after stripping, and whether it assigns the shared slot. -/
structure StrippedModule where
  path : String
  code : String
  writesSharedSlot : Bool
deriving DecidableEq

namespace StrippedModule

/-- The text without import statements and export lists. -/
def withoutLists (source : List Char) : List Char :=
  Shape.exportList.erase (Shape.importStatement.erase source)

/-- The names of the default functions of a text. -/
def defaultFunctions (code : List Char) : List (List Char) :=
  (Shape.defaultFunction.allMatches code).map (·.group 0)

/-- The text with default functions declared plainly. -/
def withPlainFunctions (code : List Char) : List Char :=
  Shape.defaultFunction.replace (fun m => "function ".toList ++ m.group 0) code

/-- The text with every remaining default export assigned to the slot. -/
def withSlotAssignments (slot code : List Char) : List Char :=
  Shape.defaultExpression.replace (fun _ => slot ++ " = ".toList) code

/-- The text with exported declarations declared plainly. -/
def withPlainDeclarations (code : List Char) : List Char :=
  Shape.exportedDeclaration.replace (·.group 0) code

/-- A line that assigns a declared function to the slot. -/
def slotAssignment (slot name : List Char) : List Char :=
  '\n' :: slot ++ " = ".toList ++ name ++ [';']

/-- Strips a script whose default exports go to `slot`. -/
def ofSource (path source slot : String) : StrippedModule :=
  let unlisted := withoutLists source.toList
  let functions := defaultFunctions unlisted
  let declared := withPlainFunctions unlisted
  let assigned := withSlotAssignments slot.toList declared
  let body := withPlainDeclarations assigned
  { path := path
    code := String.ofList (body ++ functions.flatMap (slotAssignment slot.toList))
    writesSharedSlot := Shape.defaultExpression.occursIn declared || !functions.isEmpty }

end StrippedModule

end LivePreview.Script
