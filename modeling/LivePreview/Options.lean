/-
  LivePreview.Options

  What can be set about a preview, with the values that hold when nothing is set.
-/

import LivePreview.BuildError
import LivePreview.Script.Identifier

namespace LivePreview

/-- The settings of a preview. -/
structure Options where
  /-- The element the entry component is rendered into. -/
  rootElementId : String := "root"
  /-- The binding that every default export is assigned to. -/
  sharedDefaultSlot : String := "__defaultExport"
  /-- The expression bound to imports that lead nowhere. -/
  placeholderLiteral : String := "null"
  /-- The markup of a project without an entry document. -/
  fallbackEntryMarkup : String := "<div id=\"root\"></div>"
  /-- The scripts loaded ahead of the bundle. -/
  runtimeScripts : List String :=
    ["https://unpkg.com/react@18/umd/react.development.js",
      "https://unpkg.com/react-dom@18/umd/react-dom.development.js",
      "https://unpkg.com/@babel/standalone/babel.min.js"]
  /-- The type of the bundle script; empty for none. -/
  bundleScriptType : String := "text/babel"
  /-- The presets of the bundle script; empty for none. -/
  bundlePresets : String := "react"
  /-- The statements that run before the bundle. -/
  runtimePrelude : String := "const \x7b useState, useEffect, useRef, useMemo \x7d = React;"
  /-- The title of the document. -/
  documentTitle : String := "React Preview"
  /-- The beginning of the urls of handles. -/
  handleScheme : String := "blob:preview"
deriving DecidableEq

namespace Options

instance : Inhabited Options := ⟨{}⟩

/-- A character that can follow in an element id. -/
def isElementIdPart (c : Char) : Bool :=
  c.isAlphanum || c == '_' || c == ':' || c == '.' || c == '-'

/-- The text is an element id: an ASCII letter, then letters, digits, `_`, `:`,
    `.` and `-`. -/
def isElementId : List Char → Bool
  | [] => false
  | c :: cs => c.isAlpha && cs.all isElementIdPart

/-- Refuses names that could not stand in generated code; the slot is checked
    first. -/
def validate (o : Options) : Except BuildError Unit :=
  if !Script.isIdentifier o.sharedDefaultSlot.toList then
    .error (.invalidOption .sharedDefaultSlot o.sharedDefaultSlot)
  else if !isElementId o.rootElementId.toList then
    .error (.invalidOption .rootElementId o.rootElementId)
  else .ok ()

theorem validate_eq_ok_iff {o : Options} :
    o.validate = .ok () ↔
      Script.isIdentifier o.sharedDefaultSlot.toList = true ∧
        isElementId o.rootElementId.toList = true := by
  unfold validate
  split
  · simp_all
  · split <;> simp_all

/-- The values that hold when nothing is set are valid. -/
theorem validate_default : ({} : Options).validate = .ok () :=
  validate_eq_ok_iff.mpr (by decide)

end Options

end LivePreview
