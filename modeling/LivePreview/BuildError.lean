/-
  LivePreview.BuildError

  The reasons why a preview cannot be built.
-/

import LivePreview.Text.Quoted

namespace LivePreview

/-- The options that are written into generated code as names. -/
inductive CheckedOption where
  | sharedDefaultSlot
  | rootElementId
deriving DecidableEq

/-- The name of the option in messages and in JSON. -/
def CheckedOption.name : CheckedOption → String
  | sharedDefaultSlot => "sharedDefaultSlot"
  | rootElementId => "rootElementId"

/-- A reason to build nothing. -/
inductive BuildError where
  /-- No file takes part in the build. -/
  | noScriptFiles
  /-- The value of the option is no valid name. -/
  | invalidOption (option : CheckedOption) (value : String)
deriving DecidableEq

/-- The text shown for the error. -/
def BuildError.message : BuildError → String
  | noScriptFiles => "No JavaScript/TypeScript files found"
  | invalidOption option value =>
    "Invalid option `" ++ option.name ++ "`: " ++
      String.ofList (Text.Quoted.encode value.toList) ++ " is not a valid identifier"

end LivePreview
