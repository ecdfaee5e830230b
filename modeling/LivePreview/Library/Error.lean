/-
  LivePreview.Library.Error

  The reasons why a project cannot be loaded or saved.
-/

import LivePreview.Json.Fault

namespace LivePreview

/-- A reason why a stored project cannot be reached. -/
inductive LibraryError where
  | notFound (id : String)
  /-- The id is no file name of its own. -/
  | invalidId (id : String)
  /-- The disk refused, with the text of its refusal. -/
  | io (path refusal : String)
  /-- What is stored is no project. -/
  | malformed (id : String) (fault : Json.Fault)
deriving DecidableEq

namespace LibraryError

/-- The text shown for the error. -/
def message : LibraryError → String
  | notFound id => "project `" ++ id ++ "` not found"
  | invalidId id => "invalid project id `" ++ id ++ "`"
  | io path refusal =>
    "i/o error at " ++ String.ofList (Text.Quoted.encode path.toList) ++ ": " ++ refusal
  | malformed id _ => "malformed project `" ++ id ++ "`"

end LibraryError

end LivePreview
