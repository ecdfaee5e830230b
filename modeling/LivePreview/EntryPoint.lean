/-
  LivePreview.EntryPoint

  Which component a preview renders: a global `App`, else what the shared slot
  holds, else the first function that looks like a component.
-/

namespace LivePreview

/-- What is known about a bundle when its entry point is chosen. -/
structure EntryHints where
  /-- A global binding named `App` exists. -/
  definesApp : Bool := false
  /-- The last module that assigns the shared slot. -/
  sharedSlotWriter : Option String := none
  /-- The functions with uppercase names, each once, in order. -/
  componentCandidates : List String := []
deriving DecidableEq

/-- The component that is rendered. -/
inductive EntryPoint where
  /-- The global binding of that name. -/
  | named (name : String)
  /-- The shared slot, last assigned by that module. -/
  | sharedSlot (writer : String)
  /-- A function with an uppercase name. -/
  | heuristic (name : String)
  | none
deriving DecidableEq

/-- The entry point that the hints give. -/
def EntryPoint.detect (hints : EntryHints) : EntryPoint :=
  if hints.definesApp then .named "App"
  else match hints.sharedSlotWriter, hints.componentCandidates with
    | some writer, _ => .sharedSlot writer
    | Option.none, name :: _ => .heuristic name
    | Option.none, [] => .none

end LivePreview
