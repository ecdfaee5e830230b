/-
  LivePreview.Options.Json

  The JSON form of options: an object in which every field may be missing.
-/

import LivePreview.Json.Reader
import LivePreview.Options

namespace LivePreview

open Json

namespace Options

/-- The scripts that are loaded ahead of the bundle. -/
def scriptsField : Json.Field Options where
  name := "runtimeScripts"
  required := false
  read := fun s =>
    (readSequence readString s).map fun (value, rest) =>
      (fun o => { o with runtimeScripts := value }, rest)

/-- The options as a record; every field may be missing. -/
def record : Json.Record Options where
  name := "PreviewOptions"
  fields :=
    [.text "rootElementId" false fun v o => { o with rootElementId := v },
      .text "sharedDefaultSlot" false fun v o => { o with sharedDefaultSlot := v },
      .text "placeholderLiteral" false fun v o => { o with placeholderLiteral := v },
      .text "fallbackEntryMarkup" false fun v o => { o with fallbackEntryMarkup := v },
      scriptsField,
      .text "bundleScriptType" false fun v o => { o with bundleScriptType := v },
      .text "bundlePresets" false fun v o => { o with bundlePresets := v },
      .text "runtimePrelude" false fun v o => { o with runtimePrelude := v },
      .text "documentTitle" false fun v o => { o with documentTitle := v },
      .text "handleScheme" false fun v o => { o with handleScheme := v }]
  start := {}

/-- Reads options from JSON. -/
def ofJson? (text : String) : Except Fault Options := parse record.read text

end Options

end LivePreview
