/-
  LivePreview.Preview

  A project built into a bundle and the document that runs it.
-/

import LivePreview.Bundle
import LivePreview.Html.Document

namespace LivePreview

/-- The result of a build. -/
structure Preview where
  bundle : Bundle
  document : Document
deriving DecidableEq

namespace Preview

/-- The preview that a bundle of the project gives. -/
def ofBundle (options : Options) (project : Project) (bundle : Bundle) : Preview :=
  ⟨bundle,
    .generate options (project.entryMarkup options.fallbackEntryMarkup) bundle.code bundle.hints⟩

/-- Builds the preview of a project. -/
def build (options : Options) (project : Project) : Except BuildError Preview :=
  (Bundle.build options project).map (ofBundle options project)

end Preview

end LivePreview
