/-
  LivePreview.Html.Document

  The page that shows a preview: the markup of the entry document, a reporter for
  errors, the runtime scripts, and one script with the prelude, the bundle and
  the code that renders the entry point.
-/

import LivePreview.EntryPoint
import LivePreview.Html.Escape
import LivePreview.Json.Quoted
import LivePreview.Options

namespace LivePreview

/-- A preview page, and the entry point that it renders. -/
structure Document where
  html : String
  entry : EntryPoint
deriving DecidableEq

namespace Document

/-- What is shown when there is nothing to render. -/
def noComponentMessage : String :=
  "No React component found. Make sure you have a default export."

/-- Lines of text, each with its end. -/
def lines (ls : List String) : String := String.join (ls.map (· ++ "\n"))

/-- Up to the beginning of the body. -/
def head (options : Options) : String :=
  lines
    ["<!DOCTYPE html>", "<html>", "<head>", "  <meta charset=\"utf-8\">",
      "  <title>" ++ Html.escape options.documentTitle ++ "</title>", "  <style>",
      "    body \x7b font-family: system-ui, -apple-system, sans-serif; margin: 0; " ++
        "padding: 16px; background: #f5f5f5; color: #333; \x7d",
      "    #" ++ options.rootElementId ++ " \x7b min-height: 100vh; \x7d", "  </style>", "</head>",
      "<body>"]

/-- The function that shows a message in place of the preview; uncaught errors
    go there. -/
def reporter (options : Options) : String :=
  lines
    ["window.__previewReport = function (message, color) \x7b",
      "  var root = document.getElementById(" ++ Json.quote options.rootElementId ++
        ") || document.body;",
      "  var box = document.createElement(\"div\");", "  box.style.padding = \"20px\";",
      "  box.style.color = color;", "  box.textContent = message;", "  root.innerHTML = \"\";",
      "  root.appendChild(box);", "\x7d;",
      "window.addEventListener(\"error\", function (event) \x7b",
      "  var message = event.error && event.error.message ? event.error.message : event.message;",
      "  window.__previewReport(\"Error: \" + message, \"red\");", "\x7d);"]

/-- A script that is loaded from elsewhere. -/
def runtimeScript (url : String) : String :=
  "<script crossorigin src=\"" ++ Html.escape url ++ "\"></script>\n"

/-- An attribute, left out when its value is empty. -/
def attr (name value : String) : String :=
  if value.isEmpty then "" else " " ++ name ++ "=\"" ++ Html.escape value ++ "\""

/-- The opening tag of the bundle script. -/
def bundleTag (options : Options) : String :=
  "<script" ++ attr "type" options.bundleScriptType ++
    attr "data-presets" options.bundlePresets ++ ">\n"

/-- Texts as a JSON array. -/
def quoteAll (names : List String) : String :=
  "[" ++ String.intercalate "," (names.map Json.quote) ++ "]"

/-- The code that finds the entry point and renders it. -/
def epilogue (hints : EntryHints) (options : Options) : String :=
  lines
    ["", "(function () \x7b", "  try \x7b", "    var Entry = null;",
      "    if (typeof App !== \"undefined\") \x7b", "      Entry = App;",
      "    \x7d else if (typeof " ++ options.sharedDefaultSlot ++ " !== \"undefined\") \x7b",
      "      Entry = " ++ options.sharedDefaultSlot ++ ";", "    \x7d else \x7b",
      "      var candidates = " ++ quoteAll hints.componentCandidates ++ ";",
      "      for (var i = 0; i < candidates.length; i++) \x7b",
      "        if (typeof window[candidates[i]] === \"function\") \x7b",
      "          Entry = window[candidates[i]];", "          break;", "        \x7d", "      \x7d",
      "    \x7d", "    if (typeof Entry === \"function\") \x7b",
      "      var root = document.getElementById(" ++ Json.quote options.rootElementId ++
        ") || document.body;",
      "      ReactDOM.createRoot(root).render(React.createElement(Entry));", "    \x7d else \x7b",
      "      window.__previewReport(" ++ Json.quote noComponentMessage ++ ", \"#666\");",
      "    \x7d",
      "  \x7d catch (error) \x7b",
      "    window.__previewReport(\"Error: \" + (error && error.message ? error.message : " ++
        "String(error)), \"red\");",
      "  \x7d", "\x7d)();"]

/-- The page for some code, with the markup that it renders into. -/
def page (options : Options) (markup code : String) (hints : EntryHints) : String :=
  head options ++ markup ++ "\n" ++
    "<script>\n" ++ reporter options ++ "</script>\n" ++
    String.join (options.runtimeScripts.map runtimeScript) ++
    bundleTag options ++ Html.escapeScript options.runtimePrelude ++ "\n" ++
    Html.escapeScript code ++ "\n" ++ epilogue hints options ++
    "</script>\n</body>\n</html>\n"

/-- The document for some code. -/
def generate (options : Options) (markup code : String) (hints : EntryHints) : Document :=
  ⟨page options markup code hints, .detect hints⟩

end Document

end LivePreview
