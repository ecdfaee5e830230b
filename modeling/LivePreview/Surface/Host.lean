/-
  LivePreview.Surface.Host

  A surface in memory on which documents are shown.  Each document gets a url of
  the scheme, a number that grows, and the beginning of its digest; the surface
  shows the url that was loaded last.
-/

import LivePreview.Digest.Sha256
import LivePreview.Table

namespace LivePreview

/-- The documents that are live, and what is shown. -/
structure Host where
  scheme : String
  /-- How many documents were created. -/
  sequence : Nat
  /-- The live documents by url. -/
  resources : Table String
  /-- The url that was loaded last. -/
  loaded : Option String
  /-- The urls released, in order. -/
  released : List String
deriving DecidableEq

namespace Host

/-- A surface on which nothing was shown. -/
def ofScheme (scheme : String) : Host := ⟨scheme, 0, .empty, none, []⟩

/-- The beginning of a digest that is part of a url. -/
def shortDigest (document : String) : String :=
  String.ofList ((Digest.sha256 document).toList.take 12)

/-- The url of the document with that number. -/
def url (scheme : String) (number : Nat) (document : String) : String :=
  scheme ++ "/" ++ toString number ++ "-" ++ shortDigest document

/-- Makes a document live and gives its url. -/
def create (h : Host) (document : String) : String × Host :=
  let number := h.sequence + 1
  let new := url h.scheme number document
  (new, { h with sequence := number, resources := h.resources.put new document })

/-- Shows a url, live or not. -/
def load (h : Host) (url : String) : Host := { h with loaded := some url }

/-- Releases a url, if it is live. -/
def release (h : Host) (url : String) : Host :=
  if h.resources.contains url then
    { h with resources := h.resources.erase url, released := h.released ++ [url] }
  else h

/-- The document shown: that of the loaded url, if it is live. -/
def loadedDocument? (h : Host) : Option String := h.loaded.bind h.resources.get?

/-- The number of live documents. -/
def live (h : Host) : Nat := h.resources.size

end Host

end LivePreview
