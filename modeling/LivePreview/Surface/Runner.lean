/-
  LivePreview.Surface.Runner

  Keeps one document live on a surface.  The document before it is released right
  after the new one is shown.  Documents of builds older than the newest shown are
  dropped.
-/

import LivePreview.Surface.Host

namespace LivePreview

/-- A surface, the url that is live on it, and the newest build shown. -/
structure Runner where
  host : Host
  current : Option String
  latest : Option Nat
deriving DecidableEq

namespace Runner

/-- A surface on which nothing was shown. -/
def ofScheme (scheme : String) : Runner := ⟨.ofScheme scheme, none, none⟩

/-- A newer build was shown already. -/
def isStale (r : Runner) (generation : Nat) : Bool := r.latest.any (generation < ·)

/-- Releases a url if there is one. -/
def releaseIfAny (host : Host) : Option String → Host
  | some url => host.release url
  | none => host

/-- Shows the document of a build and gives its url, unless the build is stale. -/
def present (r : Runner) (generation : Nat) (document : String) : Option String × Runner :=
  if r.isStale generation then (none, r)
  else
    let (url, host) := r.host.create document
    (some url,
      { host := releaseIfAny (host.load url) r.current
        current := some url
        latest := some generation })

/-- Releases the live document, if there is one. -/
def teardown (r : Runner) : Runner :=
  { r with host := releaseIfAny r.host r.current, current := none }

/-- A stale build changes nothing. -/
theorem present_of_isStale {r : Runner} {generation : Nat} (h : r.isStale generation = true)
    (document : String) : r.present generation document = (none, r) := by
  simp [present, h]

theorem latest_present_of_not_isStale {r : Runner} {generation : Nat}
    (h : r.isStale generation = false) (document : String) :
    (r.present generation document).2.latest = some generation := by
  simp [present, h]

end Runner

end LivePreview
