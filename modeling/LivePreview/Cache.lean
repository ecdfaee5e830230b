/-
  LivePreview.Cache

  Records of files kept between builds, by path, each with the digest of the
  content it was made from.  A record is used again only for a content with that
  digest.
-/

import LivePreview.Bundle
import LivePreview.Digest.Sha256

namespace LivePreview

open Script

/-- A record and the digest of its content. -/
structure CachedRecord where
  digest : String
  record : ModuleRecord
deriving DecidableEq

/-- The records kept, and how often one was used or had to be made. -/
structure Cache where
  entries : Table CachedRecord
  hits : Nat
  misses : Nat
deriving DecidableEq

namespace Cache

/-- No records. -/
def empty : Cache := ⟨.empty, 0, 0⟩

instance : Inhabited Cache := ⟨empty⟩

/-- The record of a file, if one is kept for its content. -/
def get? (c : Cache) (path source : String) : Option ModuleRecord :=
  match c.entries.get? path with
  | some entry => if entry.digest = Digest.sha256 source then some entry.record else none
  | none => none

/-- Keeps a record for a file. -/
def set (c : Cache) (path source : String) (record : ModuleRecord) : Cache :=
  { c with entries := c.entries.put path ⟨Digest.sha256 source, record⟩ }

/-- The record of a file, kept from before or made now. -/
def analyze (c : Cache) (path source : String) : ModuleRecord × Cache :=
  match c.get? path source with
  | some record => (record, { c with hits := c.hits + 1 })
  | none =>
    let record := ModuleRecord.ofSource path source
    (record, { c with misses := c.misses + 1 }.set path source record)

/-- The records of some files, one after the other. -/
def analyzeAll : Cache → List File → List ModuleRecord × Cache
  | c, [] => ([], c)
  | c, f :: rest =>
    let (record, c) := c.analyze f.path f.content
    let (records, c) := analyzeAll c rest
    (record :: records, c)

/-- Forgets the files whose paths are not listed. -/
def retain (c : Cache) (paths : List String) : Cache :=
  { c with entries := c.entries.retain paths.contains }

/-- Builds the bundle of a project with the records kept.  Nothing is analyzed
    for a project that cannot be built. -/
def build (c : Cache) (options : Options) (project : Project) :
    Except BuildError Bundle × Cache :=
  match Bundle.filesToBuild options project with
  | .error e => (.error e, c)
  | .ok files =>
    let (records, c) := c.analyzeAll files
    (.ok (.assemble options project files records), c)

end Cache

end LivePreview
