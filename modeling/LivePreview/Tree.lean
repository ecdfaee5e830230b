/-
  LivePreview.Tree

  The folder view of a list of paths.  Nodes stand in the order in which their
  paths were first added.  A path that needs a file where a folder is, or a folder
  where a file is, is left out, and nothing is changed for it.
-/

import LivePreview.Project.Path

namespace LivePreview

/-- A node of the folder view, with its name and its whole path. -/
inductive Node where
  | file (name path : String)
  | folder (name path : String) (children : List Node)

namespace Node

/-- The last segment of the path. -/
def name : Node → String
  | file name _ => name
  | folder name _ _ => name

/-- The segments from the root, with slashes between them. -/
def path : Node → String
  | file _ path => path
  | folder _ path _ => path

/-- The nodes below a folder, in order. -/
def children : Node → List Node
  | file .. => []
  | folder _ _ children => children

/-- The node is a folder. -/
def isFolder : Node → Bool
  | file .. => false
  | folder .. => true

end Node

namespace Tree

/-- What a path is to become: a file, or a folder. -/
inductive Kind where
  | file
  | folder
deriving DecidableEq

/-- A node without children. -/
def leaf (kind : Kind) (name path : String) : Node :=
  match kind with
  | .file => .file name path
  | .folder => .folder name path []

/-- Changes the first node of that name, or adds one at the end. -/
def place (name : String) (grow : Option Node → Node) : List Node → List Node
  | [] => [grow none]
  | node :: rest =>
    if node.name = name then grow (some node) :: rest else node :: place name grow rest

/-- The path of a name below a folder; the roots lie below the empty path. -/
def pathBelow (base name : String) : String := if base.isEmpty then name else base ++ "/" ++ name

/-- Adds a path, given by its segments, to the nodes below `base`.  A node that
    is there is kept as it is; below a file nothing is added. -/
def insert (kind : Kind) : String → List String → List Node → List Node
  | _, [], nodes => nodes
  | base, [name], nodes =>
    place name (fun found => found.getD (leaf kind name (pathBelow base name))) nodes
  | base, name :: next :: rest, nodes =>
    let below := insert kind (pathBelow base name) (next :: rest)
    let grow : Option Node → Node
      | none => .folder name (pathBelow base name) (below [])
      | some (.file n p) => .file n p
      | some (.folder n p children) => .folder n p (below children)
    place name grow nodes

/-- Adds one path; a marker adds its folder, if it has one. -/
def add (nodes : List Node) (path : String) : List Node :=
  if Path.isMarker path then
    match Path.markedFolder? path with
    | some folder => insert .folder "" (Path.segments folder) nodes
    | none => nodes
  else insert .file "" (Path.segments path) nodes

/-- The folder view of some paths. -/
def ofPaths (paths : List String) : List Node := paths.foldl add []

/-! ## Adding paths one by one -/

theorem ofPaths_append_singleton (paths : List String) (path : String) :
    ofPaths (paths ++ [path]) = add (ofPaths paths) path := by
  simp [ofPaths]

end Tree

end LivePreview
