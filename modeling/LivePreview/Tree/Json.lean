/-
  LivePreview.Tree.Json

  The JSON form of a folder view: an array of nodes, of which only the folders have
  children.
-/

import LivePreview.Json.Value
import LivePreview.Tree

namespace LivePreview

open Json

mutual

/-- The JSON form of a node; only folders have children. -/
def Node.toJson : Node → Value
  | .file name path => .object [("name", .string name), ("path", .string path)]
  | .folder name path children =>
    .object
      [("name", .string name), ("path", .string path),
        ("children", .array (Node.listToJson children))]

/-- The JSON forms of some nodes. -/
def Node.listToJson : List Node → List Value
  | [] => []
  | node :: rest => node.toJson :: Node.listToJson rest

end

/-- The JSON form of a folder view. -/
def Tree.toJson (nodes : List Node) : Value := .array (Node.listToJson nodes)

end LivePreview
