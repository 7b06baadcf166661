import JsonPath.Json
import JsonPath.Node

/-!
The wire form: paths as JSON. A node is an object with its kind and, if it has one, its payload.
Names are strings, indices are integers and slices are objects, so no tag tells them apart.
-/

namespace JsonPath

def Key.toJson : Key → Json
  | .name s => .string s
  | .index i => .int i.toInt

def Slice.toJson (s : Slice) : Json :=
  .object [
    ("start", .int s.start.toInt),
    ("end", match s.stop with | some i => .int i.toInt | none => .null),
    ("step", .int s.step.toInt)]

def Selection.toJson : Selection → Json
  | .key k => k.toJson
  | .slice s => s.toJson

namespace Node

/-- The name of a node's kind. -/
def tag : Node → String
  | root => "root"
  | wildcard => "wildcard"
  | descent => "recursive_descent"
  | parent => "parent"
  | child _ => "property"
  | union _ => "properties"
  | script _ => "script"
  | filter _ => "filter_script"
  | subpath _ => "subpath"
  | call _ => "fn"

def parameter? : Node → Option Json
  | root => none
  | wildcard => none
  | descent => none
  | parent => none
  | child k => some k.toJson
  | union es => some (.array (es.map Selection.toJson))
  | script code => some (.string code)
  | filter code => some (.string code)
  | subpath path => some (.string path)
  | call f => some (.string f)

def toJson (node : Node) : Json :=
  match node.parameter? with
  | none => .object [("type", .string node.tag)]
  | some p => .object [("type", .string node.tag), ("parameter", p)]

end Node

def Path.toJson (path : Path) : Json := .array (path.map Node.toJson)

end JsonPath
