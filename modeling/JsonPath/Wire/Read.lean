import JsonPath.Wire

/-!
Reading the wire form back. Besides what is written, a reader takes the fields of an object in any
order and with others among them, and a list of exactly its fields in the place of an object.
-/

namespace JsonPath

def Index.ofJson? : Json → Option Index
  | .int n => Index.ofInt? n
  | _ => none

def Key.ofJson? : Json → Option Key
  | .string s => some (.name s)
  | v => (Index.ofJson? v).map .index

namespace Slice

/-- Null stands for a missing bound. -/
def stopOfJson? : Json → Option (Option Index)
  | .null => some none
  | v => (Index.ofJson? v).map some

def ofBounds? (start stop step : Json) : Option Slice :=
  (Index.ofJson? start).bind fun start =>
    (stopOfJson? stop).bind fun stop =>
      (Index.ofJson? step).map fun step => ⟨start, stop, step⟩

def ofJson? : Json → Option Slice
  | .object fields =>
    ofBounds? (Json.get fields "start") (Json.get fields "end") (Json.get fields "step")
  | .array [start, stop, step] => ofBounds? start stop step
  | _ => none

end Slice

def Selection.ofJson? (v : Json) : Option Selection :=
  match Key.ofJson? v with
  | some k => some (.key k)
  | none => (Slice.ofJson? v).map .slice

namespace Node

/-- The node of a kind with a payload; the kinds without one want null. A union is never empty. -/
def ofParts? : String → Json → Option Node
  | "root", .null => some root
  | "wildcard", .null => some wildcard
  | "recursive_descent", .null => some descent
  | "parent", .null => some parent
  | "property", p => (Key.ofJson? p).map child
  | "properties", .array (v :: vs) => ((v :: vs).mapM Selection.ofJson?).map union
  | "script", .string code => some (script code)
  | "filter_script", .string code => some (filter code)
  | "subpath", .string path => some (subpath path)
  | "fn", .string f => some (call f)
  | _, _ => none

def ofTagged? : Json → Json → Option Node
  | .string tag, parameter => ofParts? tag parameter
  | _, _ => none

def ofJson? : Json → Option Node
  | .object fields => ofTagged? (Json.get fields "type") (Json.get fields "parameter")
  | .array [tag, parameter] => ofTagged? tag parameter
  | _ => none

end Node

def Path.ofJson? : Json → Option Path
  | .array nodes => nodes.mapM Node.ofJson?
  | _ => none

end JsonPath
