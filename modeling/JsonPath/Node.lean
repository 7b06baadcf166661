import JsonPath.Selection

/-!
Nodes: the selectors of a path, in the order in which they apply.
-/

namespace JsonPath

/-- One selector. Scripts, filters and subpaths keep their text as it stands in the path. -/
inductive Node
  /-- The value that the path is applied to. -/
  | root
  /-- All children. -/
  | wildcard
  /-- The current value and everything below it. -/
  | descent
  /-- The value that holds the current one. -/
  | parent
  /-- One child. -/
  | child (key : Key)
  /-- Several selections, applied in the order listed. -/
  | union (selections : List Selection)
  /-- An expression that computes a key. -/
  | script (code : String)
  /-- An expression that decides which children stay. -/
  | filter (code : String)
  /-- A path of its own. -/
  | subpath (path : String)
  /-- A call without arguments on what the nodes before it select. -/
  | call (function : String)
  deriving DecidableEq, Repr

abbrev Path := List Node

/-- A path is rooted when it starts from the whole value. -/
def Path.isRooted (path : Path) : Bool := path.head? == some .root

/-! ## Token notation -/

def Node.render : Node → List Char
  | root => "root".toList
  | wildcard => "wildcard".toList
  | descent => "recursive_descent".toList
  | parent => "parent".toList
  | child k => "property(".toList ++ k.render ++ [')']
  | union es =>
    "properties([".toList ++ Text.join [',', ' '] (es.map Selection.render) ++ "])".toList
  | script code => "script(".toList ++ code.toList ++ [')']
  | filter code => "filter_script(".toList ++ code.toList ++ [')']
  | subpath path => "subpath(".toList ++ path.toList ++ [')']
  | call f => "fn('".toList ++ f.toList ++ "')".toList

def Path.render (path : Path) : List Char :=
  '[' :: (Text.join [',', ' '] (path.map Node.render) ++ [']'])

end JsonPath
