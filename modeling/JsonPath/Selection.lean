import JsonPath.Index
import JsonPath.Text

/-!
Selections: what a union applies, one after another, to the children of a value.
-/

namespace JsonPath

/-- Picks one child, by name or by position. -/
inductive Key
  | name (name : String)
  | index (index : Index)
  deriving DecidableEq, Repr

/-- A run of positions. A slice without `stop` is unbounded. -/
structure Slice where
  start : Index := 0
  stop : Option Index := none
  step : Index := 1
  deriving DecidableEq, Repr

inductive Selection
  | key (key : Key)
  | slice (slice : Slice)
  deriving DecidableEq, Repr

/-- The key that a selection is, or the slice that it is instead. -/
def Selection.toKey : Selection → Except Slice Key
  | key k => .ok k
  | slice s => .error s

/-! ## Token notation

Nothing inside quotes is escaped. -/

def Key.render : Key → List Char
  | .name s => '\'' :: (s.toList ++ ['\''])
  | .index i => i.render

/-- An unbounded slice has nothing between its colons. -/
def Slice.render (s : Slice) : List Char :=
  "range(".toList ++ s.start.render ++ ':' :: ((s.stop.map Index.render).getD [] ++
    ':' :: (s.step.render ++ [')']))

def Selection.render : Selection → List Char
  | .key k => k.render
  | .slice s => s.render

end JsonPath
