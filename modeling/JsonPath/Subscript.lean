import JsonPath.Node
import JsonPath.PathError
import JsonPath.Selection.Read
import JsonPath.Text

/-!
Subscripts: what the text between a bracket and its closing bracket denotes.
-/

namespace JsonPath.Subscript

/-- A lone key picks a child; slices and longer lists make a union. -/
def ofSelections : List Selection → Node
  | [.key k] => .child k
  | es => .union es

def ofList (s : List Char) : Except PathError Node :=
  match Selection.readList s with
  | .ok es => .ok (ofSelections es)
  | .error .unrecognized => .error (.invalidSubscript (String.ofList s))
  | .error (.stray c tail) => .error (.invalidCharacter c (String.ofList tail))

/-- The node of a subscript. Errors count offsets from its opening bracket. -/
def node (s : List Char) : Except PathError Node :=
  match s with
  | [] => .error (.emptySubscript 0)
  | '$' :: '.' :: _ => .ok (.subpath (String.ofList s))
  | '?' :: '(' :: body =>
    match Text.stem? [')'] body with
    | some code => .ok (.filter (String.ofList code))
    | none => .error (.unmatchedFilter (String.ofList s))
  | '?' :: _ => .error (.malformedFilter (String.ofList s))
  | '(' :: body =>
    match Text.stem? [')'] body with
    | some code => .ok (.script (String.ofList code))
    | none => .error (.unmatchedScript (String.ofList s))
  | ['*'] => .ok .wildcard
  | _ => ofList s

end JsonPath.Subscript
