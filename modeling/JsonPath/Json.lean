/-!
JSON values. Fields keep their order. A number with a fraction or an exponent is kept as it is
written, since nothing here computes with one.
-/

namespace JsonPath

inductive Json
  | null
  | bool (b : Bool)
  | int (n : Int)
  | real (literal : String)
  | string (s : String)
  | array (items : List Json)
  | object (fields : List (String × Json))
  deriving Repr

namespace Json

/-- The value of a field. Of two fields of one name the later one counts. -/
def find? (name : String) : List (String × Json) → Option Json
  | [] => none
  | (key, v) :: rest =>
    match find? name rest with
    | some w => some w
    | none => if key = name then some v else none

/-- The value of a field, where an absent field counts as null. -/
def get (fields : List (String × Json)) (name : String) : Json := (find? name fields).getD null

end Json

end JsonPath
