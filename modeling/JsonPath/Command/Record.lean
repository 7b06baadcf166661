import JsonPath.Command.Options
import JsonPath.Json.Print
import JsonPath.PathError
import JsonPath.Wire

/-!
Records: what the command writes about one expression, without the line break after it.
-/

namespace JsonPath.Command

def errorJson (e : PathError) : Json :=
  .object [("code", .string e.code), ("message", .string e.message)]

/-- The record of an expression as JSON, with its nodes or with its error. -/
def recordJson (expression : String) : Except PathError Path → Json
  | .ok nodes => .object [("expression", .string expression), ("nodes", nodes.toJson)]
  | .error e => .object [("expression", .string expression), ("error", errorJson e)]

def recordTokens (expression : String) : Except PathError Path → List Char
  | .ok nodes => expression.toList ++ " => ".toList ++ nodes.render
  | .error e => s!"{expression} => error[{e.code}]: {e.message}".toList

def record (format : Format) (expression : String) (result : Except PathError Path) : List Char :=
  match format with
  | .json => (recordJson expression result).render .compact
  | .pretty => (recordJson expression result).render .indented
  | .tokens => recordTokens expression result

end JsonPath.Command
