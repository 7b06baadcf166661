import JsonPath.Decimal
import JsonPath.Json
import JsonPath.Literal

/-!
JSON values as text, on one line or one item per line. Strings escape quotes, backslashes and the
characters below U+0020, and no others, so a compact text holds no line break.
-/

namespace JsonPath.Json

inductive Layout
  | compact
  | indented
  deriving DecidableEq, Repr

/-- What stands before an item or a closing bracket at some depth. -/
def Layout.line (depth : Nat) : Layout → List Char
  | compact => []
  | indented => '\n' :: List.replicate (2 * depth) ' '

def Layout.colon : Layout → List Char
  | compact => [':']
  | indented => [':', ' ']

def escape (c : Char) : List Char :=
  match c with
  | '"' => ['\\', '"']
  | '\\' => ['\\', '\\']
  | '\x08' => ['\\', 'b']
  | '\x0c' => ['\\', 'f']
  | '\n' => ['\\', 'n']
  | '\r' => ['\\', 'r']
  | '\t' => ['\\', 't']
  | c =>
    if c.toNat < 0x20 then ['\\', 'u', '0', '0', Hex.digit (c.toNat / 16), Hex.digit (c.toNat % 16)]
    else [c]

def quote (s : String) : List Char := '"' :: (s.toList.flatMap escape ++ ['"'])

mutual

def print (layout : Layout) (depth : Nat) : Json → List Char
  | null => ['n', 'u', 'l', 'l']
  | bool true => ['t', 'r', 'u', 'e']
  | bool false => ['f', 'a', 'l', 's', 'e']
  | int n => Decimal.render n
  | real literal => literal.toList
  | string s => quote s
  | array [] => ['[', ']']
  | array (v :: vs) =>
    '[' :: (layout.line (depth + 1) ++ print layout (depth + 1) v ++
      printItems layout (depth + 1) vs ++ layout.line depth ++ [']'])
  | object [] => ['{', '}']
  | object ((key, v) :: fields) =>
    '{' :: (layout.line (depth + 1) ++ quote key ++ layout.colon ++ print layout (depth + 1) v ++
      printFields layout (depth + 1) fields ++ layout.line depth ++ ['}'])

/-- Prints items with a comma before each. -/
def printItems (layout : Layout) (depth : Nat) : List Json → List Char
  | [] => []
  | v :: vs => ',' :: (layout.line depth ++ print layout depth v ++ printItems layout depth vs)

def printFields (layout : Layout) (depth : Nat) : List (String × Json) → List Char
  | [] => []
  | (key, v) :: fields =>
    ',' :: (layout.line depth ++ quote key ++ layout.colon ++ print layout depth v ++
      printFields layout depth fields)

end

def render (layout : Layout) (v : Json) : List Char := print layout 0 v

end JsonPath.Json
