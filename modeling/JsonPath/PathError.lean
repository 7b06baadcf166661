import JsonPath.Literal

/-!
The ways in which a text fails to be a path.
-/

namespace JsonPath

/-- Offsets count bytes from the start of the text. Other fields are parts of the text. -/
inductive PathError
  | emptySubscript (offset : Nat)
  | incompletePath (offset : Nat)
  | tripleDot (offset : Nat)
  | unmatchedScript (subscript : String)
  | unmatchedFilter (subscript : String)
  | malformedFilter (subscript : String)
  | unmatchedBracket (offset : Nat)
  | unmatchedQuote (quote : Quote) (offset : Nat)
  | invalidCharacter (character : Char) (list : String)
  | invalidSubscript (subscript : String)
  deriving DecidableEq, Repr

namespace PathError

/-- A name for the kind of error that does not change with its wording. -/
def code : PathError → String
  | emptySubscript _ => "subscript.empty"
  | incompletePath _ => "path.incomplete"
  | tripleDot _ => "path.triple_dot"
  | unmatchedScript _ => "subscript.unmatched_script"
  | unmatchedFilter _ => "subscript.unmatched_filter"
  | malformedFilter _ => "subscript.malformed_filter"
  | unmatchedBracket _ => "subscript.unmatched_bracket"
  | unmatchedQuote .single _ => "subscript.unmatched_single_quote"
  | unmatchedQuote .double _ => "subscript.unmatched_double_quote"
  | invalidCharacter _ _ => "subscript.invalid_char"
  | invalidSubscript _ => "subscript.invalid"

def message : PathError → String
  | emptySubscript n => s!"Empty subscript at offset {n}."
  | incompletePath n => s!"Incomplete path: expression ends with \".\" at offset {n}."
  | tripleDot n => s!"Invalid syntax \"...\" at offset {n}."
  | unmatchedScript s => "Subscript starts with \"(\" but does not end with \")\": " ++ s
  | unmatchedFilter s => "Subscript starts with \"?(\" but does not end with \")\": " ++ s
  | malformedFilter s =>
    "Subscript starts with \"?\" but the second character is not \"(\": " ++ s
  | unmatchedBracket n => s!"Closing bracket \"]\" not found for \"[\" at offset {n}."
  | unmatchedQuote q n => s!"Unmatched quote {q.char} at offset {n}."
  | invalidCharacter c s => s!"Invalid character \"{c}\" in {s}."
  | invalidSubscript s => "Invalid subscript: " ++ s

/-- The same error in a text with `n` more bytes in front. -/
def shift (n : Nat) : PathError → PathError
  | emptySubscript k => emptySubscript (n + k)
  | incompletePath k => incompletePath (n + k)
  | tripleDot k => tripleDot (n + k)
  | unmatchedBracket k => unmatchedBracket (n + k)
  | unmatchedQuote q k => unmatchedQuote q (n + k)
  | e => e

@[simp] theorem shift_zero (e : PathError) : e.shift 0 = e := by
  cases e <;> simp [shift]

@[simp] theorem shift_shift (m n : Nat) (e : PathError) :
    (e.shift n).shift m = e.shift (m + n) := by
  cases e <;> simp [shift, Nat.add_assoc]

end PathError

end JsonPath
