import JsonPath.Command.Options

/-!
Expressions to normalize: the arguments, or else the lines of the standard input that are not blank.
-/

namespace JsonPath.Text

/-- The code points with the property White_Space. -/
def whiteSpace : List Nat :=
  [0x09, 0x0A, 0x0B, 0x0C, 0x0D, 0x20, 0x85, 0xA0, 0x1680,
   0x2000, 0x2001, 0x2002, 0x2003, 0x2004, 0x2005, 0x2006, 0x2007, 0x2008, 0x2009, 0x200A,
   0x2028, 0x2029, 0x202F, 0x205F, 0x3000]

def isSpace (c : Char) : Bool := whiteSpace.contains c.toNat

/-- A text is blank when trimming white space leaves nothing. -/
def isBlank (s : List Char) : Bool := s.all isSpace

end JsonPath.Text

namespace JsonPath.Command

namespace Input

def lineFeed : UInt8 := 10

def carriageReturn : UInt8 := 13

/-- A line without the carriage return before its line feed. -/
def withoutReturn (line : List UInt8) : List UInt8 :=
  if line.getLast? = some carriageReturn then line.dropLast else line

/-- Cuts bytes into lines. A last line without line feed is left as it is. -/
def lines (bytes : List UInt8) : List (List UInt8) :=
  match bytes with
  | [] => []
  | b :: more =>
    let bytes := b :: more
    match _cut : bytes.dropWhile (· ≠ lineFeed) with
    | [] => [bytes]
    | _ :: rest => withoutReturn (bytes.takeWhile (· ≠ lineFeed)) :: lines rest
termination_by bytes.length
decreasing_by
  have := (List.dropWhile_suffix (l := b :: more) (· ≠ lineFeed)).length_le
  rw [_cut] at this
  simp only [List.length_cons] at this ⊢
  omega

end Input

inductive Item
  | expression (text : String)
  /-- A line that is not UTF-8. -/
  | unreadable
  deriving DecidableEq, Repr

namespace Item

/-- Blank lines hold no expression; other lines are one as a whole, blanks at their ends included.
-/
def ofLine? (line : List UInt8) : Option Item :=
  match String.fromUTF8? ⟨line.toArray⟩ with
  | none => some unreadable
  | some text => if Text.isBlank text.toList then none else some (expression text)

def expression? : Item → Option String
  | expression text => some text
  | unreadable => none

end Item

/-- The standard input counts only when the arguments hold no expression. -/
def Options.items (o : Options) (stdin : List UInt8) : List Item :=
  if o.expressions.isEmpty then (Input.lines stdin).filterMap Item.ofLine?
  else o.expressions.map .expression

end JsonPath.Command
