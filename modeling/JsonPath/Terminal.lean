/-!
Text fit for a terminal. Control characters are left out of it, and so is every sequence that a
terminal would obey instead of showing.
-/

namespace JsonPath.Terminal

/-- The control characters that only place the text after them. -/
def isLayout (c : Char) : Bool := c = '\t' || c = '\n' || c = '\x0c' || c = '\r'

/-- A terminal shows what is not a control character of ASCII, and lays text out. -/
def isShown (c : Char) : Bool := (' ' ≤ c && c ≠ '\x7f') || isLayout c

/-- What stands between two bounds of the characters, both included. -/
def isBetween (lo hi c : Char) : Bool := lo ≤ c && c ≤ hi

/-- The intermediate characters of a sequence, which come before the one that ends it. -/
def isIntermediate (c : Char) : Bool := isBetween ' ' '/' c

/-- The closing byte of a control string stands for it wherever it occurs, also inside the encoding
of another character. -/
def holdsTerminator (c : Char) : Bool := (String.utf8EncodeChar c).contains 0x9C

/-- How far a terminal has come in a sequence that it obeys. -/
inductive Sequence
  /-- The escape character that opens the sequence. -/
  | escape
  /-- An escape and intermediate characters after it. -/
  | intermediate
  /-- A control sequence, up to the letter that ends it. -/
  | control
  /-- A command to the operating system, up to the bell. -/
  | command
  /-- The opening of a string to the device. -/
  | device
  /-- The parameters of a string to the device. -/
  | deviceParameter
  /-- The intermediate characters of a string to the device. -/
  | deviceIntermediate
  /-- The body of a control string, up to its terminator. -/
  | string
  deriving DecidableEq, Repr

namespace Sequence

/-- Layout takes effect in the middle of the shorter sequences; the strings swallow it. -/
def admitsLayout : Sequence → Bool
  | escape | intermediate | control => true
  | _ => false

/-- The sequence after one more of its characters, or nothing where that character ends it. A
character that has no place in the sequence is passed over. -/
def next? : Sequence → Char → Option Sequence
  | escape, c =>
    if isIntermediate c then some intermediate
    else if c = '[' then some control
    else if c = ']' then some command
    else if c = 'P' then some device
    else if c = 'X' || c = '^' || c = '_' then some string
    else if isBetween '0' '~' c then none
    else some escape
  | intermediate, c => if isBetween '0' '~' c then none else some intermediate
  | control, c => if isBetween '@' '~' c then none else some control
  | command, c => if c = '\x07' then none else some command
  | device, c =>
    if isIntermediate c then some deviceIntermediate
    else if isBetween '0' '?' c then some deviceParameter
    else if isBetween '@' '~' c then some string
    else some device
  | deviceParameter, c =>
    if isIntermediate c then some deviceIntermediate
    else if isBetween '<' '~' c then some string
    else some deviceParameter
  | deviceIntermediate, c => if isBetween '0' '~' c then some string else some deviceIntermediate
  | string, c => if holdsTerminator c then none else some string

end Sequence

/-- What a terminal is in the middle of. -/
inductive Mode
  /-- Showing text. Where layout broke into a sequence, the text from there on is shown, and the
  sequence waits for the next control character. -/
  | text (suspended : Option Sequence)
  | obeying (s : Sequence)
  deriving DecidableEq, Repr

namespace Mode

def afterSequence : Option Sequence → Mode
  | none => text none
  | some s => obeying s

/-- The mode after a character, and whether the character is shown. Two control characters call off
whatever sequence there is, and an escape opens a new one. A character beyond ASCII, once shown,
lets a suspended sequence go. -/
def step (m : Mode) (c : Char) : Mode × Bool :=
  if c = '\x18' || c = '\x1a' then (text none, false)
  else if c = '\x1b' then (obeying .escape, false)
  else match m with
    | text suspended =>
      if isShown c then (text (if c ≤ '\x7f' then suspended else none), true)
      else (afterSequence suspended, false)
    | obeying s =>
      if s.admitsLayout && isLayout c then (text (some s), true)
      else (afterSequence (s.next? c), false)

end Mode

/-- The characters that a terminal shows, of those that follow in a given mode. -/
def visible (m : Mode) : List Char → List Char
  | [] => []
  | c :: rest => if (m.step c).2 then c :: visible (m.step c).1 rest else visible (m.step c).1 rest

/-- What a terminal shows of a text. A sequence that the text leaves open swallows the rest of it.
-/
def shown (text : String) : String := String.ofList (visible (.text none) text.toList)

end JsonPath.Terminal
