import JsonPath.Decimal
import JsonPath.Json
import JsonPath.Literal

/-!
Lexemes of JSON: punctuation, and the values that hold no other value. White space separates
lexemes.
-/

namespace JsonPath.Json

inductive Lexeme
  | openArray
  | closeArray
  | openObject
  | closeObject
  | comma
  | colon
  | scalar (v : Json)
  deriving Repr

namespace Lexeme

def isSpace (c : Char) : Bool := c = ' ' || c = '\n' || c = '\r' || c = '\t'

/-- Every surrogate among the pieces is half of a pair. -/
def paired : List Piece → Bool
  | [] => true
  | .unit a b c d :: .unit a' b' c' d' :: rest =>
    let u := Hex.value [a, b, c, d]
    if Utf16.isHigh u && Utf16.isLow (Hex.value [a', b', c', d']) then paired rest
    else !Utf16.isHigh u && !Utf16.isLow u && paired (.unit a' b' c' d' :: rest)
  | .unit a b c d :: rest =>
    let u := Hex.value [a, b, c, d]
    !Utf16.isHigh u && !Utf16.isLow u && paired rest
  | _ :: rest => paired rest

/-- Control characters must be escaped. -/
def isRaw : Piece → Bool
  | .plain c => 0x20 ≤ c.toNat
  | _ => true

/-- A string is a double-quoted literal that says a text without loss. -/
def readString? (s : List Char) : Option (String × List Char) :=
  (Literal.read? s).bind fun (l, rest) =>
    if l.quote = .double ∧ l.pieces.all isRaw ∧ paired l.pieces then
      some (String.ofList l.text, rest)
    else none

/-- Passes over digits, of which there must be one. -/
def skipDigits? (s : List Char) : Option (List Char) :=
  if (s.takeWhile Char.isDigit).isEmpty then none else some (s.dropWhile Char.isDigit)

def skipFraction? : List Char → Option (List Char)
  | '.' :: rest => skipDigits? rest
  | s => some s

def skipExponent? : List Char → Option (List Char)
  | c :: rest =>
    if c = 'e' ∨ c = 'E' then
      match rest with
      | '+' :: rest => skipDigits? rest
      | '-' :: rest => skipDigits? rest
      | _ => skipDigits? rest
    else some (c :: rest)
  | [] => some []

/-- A numeral alone is an integer; with a fraction or an exponent after it, it is not. -/
def readNumber? (s : List Char) : Option (Json × List Char) :=
  (Decimal.readInt? s).bind fun (n, whole) =>
    ((skipFraction? whole).bind skipExponent?).map fun rest =>
      if rest.length = whole.length then (.int n, rest)
      else (.real (String.ofList (s.take (s.length - rest.length))), rest)

/-- Reads the lexeme that a text opens with. -/
def read? : List Char → Option (Lexeme × List Char)
  | '[' :: rest => some (openArray, rest)
  | ']' :: rest => some (closeArray, rest)
  | '{' :: rest => some (openObject, rest)
  | '}' :: rest => some (closeObject, rest)
  | ',' :: rest => some (comma, rest)
  | ':' :: rest => some (colon, rest)
  | 'n' :: 'u' :: 'l' :: 'l' :: rest => some (scalar null, rest)
  | 't' :: 'r' :: 'u' :: 'e' :: rest => some (scalar (bool true), rest)
  | 'f' :: 'a' :: 'l' :: 's' :: 'e' :: rest => some (scalar (bool false), rest)
  | s =>
    match readString? s with
    | some (text, rest) => some (scalar (string text), rest)
    | none => (readNumber? s).map fun (v, rest) => (scalar v, rest)

theorem length_readString? {s rest : List Char} {text : String}
    (h : readString? s = some (text, rest)) : rest.length < s.length := by
  simp only [readString?, Option.bind_eq_some_iff] at h
  obtain ⟨⟨l, after⟩, read, said⟩ := h
  split at said
  · cases said
    exact Literal.length_read? read
  · cases said

theorem length_skipDigits? {s rest : List Char} (h : skipDigits? s = some rest) :
    rest.length ≤ s.length := by
  unfold skipDigits? at h
  split at h
  · cases h
  · cases h
    exact (List.dropWhile_suffix _).length_le

theorem length_skipFraction? {s rest : List Char} (h : skipFraction? s = some rest) :
    rest.length ≤ s.length := by
  unfold skipFraction? at h
  split at h
  · exact Nat.le_succ_of_le (length_skipDigits? h)
  · cases h
    exact Nat.le_refl _

theorem length_skipExponent? {s rest : List Char} (h : skipExponent? s = some rest) :
    rest.length ≤ s.length := by
  unfold skipExponent? at h
  split at h
  · split at h
    · split at h <;> have := length_skipDigits? h <;> simp only [List.length_cons] at * <;> omega
    · cases h
      exact Nat.le_refl _
  · cases h
    exact Nat.le_refl _

theorem length_readNumber? {s rest : List Char} {v : Json}
    (h : readNumber? s = some (v, rest)) : rest.length < s.length := by
  simp only [readNumber?, Option.bind_eq_some_iff, Option.map_eq_some_iff] at h
  obtain ⟨⟨n, whole⟩, read, after, ⟨mid, fraction, exponent⟩, same⟩ := h
  have numeral := Decimal.length_readInt? read
  have skipped := Nat.le_trans (length_skipExponent? exponent) (length_skipFraction? fraction)
  split at same <;> cases same <;> exact Nat.lt_of_le_of_lt skipped numeral

theorem length_read? {s rest : List Char} {x : Lexeme} (h : read? s = some (x, rest)) :
    rest.length < s.length := by
  unfold read? at h
  split at h
  case h_10 =>
    split at h
    · rename_i read
      cases h
      exact length_readString? read
    · obtain ⟨⟨v, after⟩, read, same⟩ := Option.map_eq_some_iff.1 h
      cases same
      exact length_readNumber? read
  all_goals
    cases h
    simp only [List.length_cons]
    omega

/-- The lexemes of a whole text. -/
def readAll (s : List Char) : Option (List Lexeme) :=
  match s with
  | [] => some []
  | c :: rest =>
    if isSpace c then readAll rest
    else
      match _read : read? (c :: rest) with
      | none => none
      | some (x, after) => (readAll after).map (x :: ·)
termination_by s.length
decreasing_by
  · simp
  · exact length_read? _read

end Lexeme

end JsonPath.Json
