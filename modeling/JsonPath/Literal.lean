/-!
Quoted literals: a quote, pieces, and the same quote again. What a literal spells and what it says
are two functions of its pieces, so a reader that keeps the pieces serves everyone who needs either.
Some pieces are code units of UTF-16 in hexadecimal digits.
-/

namespace JsonPath

/-! ## Hexadecimal digits

Either case is read; lower case is written. -/

namespace Hex

def value? (c : Char) : Option Nat :=
  if c.isDigit then some (c.toNat - '0'.toNat)
  else if 'a' ≤ c ∧ c ≤ 'f' then some (c.toNat - 'a'.toNat + 10)
  else if 'A' ≤ c ∧ c ≤ 'F' then some (c.toNat - 'A'.toNat + 10)
  else none

def isDigit (c : Char) : Bool := (value? c).isSome

/-- The number that a run of hexadecimal digits stands for. -/
def value (ds : List Char) : Nat := ds.foldl (fun n c => 16 * n + (value? c).getD 0) 0

def digit (n : Nat) : Char :=
  if n < 10 then Char.ofNat ('0'.toNat + n) else Char.ofNat ('a'.toNat + (n - 10))

end Hex

/-! ## Code units of UTF-16

A high unit and the low unit after it name one character; a surrogate without its partner names
none. -/

namespace Utf16

def isHigh (u : Nat) : Bool := 0xD800 ≤ u && u < 0xDC00

def isLow (u : Nat) : Bool := 0xDC00 ≤ u && u < 0xE000

/-- The character of a surrogate pair. -/
def combine (high low : Nat) : Char :=
  Char.ofNat (0x10000 + (high - 0xD800) * 0x400 + (low - 0xDC00))

/-- Stands in a decoded text for a surrogate without its partner. -/
def replacement : Char := '\uFFFD'

/-- The character of a unit that is no half of a pair. -/
def lone (u : Nat) : Char :=
  if isHigh u || isLow u then replacement else Char.ofNat u

end Utf16

/-! ## Literals -/

inductive Quote
  | single
  | double
  deriving DecidableEq, Repr

namespace Quote

def char : Quote → Char
  | single => '\''
  | double => '"'

def ofChar? (c : Char) : Option Quote :=
  if c = '\'' then some single else if c = '"' then some double else none

theorem ofChar?_eq_some_iff {c : Char} {q : Quote} : ofChar? c = some q ↔ c = q.char := by
  unfold ofChar?
  cases q <;> simp only [char] <;> repeat' split
  all_goals simp_all

end Quote

/-- One piece of a literal's body: a character that stands for itself, a backslash and a letter, or
a backslash, `u` and four hexadecimal digits. -/
inductive Piece
  | plain (c : Char)
  | escape (letter : Char)
  | unit (a b c d : Char)
  deriving DecidableEq, Repr

namespace Piece

/-- Only the quote that delimits the literal may be escaped, not the other one. -/
def escapable (q : Quote) (letter : Char) : Bool :=
  letter = q.char || ['\\', '/', 'b', 'f', 'n', 'r', 't'].contains letter

def unescape : Char → Char
  | 'b' => '\x08'
  | 'f' => '\x0c'
  | 'n' => '\n'
  | 'r' => '\r'
  | 't' => '\t'
  | c => c

/-- The pieces that may stand between two quotes `q`. -/
def Fits (q : Quote) : Piece → Prop
  | plain c => c ≠ q.char ∧ c ≠ '\\'
  | escape letter => escapable q letter = true
  | unit a b c d => [a, b, c, d].all Hex.isDigit = true

def spelling : Piece → List Char
  | plain c => [c]
  | escape letter => ['\\', letter]
  | unit a b c d => ['\\', 'u', a, b, c, d]

/-- What pieces say. Two units are a pair only when nothing stands between them. -/
def text : List Piece → List Char
  | [] => []
  | plain c :: rest => c :: text rest
  | escape letter :: rest => unescape letter :: text rest
  | unit a b c d :: unit a' b' c' d' :: rest =>
    let u := Hex.value [a, b, c, d]
    let v := Hex.value [a', b', c', d']
    if Utf16.isHigh u && Utf16.isLow v then Utf16.combine u v :: text rest
    else Utf16.lone u :: text (unit a' b' c' d' :: rest)
  | unit a b c d :: rest => Utf16.lone (Hex.value [a, b, c, d]) :: text rest

end Piece

structure Literal where
  quote : Quote
  pieces : List Piece
  deriving DecidableEq, Repr

namespace Literal

def WellFormed (l : Literal) : Prop := ∀ p ∈ l.pieces, p.Fits l.quote

def spelling (l : Literal) : List Char :=
  l.quote.char :: (l.pieces.flatMap Piece.spelling ++ [l.quote.char])

def text (l : Literal) : List Char := Piece.text l.pieces

/-- Reads pieces up to the closing quote, which it takes too. -/
def readPieces? (q : Quote) : List Char → Option (List Piece × List Char)
  | [] => none
  | '\\' :: 'u' :: a :: b :: c :: d :: rest =>
    if [a, b, c, d].all Hex.isDigit then
      (readPieces? q rest).map fun (ps, after) => (.unit a b c d :: ps, after)
    else none
  | '\\' :: letter :: rest =>
    if Piece.escapable q letter then
      (readPieces? q rest).map fun (ps, after) => (.escape letter :: ps, after)
    else none
  | c :: rest =>
    if c = q.char then some ([], rest)
    else if c = '\\' then none
    else (readPieces? q rest).map fun (ps, after) => (.plain c :: ps, after)

/-- Reads the literal that a text opens with. -/
def read? : List Char → Option (Literal × List Char)
  | [] => none
  | c :: rest =>
    (Quote.ofChar? c).bind fun q =>
      (readPieces? q rest).map fun (ps, after) => (⟨q, ps⟩, after)

theorem of_readPieces? {q : Quote} {s after : List Char} {ps : List Piece}
    (h : readPieces? q s = some (ps, after)) :
    s = ps.flatMap Piece.spelling ++ q.char :: after ∧ ∀ p ∈ ps, p.Fits q := by
  fun_induction readPieces? q s generalizing ps after with
  | case1 => cases h
  | case2 a b c d rest digits ih =>
    obtain ⟨⟨ps, after⟩, read, same⟩ := Option.map_eq_some_iff.1 h
    cases same
    obtain ⟨rfl, fits⟩ := ih read
    exact ⟨by simp [Piece.spelling], List.forall_mem_cons.2 ⟨digits, fits⟩⟩
  | case3 => cases h
  | case4 letter rest _ ok ih =>
    obtain ⟨⟨ps, after⟩, read, same⟩ := Option.map_eq_some_iff.1 h
    cases same
    obtain ⟨rfl, fits⟩ := ih read
    exact ⟨by simp [Piece.spelling], List.forall_mem_cons.2 ⟨ok, fits⟩⟩
  | case5 => cases h
  | case6 rest =>
    cases h
    exact ⟨rfl, by simp⟩
  | case7 => cases h
  | case8 c rest _ _ notQuote notBackslash ih =>
    obtain ⟨⟨ps, after⟩, read, same⟩ := Option.map_eq_some_iff.1 h
    cases same
    obtain ⟨rfl, fits⟩ := ih read
    exact ⟨by simp [Piece.spelling], List.forall_mem_cons.2 ⟨⟨notQuote, notBackslash⟩, fits⟩⟩

/-- A literal that was read is well formed, and its spelling is what was taken. -/
theorem of_read? {s after : List Char} {l : Literal} (h : read? s = some (l, after)) :
    s = l.spelling ++ after ∧ l.WellFormed := by
  cases s with
  | nil => cases h
  | cons c rest =>
    simp only [read?, Option.bind_eq_some_iff, Option.map_eq_some_iff] at h
    obtain ⟨q, opened, ⟨ps, after⟩, read, same⟩ := h
    cases same
    obtain ⟨rfl, fits⟩ := of_readPieces? read
    rw [Quote.ofChar?_eq_some_iff] at opened
    exact ⟨by simp [spelling, opened], fits⟩

theorem length_read? {s after : List Char} {l : Literal} (h : read? s = some (l, after)) :
    after.length < s.length := by
  obtain ⟨rfl, _⟩ := of_read? h
  simp only [spelling, List.length_append, List.length_cons]
  omega

end Literal

end JsonPath
