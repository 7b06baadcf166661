import JsonPath.Bracket
import JsonPath.Subscript

/-!
Tokens: the pieces of a path's text, each with the node that it denotes. A token is found by looking
at the text from its first character on.
-/

namespace JsonPath

inductive Token
  | root
  | dot
  | descent
  | wildcard
  | parent
  | text (chars : List Char)
  | subscript (body : List Char) (node : Node)
  deriving DecidableEq, Repr

namespace Token

/-- The part of the path that the token is. -/
def spelling : Token → List Char
  | root => ['$']
  | dot => ['.']
  | descent => ['.', '.']
  | wildcard => ['*']
  | parent => ['^']
  | text chars => chars
  | subscript body _ => '[' :: (body ++ [']'])

def size (t : Token) : Nat := Text.size t.spelling

/-- Plain text names a child, or calls a function when it ends in `()`. -/
def ofText (chars : List Char) : Node :=
  match Text.stem? ['(', ')'] chars with
  | some function => .call (String.ofList function)
  | none => .child (.name (String.ofList chars))

/-- The node that the token denotes. A lone dot only separates. -/
def node? : Token → Option Node
  | root => some .root
  | dot => none
  | descent => some .descent
  | wildcard => some .wildcard
  | parent => some .parent
  | text chars => some (ofText chars)
  | subscript _ node => some node

/-- Where the node of a token at offset `start` is known: for plain text at its end, since the next
character may still belong to it, and for every other token at its start. -/
def mark (start : Nat) : Token → Nat
  | text chars => start + Text.size chars
  | _ => start

/-- The characters that may follow the first one of plain text. -/
def isText (c : Char) : Bool := c ≠ '.' && c ≠ '[' && c ≠ '^'

/-- What stands at a place where a token may begin. -/
inductive Found
  | token (token : Token) (rest : List Char)
  /-- Reading ends here, after the tokens `last`. Offsets count from this place. -/
  | halt (last : List Token) (error : PathError)
  deriving DecidableEq, Repr

def findDots : List Char → Found
  | [] => .halt [] (.incompletePath 0)
  | '.' :: '.' :: _ => .halt [descent] (.tripleDot 2)
  | '.' :: rest => .token descent rest
  | rest => .token dot rest

def findSubscript (s : List Char) : Found :=
  match Closing.find 0 s with
  | .closed body rest =>
    match Subscript.node body with
    | .ok node => .token (subscript body node) rest
    | .error e => .halt [] e
  | .unclosed => .halt [] (.unmatchedBracket 0)
  | .brokenLiteral q before => .halt [] (.unmatchedQuote q (1 + Text.size before))

/-- Finds the token that begins with `c`. A `*` in the middle of plain text belongs to it. -/
def find (c : Char) (rest : List Char) : Found :=
  if c = '.' then findDots rest
  else if c = '[' then findSubscript rest
  else if c = '^' then .token parent rest
  else if c = '*' then .token wildcard rest
  else .token (text (c :: rest.takeWhile isText)) (rest.dropWhile isText)

/-- A token and what follows it are the text in which it was found. -/
theorem spelling_append_of_find {c : Char} {rest after : List Char} {t : Token}
    (h : find c rest = .token t after) : t.spelling ++ after = c :: rest := by
  unfold find at h
  split at h
  · subst c
    unfold findDots at h
    split at h <;> cases h <;> rfl
  · split at h
    · subst c
      unfold findSubscript at h
      split at h
      · rename_i found
        split at h
        · cases h
          simp [spelling, Closing.append_of_find found]
        · cases h
      · cases h
      · cases h
    · split at h
      · cases h
        simp_all [spelling]
      · split at h
        · cases h
          simp_all [spelling]
        · cases h
          simp [spelling, List.takeWhile_append_dropWhile]

theorem spelling_ne_nil_of_find {c : Char} {rest after : List Char} {t : Token}
    (h : find c rest = .token t after) : t.spelling ≠ [] := by
  unfold find findDots findSubscript at h
  repeat' split at h
  all_goals cases h
  all_goals simp [spelling]

theorem length_find {c : Char} {rest after : List Char} {t : Token}
    (h : find c rest = .token t after) : after.length < (c :: rest).length := by
  have nonempty := List.length_pos_iff.2 (spelling_ne_nil_of_find h)
  rw [← spelling_append_of_find h, List.length_append]
  omega

end Token

end JsonPath
