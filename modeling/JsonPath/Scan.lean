import JsonPath.Token

/-!
Scans: a text cut into tokens from left to right, up to its end or to the first error. To normalize
a path is to scan it for the nodes that it denotes.
-/

namespace JsonPath

structure Scan where
  tokens : List Token
  error : Option PathError
  deriving DecidableEq, Repr

/-- A node together with the byte offset at which it becomes known. -/
structure Emission where
  node : Node
  offset : Nat
  deriving DecidableEq, Repr

namespace Scan

/-- The scan of a text with one more token in front. -/
def cons (t : Token) (scan : Scan) : Scan :=
  ⟨t :: scan.tokens, scan.error.map (·.shift t.size)⟩

/-- Scans a text in which `$` has no meaning of its own. -/
def ofText (s : List Char) : Scan :=
  match s with
  | [] => ⟨[], none⟩
  | c :: rest =>
    match _found : Token.find c rest with
    | .token t after => (ofText after).cons t
    | .halt last e => ⟨last, some e⟩
termination_by s.length
decreasing_by exact Token.length_find _found

/-- Scans a path. A `$` is the root only where a path begins, and only alone or before a dot. -/
def ofPath : List Char → Scan
  | ['$'] => ⟨[.root], none⟩
  | '$' :: '.' :: rest => (ofText ('.' :: rest)).cons .root
  | s => ofText s

def nodes (scan : Scan) : Path := scan.tokens.filterMap Token.node?

def result (scan : Scan) : Except PathError Path :=
  match scan.error with
  | none => .ok scan.nodes
  | some e => .error e

/-- Where no error stops the scan, its tokens are the text. -/
theorem spelling_ofText {s : List Char} (h : (ofText s).error = none) :
    (ofText s).tokens.flatMap Token.spelling = s := by
  fun_induction ofText s with
  | case1 => rfl
  | case2 c rest t after found ih =>
    simp only [cons, Option.map_eq_none_iff] at h
    simp [cons, ih h, Token.spelling_append_of_find found]
  | case3 => cases h

theorem spelling_ofPath {s : List Char} (h : (ofPath s).error = none) :
    (ofPath s).tokens.flatMap Token.spelling = s := by
  revert h
  unfold ofPath
  split
  · intro _
    rfl
  · intro h
    simp only [cons, Option.map_eq_none_iff] at h
    simp [cons, Token.spelling, spelling_ofText h]
  · exact spelling_ofText

/-- The nodes of tokens that begin at offset `start`, each where it becomes known. -/
def emissionsFrom (start : Nat) : List Token → List Emission
  | [] => []
  | t :: ts =>
    match t.node? with
    | some node => ⟨node, t.mark start⟩ :: emissionsFrom (start + t.size) ts
    | none => emissionsFrom (start + t.size) ts

/-- What the scan emits, before an error too. -/
def emissions (scan : Scan) : List Emission := emissionsFrom 0 scan.tokens

end Scan

/-- The nodes of a path, or the first error in it. Scripts, filters and subpaths are not looked
into. -/
def normalize (path : String) : Except PathError Path := (Scan.ofPath path.toList).result

end JsonPath
