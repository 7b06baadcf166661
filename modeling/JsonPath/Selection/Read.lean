import JsonPath.Literal
import JsonPath.Selection

/-!
Lists of selections separated by commas. Each entry is the first of these that the text opens with:
a slice, an identifier, an index, a quoted literal.
-/

namespace JsonPath

namespace Slice

/-- An index that may be left out. Digits that name no index count as left out. -/
def readBound (s : List Char) : Option Index × List Char :=
  match Index.read? s with
  | some (i, rest) => (some i, rest)
  | none => (none, s)

/-- Reads `start:stop` or `start:stop:step`, where each part may be left out. -/
def read? (s : List Char) : Option (Slice × List Char) :=
  match readBound s with
  | (start, ':' :: rest) =>
    match readBound rest with
    | (stop, ':' :: rest) =>
      let last := readBound rest
      some (⟨start.getD 0, stop, last.1.getD 1⟩, last.2)
    | (stop, rest) => some (⟨start.getD 0, stop, 1⟩, rest)
  | _ => none

theorem length_readBound (s : List Char) : (readBound s).2.length ≤ s.length := by
  unfold readBound
  split
  · rename_i read
    exact Nat.le_of_lt (Index.length_read? read)
  · exact Nat.le_refl _

theorem length_read? {s rest : List Char} {slice : Slice} (h : read? s = some (slice, rest)) :
    rest.length < s.length := by
  have first := length_readBound s
  unfold read? at h
  split at h
  · rename_i start afterColon readStart
    have second := length_readBound afterColon
    rw [readStart] at first
    simp only [List.length_cons] at first
    split at h
    · rename_i stop afterStop readStop
      have third := length_readBound afterStop
      rw [readStop] at second
      cases h
      simp only [List.length_cons] at second
      omega
    · rename_i stop afterStop _ readStop
      rw [readStop] at second
      cases h
      simp only at second
      omega
  · cases h

end Slice

namespace Identifier

def isHead (c : Char) : Bool := c.isAlpha || c = '_' || c = '$'

def isTail (c : Char) : Bool := c.isAlphanum || c = '_'

/-- Reads one or more letters, `_` and `$`, then letters, digits and `_`. The letters and digits are
those of ASCII. -/
def read? (s : List Char) : Option (List Char × List Char) :=
  if s.takeWhile isHead = [] then none
  else
    let rest := s.dropWhile isHead
    some (s.takeWhile isHead ++ rest.takeWhile isTail, rest.dropWhile isTail)

theorem append_of_read? {s name rest : List Char} (h : read? s = some (name, rest)) :
    s = name ++ rest ∧ name ≠ [] := by
  unfold read? at h
  split at h
  · cases h
  · rename_i some
    cases h
    simp [List.takeWhile_append_dropWhile, some]

theorem length_read? {s name rest : List Char} (h : read? s = some (name, rest)) :
    rest.length < s.length := by
  obtain ⟨rfl, nonempty⟩ := append_of_read? h
  have := List.length_pos_iff.2 nonempty
  simp only [List.length_append]
  omega

end Identifier

namespace Selection

/-- Reads the selection that a text opens with. -/
def read? (s : List Char) : Option (Selection × List Char) :=
  match Slice.read? s with
  | some (run, rest) => some (.slice run, rest)
  | none =>
    match Identifier.read? s with
    | some (name, rest) => some (.key (.name (String.ofList name)), rest)
    | none =>
      match Index.read? s with
      | some (i, rest) => some (.key (.index i), rest)
      | none => (Literal.read? s).map fun (l, rest) => (.key (.name (String.ofList l.text)), rest)

theorem length_read? {s rest : List Char} {e : Selection} (h : read? s = some (e, rest)) :
    rest.length < s.length := by
  unfold read? at h
  split at h
  · rename_i read
    cases h
    exact Slice.length_read? read
  · split at h
    · rename_i read
      cases h
      exact Identifier.length_read? read
    · split at h
      · rename_i read
        cases h
        exact Index.length_read? read
      · obtain ⟨⟨l, after⟩, read, same⟩ := Option.map_eq_some_iff.1 h
        cases same
        exact Literal.length_read? read

/-- Why a text is no list of selections. -/
inductive ListError
  /-- No selection stands where one must. -/
  | unrecognized
  /-- Neither a comma nor the end follows a selection; `tail` begins with that selection. -/
  | stray (character : Char) (tail : List Char)
  deriving DecidableEq, Repr

/-- Reads selections to the end of a text, with one comma between neighbours. -/
def readList (s : List Char) : Except ListError (List Selection) :=
  match _read : read? s with
  | none => .error .unrecognized
  | some (e, []) => .ok [e]
  | some (e, c :: rest) =>
    if c = ',' then (readList rest).map (e :: ·) else .error (.stray c s)
termination_by s.length
decreasing_by
  have := length_read? _read
  simp only [List.length_cons] at this
  omega

end Selection

end JsonPath
