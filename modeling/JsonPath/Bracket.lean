import JsonPath.Literal

/-!
Closing brackets. Brackets nest; a quoted literal is passed over whole, so brackets inside it
neither open nor close anything.
-/

namespace JsonPath

/-- What becomes of an open bracket in the text after it. -/
inductive Closing
  /-- The bracket encloses `body`, and `rest` follows its closing bracket. -/
  | closed (body rest : List Char)
  | unclosed
  /-- After `before` stands a quote with which no literal opens. -/
  | brokenLiteral (quote : Quote) (before : List Char)
  deriving DecidableEq, Repr

namespace Closing

/-- The same for a text with more in front that neither closes the bracket nor breaks a literal. -/
def prepend (front : List Char) : Closing → Closing
  | closed body rest => closed (front ++ body) rest
  | unclosed => unclosed
  | brokenLiteral q before => brokenLiteral q (front ++ before)

/-- Looks for the bracket that closes the outermost of `inner + 1` open ones. -/
def find (inner : Nat) (s : List Char) : Closing :=
  match s with
  | [] => unclosed
  | c :: rest =>
    if c = '[' then (find (inner + 1) rest).prepend [c]
    else if c = ']' then
      match inner with
      | 0 => closed [] rest
      | inner + 1 => (find inner rest).prepend [c]
    else
      match Quote.ofChar? c with
      | none => (find inner rest).prepend [c]
      | some q =>
        match _read : Literal.read? (c :: rest) with
        | none => brokenLiteral q []
        | some (l, after) => (find inner after).prepend l.spelling
termination_by s.length
decreasing_by
  all_goals simp only [List.length_cons]
  · omega
  · omega
  · omega
  · have := Literal.length_read? _read
    simp only [List.length_cons] at this
    omega

theorem prepend_eq_closed {front body rest : List Char} {c : Closing}
    (h : c.prepend front = closed body rest) :
    ∃ tail, c = closed tail rest ∧ body = front ++ tail := by
  cases c with
  | closed tail after =>
    cases h
    exact ⟨tail, rfl, rfl⟩
  | unclosed => cases h
  | brokenLiteral => cases h

/-- The body, the closing bracket and the rest are the text. -/
theorem append_of_find {inner : Nat} {s body rest : List Char}
    (h : find inner s = closed body rest) : s = body ++ ']' :: rest := by
  fun_induction find inner s generalizing body rest with
  | case1 => cases h
  | case2 _ _ ih =>
    obtain ⟨tail, found, rfl⟩ := prepend_eq_closed h
    simp [← ih found]
  | case3 =>
    cases h
    rfl
  | case4 _ _ _ ih =>
    obtain ⟨tail, found, rfl⟩ := prepend_eq_closed h
    simp [← ih found]
  | case5 _ _ _ _ _ _ ih =>
    obtain ⟨tail, found, rfl⟩ := prepend_eq_closed h
    simp [← ih found]
  | case6 => cases h
  | case7 _ _ _ _ _ _ _ _ _ read ih =>
    obtain ⟨tail, found, rfl⟩ := prepend_eq_closed h
    rw [(Literal.of_read? read).1, ih found]
    simp

end Closing

end JsonPath
