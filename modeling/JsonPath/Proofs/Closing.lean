import JsonPath.Proofs.Nesting
import JsonPath.Token

/-!
The three endings of the search for a closing bracket. Text is cut into atoms, which the search
passes over one at a time; whether a bracket stays open in it is said by balance alone. Main
statement: each ending is reported exactly of the texts that it describes.
-/

namespace JsonPath

/-- A plain character, a whole literal or a single bracket. -/
inductive Atom
  | plain (c : Char)
  | literal (l : Literal)
  | opening
  | closing

namespace Atom

def Fits : Atom → Prop
  | plain c => IsPlain c
  | literal l => l.WellFormed
  | opening => True
  | closing => True

def spelling : Atom → List Char
  | plain c => [c]
  | literal l => l.spelling
  | opening => ['[']
  | closing => [']']

end Atom

/-- A text of atoms in which a bracket in front of it is never closed: no closing bracket among them
has balanced text before it. -/
def StaysOpen (s : List Char) : Prop :=
  ∃ atoms : List Atom, (∀ a ∈ atoms, a.Fits) ∧ s = atoms.flatMap Atom.spelling ∧
    ∀ before after, atoms = before ++ .closing :: after → ¬ Balanced (before.flatMap Atom.spelling)

namespace Closing

/-- The text that the search passed over. -/
def passed (s : List Char) : Closing → List Char
  | closed body _ => body
  | unclosed => s
  | brokenLiteral _ before => before

theorem passed_prepend (front s : List Char) (c : Closing) :
    (c.prepend front).passed (front ++ s) = front ++ c.passed s := by
  cases c <;> rfl

/-- Atoms are all that the search passes over. -/
theorem exists_atoms (inner : Nat) (s : List Char) :
    ∃ atoms : List Atom, (∀ a ∈ atoms, a.Fits) ∧
      (find inner s).passed s = atoms.flatMap Atom.spelling := by
  fun_induction find inner s with
  | case1 => exact ⟨[], by simp, rfl⟩
  | case2 inner s ih =>
    obtain ⟨atoms, fit, same⟩ := ih
    refine ⟨.opening :: atoms, List.forall_mem_cons.2 ⟨trivial, fit⟩, ?_⟩
    rw [List.flatMap_cons, ← same]
    exact passed_prepend ['['] s _
  | case3 => exact ⟨[], by simp, rfl⟩
  | case4 s inner _ ih =>
    obtain ⟨atoms, fit, same⟩ := ih
    refine ⟨.closing :: atoms, List.forall_mem_cons.2 ⟨trivial, fit⟩, ?_⟩
    rw [List.flatMap_cons, ← same]
    exact passed_prepend [']'] s _
  | case5 inner c s notOpen notClose notQuote ih =>
    obtain ⟨atoms, fit, same⟩ := ih
    have neutral : IsPlain c := by
      refine ⟨notOpen, notClose, ?_, ?_⟩ <;> rintro rfl <;> cases notQuote
    refine ⟨.plain c :: atoms, List.forall_mem_cons.2 ⟨neutral, fit⟩, ?_⟩
    rw [List.flatMap_cons, ← same]
    exact passed_prepend [c] s _
  | case6 => exact ⟨[], by simp, rfl⟩
  | case7 inner c s _ _ q _ l after read ih =>
    obtain ⟨atoms, fit, same⟩ := ih
    obtain ⟨whole, wellFormed⟩ := Literal.of_read? read
    refine ⟨.literal l :: atoms, List.forall_mem_cons.2 ⟨wellFormed, fit⟩, ?_⟩
    rw [List.flatMap_cons, ← same, whole]
    exact passed_prepend l.spelling after _

/-- The search passes over an atom, unless that is the bracket it looks for. -/
theorem find_atom {a : Atom} (fit : a.Fits) (inner : Nat) (rest : List Char) :
    (∃ n, find inner (a.spelling ++ rest) = (find n rest).prepend a.spelling) ∨
      a = .closing ∧ find inner (a.spelling ++ rest) = closed [] rest := by
  cases a with
  | plain c => exact .inl ⟨inner, find_plain fit inner rest⟩
  | literal l => exact .inl ⟨inner, find_literal fit inner rest⟩
  | opening => exact .inl ⟨inner + 1, find_open inner rest⟩
  | closing =>
    cases inner with
    | zero => exact .inr ⟨rfl, find_last rest⟩
    | succ inner => exact .inl ⟨inner, find_close inner rest⟩

/-- Atoms are passed over one after another, up to the bracket that the search looks for. -/
theorem find_atoms {atoms : List Atom} (fit : ∀ a ∈ atoms, a.Fits) (inner : Nat)
    (rest : List Char) :
    (∃ n, find inner (atoms.flatMap Atom.spelling ++ rest) =
      (find n rest).prepend (atoms.flatMap Atom.spelling)) ∨
    ∃ before after, atoms = before ++ .closing :: after ∧
      find inner (atoms.flatMap Atom.spelling ++ rest) =
        closed (before.flatMap Atom.spelling) (after.flatMap Atom.spelling ++ rest) := by
  induction atoms generalizing inner with
  | nil => exact .inl ⟨inner, (prepend_nil _).symm⟩
  | cons a atoms ih =>
    obtain ⟨first, others⟩ := List.forall_mem_cons.1 fit
    rw [List.flatMap_cons, List.append_assoc]
    rcases find_atom first inner (atoms.flatMap Atom.spelling ++ rest) with ⟨n, step⟩ | ⟨rfl, stop⟩
    · rw [step]
      rcases ih others n with ⟨m, run⟩ | ⟨before, after, rfl, found⟩
      · exact .inl ⟨m, by rw [run, prepend_prepend]⟩
      · exact .inr ⟨a :: before, after, rfl, by rw [found]; rfl⟩
    · exact .inr ⟨[], atoms, rfl, stop⟩

/-- Where a bracket stays open the search goes on behind the text. -/
theorem find_of_staysOpen {s : List Char} (h : StaysOpen s) (rest : List Char) :
    ∃ n, find 0 (s ++ rest) = (find n rest).prepend s := by
  obtain ⟨atoms, fit, rfl, staysOpen⟩ := h
  rcases find_atoms fit 0 rest with run | ⟨before, after, split, found⟩
  · exact run
  · exact absurd (find_eq_closed_iff.1 found).1 (staysOpen before after split)

/-- What the search passed over without an end holds no bracket that would have been one. -/
theorem staysOpen_passed {s rest : List Char} (passes : (find 0 s).passed s ++ rest = s)
    (noEnd : ∀ body rest, find 0 s ≠ closed body rest) : StaysOpen ((find 0 s).passed s) := by
  obtain ⟨atoms, fit, same⟩ := exists_atoms 0 s
  refine ⟨atoms, fit, same, ?_⟩
  rintro before after rfl balanced
  apply noEnd (before.flatMap Atom.spelling) (after.flatMap Atom.spelling ++ rest)
  refine find_eq_closed_iff.2 ⟨balanced, ?_⟩
  rw [← passes, same]
  simp [Atom.spelling]

theorem find_eq_unclosed_iff {s : List Char} : find 0 s = unclosed ↔ StaysOpen s := by
  constructor
  · intro h
    have staysOpen := @staysOpen_passed s [] (by simp [h, passed]) (by simp [h])
    rwa [h] at staysOpen
  · intro h
    obtain ⟨n, run⟩ := find_of_staysOpen h []
    rw [List.append_nil, find] at run
    exact run

theorem find_eq_brokenLiteral_iff {q : Quote} {s before : List Char} :
    find 0 s = brokenLiteral q before ↔
      StaysOpen before ∧
        ∃ after, s = before ++ q.char :: after ∧ Literal.read? (q.char :: after) = none := by
  constructor
  · intro h
    obtain ⟨after, whole, unread⟩ := of_brokenLiteral h
    have staysOpen :=
      @staysOpen_passed s (q.char :: after) (by rw [h]; exact whole.symm) (by simp [h])
    rw [h] at staysOpen
    exact ⟨staysOpen, after, whole, unread⟩
  · rintro ⟨staysOpen, after, rfl, unread⟩
    obtain ⟨n, run⟩ := find_of_staysOpen staysOpen (q.char :: after)
    rw [run, find_quote, unread]
    simp [prepend]

/-- What is said of the bracket at an offset: where its closing bracket stands, or what is wrong. -/
def report (opened : Nat) : Closing → Except PathError Nat
  | closed body _ => .ok (opened + 1 + Text.size body)
  | unclosed => .error (.unmatchedBracket opened)
  | brokenLiteral q before => .error (.unmatchedQuote q (opened + 1 + Text.size before))

theorem report_eq_ok_iff {opened n : Nat} {c : Closing} :
    c.report opened = .ok n ↔
      ∃ body rest, c = closed body rest ∧ n = opened + 1 + Text.size body := by
  cases c <;> simp [report, eq_comm]

theorem report_eq_unmatchedQuote_iff {opened n : Nat} {q : Quote} {c : Closing} :
    c.report opened = .error (.unmatchedQuote q n) ↔
      ∃ before, c = brokenLiteral q before ∧ n = opened + 1 + Text.size before := by
  cases c <;> simp [report, eq_comm, and_assoc]

theorem report_eq_unmatchedBracket_iff {opened n : Nat} {c : Closing} :
    c.report opened = .error (.unmatchedBracket n) ↔ c = unclosed ∧ n = opened := by
  cases c <;> simp [report, eq_comm]

/-- A path that holds the bracket is rejected with what is said here. -/
theorem find_halt_of_report {s : List Char} {e : PathError} (h : (find 0 s).report 0 = .error e) :
    Token.find '[' s = .halt [] e := by
  have subscript : Token.find '[' s = Token.findSubscript s := rfl
  rw [subscript, Token.findSubscript]
  cases found : find 0 s with
  | closed =>
    rw [found] at h
    cases h
  | unclosed =>
    rw [found] at h
    cases h
    rfl
  | brokenLiteral q before =>
    rw [found] at h
    cases h
    simp

end Closing

theorem Text.size_behind_bracket (front s : List Char) :
    Text.size (front ++ '[' :: s) = Text.size front + 1 + Text.size s := by
  rw [Text.size_append, Text.size_cons, Nat.add_assoc]
  rfl

/-- **The closing bracket is decided by balance.** In a path with a bracket behind `front`, the
search reports the one closing bracket before which the text is balanced. If there is none, it
reports the first quote up to which the bracket stays open and with which no literal begins, or else
that the bracket stays open to the end. Offsets count from the start of the path. -/
theorem closing_bracket_balances (front s : List Char) :
    let report := (Closing.find 0 s).report (Text.size front)
    (∀ n, report = .ok n ↔ ∃ body rest, s = body ++ ']' :: rest ∧ Balanced body ∧
      n = Text.size (front ++ '[' :: body)) ∧
    (∀ body rest body' rest', s = body ++ ']' :: rest → Balanced body →
      s = body' ++ ']' :: rest' → Balanced body' → body = body') ∧
    (∀ q n, report = .error (.unmatchedQuote q n) ↔ ∃ before after, s = before ++ q.char :: after ∧
      StaysOpen before ∧ n = Text.size (front ++ '[' :: before) ∧
      ∀ l rest, Literal.WellFormed l → q.char :: after ≠ l.spelling ++ rest) ∧
    (report = .error (.unmatchedBracket (Text.size front)) ↔ StaysOpen s) ∧
    ∀ e, (Closing.find 0 s).report 0 = .error e → Token.find '[' s = .halt [] e := by
  simp only [Text.size_behind_bracket]
  refine ⟨?_, ?_, ?_, ?_, fun e => Closing.find_halt_of_report⟩
  · intro n
    simp only [Closing.report_eq_ok_iff, Closing.find_eq_closed_iff]
    constructor
    · rintro ⟨body, rest, ⟨balanced, whole⟩, rfl⟩
      exact ⟨body, rest, whole, balanced, rfl⟩
    · rintro ⟨body, rest, whole, balanced, rfl⟩
      exact ⟨body, rest, ⟨balanced, whole⟩, rfl⟩
  · intro body rest body' rest' whole balanced whole' balanced'
    have found := Closing.find_eq_closed_iff.2 ⟨balanced, whole⟩
    rw [Closing.find_eq_closed_iff.2 ⟨balanced', whole'⟩] at found
    cases found
    rfl
  · intro q n
    simp only [Closing.report_eq_unmatchedQuote_iff, Closing.find_eq_brokenLiteral_iff,
      Literal.read?_eq_none_iff]
    constructor
    · rintro ⟨before, ⟨staysOpen, after, whole, noLiteral⟩, rfl⟩
      exact ⟨before, after, whole, staysOpen, rfl, noLiteral⟩
    · rintro ⟨before, after, whole, staysOpen, rfl, noLiteral⟩
      exact ⟨before, ⟨staysOpen, after, whole, noLiteral⟩, rfl⟩
  · rw [Closing.report_eq_unmatchedBracket_iff, Closing.find_eq_unclosed_iff]
    exact and_iff_left rfl

end JsonPath
