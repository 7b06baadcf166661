import JsonPath.Proofs.Grammar

/-!
What errors say of the text that they come from. An offset always stands where the text in front
ends, so it is a boundary between characters. Main statement: every error that normalization
reports is true of its path.
-/

namespace JsonPath

/-- The path holds a text between a bracket and the bracket that closes it. -/
def Encloses (p s : List Char) : Prop :=
  ∃ front back, p = front ++ '[' :: (s ++ ']' :: back) ∧ Balanced s

namespace PathError

/-- What each error says of a path. -/
inductive Describes : PathError → List Char → Prop
  | incompletePath {front : List Char} :
      Describes (.incompletePath (Text.size front)) (front ++ ['.'])
  /-- The offset is that of the last dot of the first three. -/
  | tripleDot {front back : List Char} (first : front.getLast? ≠ some '.') :
      Describes (.tripleDot (Text.size front + 2)) (front ++ '.' :: '.' :: '.' :: back)
  | emptySubscript {front back : List Char} :
      Describes (.emptySubscript (Text.size front)) (front ++ '[' :: ']' :: back)
  | unmatchedBracket {front back : List Char}
      (unclosed : ∀ body rest, back = body ++ ']' :: rest → ¬ Balanced body) :
      Describes (.unmatchedBracket (Text.size front)) (front ++ '[' :: back)
  | unmatchedQuote {q : Quote} {front back : List Char} (opened : '[' ∈ front)
      (noLiteral : ∀ l rest, Literal.WellFormed l → q.char :: back ≠ l.spelling ++ rest) :
      Describes (.unmatchedQuote q (Text.size front)) (front ++ q.char :: back)
  | unmatchedScript {p s : List Char} (enclosed : Encloses p s) (opens : ['('] <+: s)
      (ends : ¬ [')'] <:+ s) : Describes (.unmatchedScript (String.ofList s)) p
  | unmatchedFilter {p s : List Char} (enclosed : Encloses p s) (opens : ['?', '('] <+: s)
      (ends : ¬ [')'] <:+ s) : Describes (.unmatchedFilter (String.ofList s)) p
  | malformedFilter {p s : List Char} (enclosed : Encloses p ('?' :: s))
      (other : s.head? ≠ some '(') : Describes (.malformedFilter (String.ofList ('?' :: s))) p
  /-- Behind some selections of the list stands something that opens with none. -/
  | invalidSubscript {p front tail : List Char} {es : List Selection}
      (enclosed : Encloses p (front ++ tail)) (leading : Selection.Leading front es)
      (unrecognized : ∀ e rest, ¬ Selection.Opens tail e rest) :
      Describes (.invalidSubscript (String.ofList (front ++ tail))) p
  /-- Behind some selections of the list stands one with the character behind it. -/
  | invalidCharacter {p front tail rest : List Char} {es : List Selection} {e : Selection}
      {c : Char} (enclosed : Encloses p (front ++ tail)) (leading : Selection.Leading front es)
      (opens : Selection.Opens tail e (c :: rest)) (notComma : c ≠ ',') :
      Describes (.invalidCharacter c (String.ofList tail)) p

end PathError

open PathError (Describes)

namespace Text

theorem no_ending_of_cons {c d : Char} {s : List Char} (differ : d ≠ c) (h : ¬ [c] <:+ s) :
    ¬ [c] <:+ d :: s := by
  intro ending
  rcases List.suffix_cons_iff.1 ending with whole | inner
  · exact differ (List.cons.inj whole).1.symm
  · exact h inner

end Text

namespace Subscript

theorem describes_of_list {p s : List Char} {e : PathError} (enclosed : Encloses p s)
    (h : ofList s = .error e) (n : Nat) : (e.shift n).Describes p := by
  unfold ofList at h
  split at h
  · cases h
  · rename_i read
    cases h
    obtain ⟨front, tail, es, rfl, leading, nothing⟩ := Selection.of_unrecognized read
    exact .invalidSubscript enclosed leading nothing
  · rename_i c tail read
    cases h
    obtain ⟨front, es, e, rest, rfl, leading, opens, notComma⟩ := Selection.of_stray read
    exact .invalidCharacter enclosed leading opens notComma

/-- What is wrong with a subscript is wrong with every path that encloses it. -/
theorem describes_of_node {front s back : List Char} {e : PathError} (balanced : Balanced s)
    (h : node s = .error e) :
    (e.shift (Text.size front)).Describes (front ++ '[' :: (s ++ ']' :: back)) := by
  have enclosed : Encloses (front ++ '[' :: (s ++ ']' :: back)) s := ⟨front, back, rfl, balanced⟩
  unfold node at h
  split at h
  · cases h
    exact .emptySubscript
  · cases h
  · split at h
    · cases h
    · rename_i body _ noStem
      cases h
      rw [Text.stem?_eq_none_iff] at noStem
      exact .unmatchedFilter enclosed ⟨body, rfl⟩
        (Text.no_ending_of_cons (by decide) (Text.no_ending_of_cons (by decide) noStem))
  · rename_i body notParen
    cases h
    refine .malformedFilter enclosed ?_
    intro first
    cases body with
    | nil => cases first
    | cons c body =>
      cases first
      exact notParen body rfl
  · split at h
    · cases h
    · rename_i body _ noStem
      cases h
      rw [Text.stem?_eq_none_iff] at noStem
      exact .unmatchedScript enclosed ⟨body, rfl⟩ (Text.no_ending_of_cons (by decide) noStem)
  · cases h
  · exact describes_of_list enclosed h _

end Subscript

namespace Token

theorem describes_of_dots {front rest : List Char} {last : List Token} {e : PathError}
    (h : findDots rest = .halt last e) (apart : front.getLast? ≠ some '.') :
    (e.shift (Text.size front)).Describes (front ++ '.' :: rest) := by
  unfold findDots at h
  split at h
  · cases h
    exact .incompletePath
  · cases h
    exact .tripleDot apart
  · cases h
  · cases h

theorem describes_of_subscript {front rest : List Char} {last : List Token} {e : PathError}
    (h : findSubscript rest = .halt last e) :
    (e.shift (Text.size front)).Describes (front ++ '[' :: rest) := by
  unfold findSubscript at h
  split at h
  · rename_i body after closed
    split at h
    · cases h
    · rename_i failed
      cases h
      obtain ⟨balanced, rfl⟩ := Closing.find_eq_closed_iff.1 closed
      exact Subscript.describes_of_node balanced failed
  · rename_i unclosed
    cases h
    exact .unmatchedBracket fun body after => Closing.not_balanced_of_unclosed unclosed
  · rename_i q before broken
    cases h
    obtain ⟨after, rfl, unread⟩ := Closing.of_brokenLiteral broken
    have size : Text.size front + (1 + Text.size before) = Text.size (front ++ '[' :: before) := by
      rw [Text.size_append, Text.size_cons]
      rfl
    have describes := @Describes.unmatchedQuote q (front ++ '[' :: before) after (by simp)
      (Literal.read?_eq_none_iff.1 unread)
    rw [← size, List.append_assoc] at describes
    exact describes

/-- Where reading halts, the error says why. Dots have to be counted from the first. -/
theorem describes_of_halt {front rest : List Char} {c : Char} {last : List Token} {e : PathError}
    (h : find c rest = .halt last e) (apart : c = '.' → front.getLast? ≠ some '.') :
    (e.shift (Text.size front)).Describes (front ++ c :: rest) := by
  unfold find at h
  split at h
  · subst c
    exact describes_of_dots h (apart rfl)
  · split at h
    · subst c
      exact describes_of_subscript h
    · split at h
      · cases h
      · split at h <;> cases h

/-- A token that stands before a dot does not end in one. -/
theorem getLast?_spelling {t : Token} {after : List Char} (stands : t.Stands after)
    (first : after.head? = some '.') : t.spelling.getLast? ≠ some '.' := by
  cases t with
  | root => decide
  | dot =>
    obtain ⟨c, head, notDot⟩ := stands
    rw [first] at head
    cases head
    exact absurd rfl notDot
  | descent => exact absurd first stands
  | wildcard => decide
  | parent => decide
  | text chars =>
    obtain ⟨_, _, inside, _⟩ := stands
    intro last
    apply inside '.' (List.mem_of_getLast? last)
    exact .inl rfl
  | subscript body node =>
    simp [spelling, List.getLast?_cons]

end Token

namespace Scan

theorem getLast?_of_cons {t : Token} {ts : List Token} {s rest : List Char} (stands : t.Stands s)
    (others : Cut ts s rest) (first : rest.head? = some '.')
    (inner : (ts.flatMap Token.spelling).getLast? ≠ some '.') :
    ((t :: ts).flatMap Token.spelling).getLast? ≠ some '.' := by
  rw [List.flatMap_cons, List.getLast?_append]
  cases back : ts.flatMap Token.spelling with
  | nil =>
    have same := others.spelling
    rw [back, List.nil_append] at same
    subst same
    exact Token.getLast?_spelling stands first
  | cons c cs =>
    rw [back, List.getLast?_cons] at inner
    rw [List.getLast?_cons]
    exact inner

theorem getLast?_of_cut {ts : List Token} {s rest : List Char} (h : Cut ts s rest)
    (first : rest.head? = some '.') : (ts.flatMap Token.spelling).getLast? ≠ some '.' := by
  induction h with
  | nil => simp
  | cons _ stands others ih => exact getLast?_of_cons stands others first (ih first)

theorem getLast?_of_pathCut {ts : List Token} {s rest : List Char} (h : PathCut ts s rest)
    (first : rest.head? = some '.') : (ts.flatMap Token.spelling).getLast? ≠ some '.' := by
  cases h with
  | rooted stands others =>
    exact getLast?_of_cons stands others first (getLast?_of_cut others first)
  | plain _ cut => exact getLast?_of_cut cut first

end Scan

/-- **Errors describe the path.** Every error that normalization reports says of the path what is
true of it, at the offset or of the part of the text that it names. -/
theorem normalize_error_describes (p : String) (e : PathError) (h : normalize p = .error e) :
    e.Describes p.toList := by
  obtain ⟨ts, rest, cut, rfl | ⟨c, after, last, e', rfl, halted⟩⟩ := Scan.exists_pathCut p.toList
  · rw [normalize, Scan.ofPath_of_whole cut] at h
    cases h
  · have error : (Scan.ofPath p.toList).error =
        some (e'.shift (Text.size (ts.flatMap Token.spelling))) := by
      rw [Scan.ofPath_of_cut cut, Scan.ofText_halt halted, Scan.prepend_error]
      rfl
    rw [normalize, Scan.result, error] at h
    cases h
    rw [cut.spelling]
    apply Token.describes_of_halt halted
    intro dot
    apply Scan.getLast?_of_pathCut cut
    exact congrArg some dot

/-- Offsets count the two bytes of `é`. -/
theorem normalize_error_describes_dots :
    normalize "é..." = .error (.tripleDot 4) ∧ (PathError.tripleDot 4).Describes "é...".toList := by
  have failed : normalize "é..." = .error (.tripleDot 4) := by
    have text : Token.find 'é' ['.', '.', '.'] = .token (.text ['é']) ['.', '.', '.'] := by decide
    have dots : Token.find '.' ['.', '.'] = .halt [.descent] (.tripleDot 2) := by decide
    change (Scan.ofText ['é', '.', '.', '.']).result = _
    rw [Scan.ofText_cons text, Scan.ofText_halt dots]
    rfl
  exact ⟨failed, normalize_error_describes "é..." _ failed⟩

end JsonPath
