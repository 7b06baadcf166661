import JsonPath.Proofs.Closing
import JsonPath.Proofs.Grammar

/-!
Two readers of one literal. The search for a closing bracket passes over the literals of a subscript
before the list in it is read. Behind each comma that the list reader takes, the search has no inner
bracket open, so both come to the same quotes. Main statement: at such a quote both take the same
literal, and a list is never rejected for it.
-/

namespace JsonPath

namespace Balanced

/-- What a balanced text has behind a balanced front is balanced. -/
theorem of_append {front back : List Char} (hfront : Balanced front)
    (h : Balanced (front ++ back)) : Balanced back := by
  -- The search closes the whole text, and behind the front it has no inner bracket open.
  have found : Closing.find 0 (front ++ (back ++ [']'])) = .closed (front ++ back) [] :=
    Closing.find_eq_closed_iff.2 ⟨h, by simp⟩
  rw [Closing.find_append hfront] at found
  obtain ⟨tail, closed, same⟩ := Closing.prepend_eq_closed found
  obtain rfl := List.append_cancel_left same
  exact (Closing.find_eq_closed_iff.1 closed).1

/-- A balanced text that begins with a quote begins with a literal. -/
theorem of_quote {q : Quote} {tail : List Char} (h : Balanced (q.char :: tail)) :
    ∃ l after, Literal.WellFormed l ∧ q.char :: tail = l.spelling ++ after := by
  generalize whole : q.char :: tail = s at h
  cases h with
  | nil => cases whole
  | plain neutral _ => exact absurd (List.cons.inj whole).1.symm (ne_quote neutral q)
  | @literal l after wellFormed _ => exact ⟨l, after, wellFormed, rfl⟩
  | group _ _ =>
    have bracket : q.char = '[' := (List.cons.inj whole).1
    cases q <;> cases bracket

end Balanced

namespace Closing

/-- The search for a closing bracket on its way. Before `s` it has `m` inner brackets open; it
passes over the atoms and comes before `r`, with `n` of them open. -/
inductive Passes : List Atom → Nat → List Char → Nat → List Char → Prop
  | stay {n : Nat} {r : List Char} : Passes [] n r n r
  | plain {as : List Atom} {m n : Nat} {c : Char} {s r : List Char} (neutral : IsPlain c)
      (others : Passes as m s n r) : Passes (.plain c :: as) m (c :: s) n r
  | literal {as : List Atom} {m n : Nat} {l : Literal} {s after r : List Char}
      (read : Literal.read? s = some (l, after)) (others : Passes as m after n r) :
      Passes (.literal l :: as) m s n r
  | opening {as : List Atom} {m n : Nat} {s r : List Char} (others : Passes as (m + 1) s n r) :
      Passes (.opening :: as) m ('[' :: s) n r
  | closing {as : List Atom} {m n : Nat} {s r : List Char} (others : Passes as m s n r) :
      Passes (.closing :: as) (m + 1) (']' :: s) n r

namespace Passes

theorem append {as bs : List Atom} {k m n : Nat} {s t r : List Char} (first : Passes as k s m t)
    (second : Passes bs m t n r) : Passes (as ++ bs) k s n r := by
  induction first with
  | stay => exact second
  | plain neutral _ ih => exact .plain neutral (ih second)
  | literal read _ ih => exact .literal read (ih second)
  | opening _ ih => exact .opening (ih second)
  | closing _ ih => exact .closing (ih second)

/-- These are the turns that the search takes: what it finds from `s` on it finds from `r` on. -/
theorem find_eq {as : List Atom} {m n : Nat} {s r : List Char} (h : Passes as m s n r) :
    s = as.flatMap Atom.spelling ++ r ∧
      find m s = (find n r).prepend (as.flatMap Atom.spelling) := by
  induction h with
  | stay => exact ⟨rfl, (prepend_nil _).symm⟩
  | plain neutral _ ih =>
    obtain ⟨rfl, run⟩ := ih
    exact ⟨rfl, by rw [find_plain neutral, run, prepend_prepend]; rfl⟩
  | literal read _ ih =>
    obtain ⟨rfl, wellFormed⟩ := Literal.of_read? read
    obtain ⟨rfl, run⟩ := ih
    exact ⟨by simp [Atom.spelling], by rw [find_literal wellFormed, run, prepend_prepend]; rfl⟩
  | opening _ ih =>
    obtain ⟨rfl, run⟩ := ih
    exact ⟨rfl, by rw [find_open, run, prepend_prepend]; rfl⟩
  | closing _ ih =>
    obtain ⟨rfl, run⟩ := ih
    exact ⟨rfl, by rw [find_close, run, prepend_prepend]; rfl⟩

/-- Behind a balanced text the search has as many brackets open as before it. -/
theorem of_balanced {s : List Char} (h : Balanced s) (m : Nat) (rest : List Char) :
    ∃ as, Passes as m (s ++ rest) m rest := by
  induction h generalizing m rest with
  | nil => exact ⟨[], .stay⟩
  | plain neutral _ ih =>
    obtain ⟨as, run⟩ := ih m rest
    exact ⟨_, .plain neutral run⟩
  | @literal l s wellFormed _ ih =>
    obtain ⟨as, run⟩ := ih m rest
    rw [List.append_assoc]
    exact ⟨_, .literal (Literal.read?_spelling wellFormed _) run⟩
  | @group body s _ _ ihBody ih =>
    obtain ⟨inner, inside⟩ := ihBody (m + 1) (']' :: (s ++ rest))
    obtain ⟨as, run⟩ := ih m rest
    refine ⟨.opening :: (inner ++ .closing :: as), ?_⟩
    rw [List.cons_append, List.append_assoc, List.cons_append]
    exact .opening (inside.append (.closing run))

end Passes

end Closing

namespace Selection

/-- The reader of a list on its way. It has read the selections, each with a comma behind it,
and stands before `r`. -/
inductive Reaches : List Char → List Selection → List Char → Prop
  | start {s : List Char} : Reaches s [] s
  | next {s rest r : List Char} {e : Selection} {es : List Selection}
      (read : read? s = some (e, ',' :: rest)) (others : Reaches rest es r) : Reaches s (e :: es) r

/-- **List positions lie between balanced texts.** What the reader has taken closes every bracket
and every quote in it. -/
theorem Reaches.balanced {s r : List Char} {es : List Selection} (h : Reaches s es r) :
    ∃ front, s = front ++ r ∧ Balanced front := by
  induction h with
  | start => exact ⟨[], rfl, .nil⟩
  | next read _ ih =>
    obtain ⟨front, rfl, balanced⟩ := ih
    obtain ⟨t, rfl, spelled⟩ := (read?_eq_some_iff.1 read).spelled
    exact ⟨t ++ ',' :: front, by simp, spelled.balanced.append (.plain (by decide) balanced)⟩

/-- A text is rejected as unrecognized where the reader stands before something that is no
selection. -/
theorem readList_eq_unrecognized_iff_reaches {s : List Char} :
    readList s = .error .unrecognized ↔ ∃ es r, Reaches s es r ∧ read? r = none := by
  constructor
  · intro h
    fun_induction readList s with
    | case1 s unread => exact ⟨[], s, .start, unread⟩
    | case2 => cases h
    | case3 s e rest read ih =>
      cases others : readList rest with
      | ok =>
        rw [others] at h
        cases h
      | error stop =>
        rw [others] at h
        cases h
        obtain ⟨es, r, reaches, unread⟩ := ih others
        exact ⟨e :: es, r, .next read reaches, unread⟩
    | case4 => cases h
  · rintro ⟨es, r, reaches, unread⟩
    induction reaches with
    | start => exact readList_unread unread
    | next read _ ih =>
      rw [readList_cons read, ih unread]
      rfl

/-- Where the text that the reader stands before is balanced and begins with a quote, a literal is
read. -/
theorem read?_of_quote {q : Quote} {tail : List Char} (h : Balanced (q.char :: tail)) :
    ∃ l after, Literal.WellFormed l ∧ q.char :: tail = l.spelling ++ after ∧
      read? (q.char :: tail) = some (.key (.name (String.ofList l.text)), after) := by
  obtain ⟨l, after, wellFormed, same⟩ := h.of_quote
  refine ⟨l, after, wellFormed, same, ?_⟩
  rw [same]
  exact read?_eq_some_iff.2 (.literal wellFormed)

/-- What stops the reader in a balanced text is no quote. -/
theorem Reaches.no_quote {s r : List Char} {es : List Selection} (h : Reaches s es r)
    (balanced : Balanced s) (unread : read? r = none) (q : Quote) (tail : List Char) :
    r ≠ q.char :: tail := by
  rintro rfl
  obtain ⟨front, rfl, hfront⟩ := h.balanced
  obtain ⟨l, after, _, _, read⟩ := read?_of_quote (hfront.of_append balanced)
  rw [unread] at read
  cases read

end Selection

namespace Subscript

/-- Only a list that is not recognized makes a subscript invalid. -/
theorem unrecognized_of_node {s : List Char} {x : String}
    (h : node s = .error (.invalidSubscript x)) :
    x = String.ofList s ∧ Selection.readList s = .error .unrecognized := by
  unfold node ofList at h
  repeat' split at h
  all_goals cases h
  rename_i read
  exact ⟨rfl, read⟩

end Subscript

theorem Token.closed_of_invalidSubscript {c : Char} {rest : List Char} {last : List Token}
    {x : String} (h : find c rest = .halt last (.invalidSubscript x)) :
    c = '[' ∧ ∃ body after, Closing.find 0 rest = .closed body after ∧
      Subscript.node body = .error (.invalidSubscript x) := by
  unfold find findDots findSubscript at h
  repeat' split at h
  all_goals cases h
  rename_i bracket _ body after closed _ failed
  exact ⟨bracket, body, after, closed, failed⟩

/-- A path with an invalid subscript is read up to the bracket in front of it. -/
theorem exists_invalid_subscript {p x : String} (h : normalize p = .error (.invalidSubscript x)) :
    ∃ ts body rest, Scan.PathCut ts p.toList ('[' :: (body ++ ']' :: rest)) ∧ Balanced body ∧
      x = String.ofList body ∧ Selection.readList body = .error .unrecognized := by
  obtain ⟨ts, c, after, last, e, cut, halted, same⟩ := Scan.exists_halt (normalize_eq_error_iff.1 h)
  cases e with
  | invalidSubscript y =>
    cases same
    obtain ⟨rfl, body, rest, closed, failed⟩ := Token.closed_of_invalidSubscript halted
    obtain ⟨balanced, rfl⟩ := Closing.find_eq_closed_iff.1 closed
    obtain ⟨text, unrecognized⟩ := Subscript.unrecognized_of_node failed
    exact ⟨ts, body, rest, cut, balanced, text, unrecognized⟩
  | _ => cases same

/-- **Search and list agree on literals.** Take a subscript that the search has closed. Wherever the
reader of its list comes to a quote, a literal is spelled there and is read as a name; the search
comes to the same place of the path with no inner bracket open and passes over that same literal. So
when the list is not recognized, what the reader stands before is no quote, and no path is rejected
as having an invalid subscript for one. -/
theorem quoted_entries_agree (p : String) :
    (∀ front s body rest, p.toList = front ++ '[' :: s → Closing.find 0 s = .closed body rest →
      (∀ es (q : Quote) tail, Selection.Reaches body es (q.char :: tail) → ∃ l after passed,
        Literal.read? (q.char :: tail) = some (l, after) ∧
        q.char :: tail = l.spelling ++ after ∧
        Selection.read? (q.char :: tail) = some (.key (.name (String.ofList l.text)), after) ∧
        body = passed.flatMap Atom.spelling ++ q.char :: tail ∧
        p.toList = front ++ '[' ::
          (passed.flatMap Atom.spelling ++ (q.char :: tail ++ ']' :: rest)) ∧
        Closing.Passes passed 0 s 0 (q.char :: tail ++ ']' :: rest) ∧
        Closing.Passes [.literal l] 0 (q.char :: tail ++ ']' :: rest) 0 (after ++ ']' :: rest)) ∧
      (Selection.readList body = .error .unrecognized ↔
        ∃ es r, Selection.Reaches body es r ∧ Selection.read? r = none ∧
          ∀ (q : Quote) tail, r ≠ q.char :: tail)) ∧
    ∀ x, normalize p = .error (.invalidSubscript x) →
      ∃ ts body rest es r, Scan.PathCut ts p.toList ('[' :: (body ++ ']' :: rest)) ∧
        Closing.find 0 (body ++ ']' :: rest) = .closed body rest ∧ x = String.ofList body ∧
        Selection.Reaches body es r ∧ Selection.read? r = none ∧
        ∀ (q : Quote) tail, r ≠ q.char :: tail := by
  refine ⟨?_, ?_⟩
  · intro front s body rest whole closed
    obtain ⟨balanced, rfl⟩ := Closing.find_eq_closed_iff.1 closed
    refine ⟨?_, ?_⟩
    · intro es q tail reaches
      obtain ⟨taken, rfl, htaken⟩ := reaches.balanced
      obtain ⟨l, after, wellFormed, same, name⟩ :=
        Selection.read?_of_quote (htaken.of_append balanced)
      obtain ⟨passed, comes⟩ := Closing.Passes.of_balanced htaken 0 (q.char :: tail ++ ']' :: rest)
      have place := List.append_cancel_right comes.find_eq.1
      rw [List.append_assoc] at whole ⊢
      refine ⟨l, after, passed, ?_, same, name, by rw [place], by rw [whole, place], comes, ?_⟩
      · rw [same]
        exact Literal.read?_spelling wellFormed after
      · rw [same, List.append_assoc]
        exact .literal (Literal.read?_spelling wellFormed _) .stay
    · rw [Selection.readList_eq_unrecognized_iff_reaches]
      constructor
      · rintro ⟨es, r, reaches, unread⟩
        exact ⟨es, r, reaches, unread, reaches.no_quote balanced unread⟩
      · rintro ⟨es, r, reaches, unread, _⟩
        exact ⟨es, r, reaches, unread⟩
  · intro x failed
    obtain ⟨ts, body, rest, cut, balanced, text, unrecognized⟩ := exists_invalid_subscript failed
    obtain ⟨es, r, reaches, unread⟩ := Selection.readList_eq_unrecognized_iff_reaches.1 unrecognized
    exact ⟨ts, body, rest, es, r, cut, Closing.find_eq_closed_iff.2 ⟨balanced, rfl⟩, text, reaches,
      unread, reaches.no_quote balanced unread⟩

/-- A bracket in quotes behind the comma of a list, and a list that goes wrong behind such a name.
-/
theorem quoted_entries_agree_bracket :
    (Closing.find 0 "x,'é]']".toList = .closed "x,'é]'".toList [] ∧
      Selection.Reaches "x,'é]'".toList [.key (.name "x")] "'é]'".toList ∧
      ∃ l after passed, Literal.read? "'é]'".toList = some (l, after) ∧
        Selection.read? "'é]'".toList = some (.key (.name (String.ofList l.text)), after) ∧
        Closing.Passes passed 0 "x,'é]']".toList 0 "'é]']".toList ∧
        Closing.Passes [.literal l] 0 "'é]']".toList 0 (after ++ [']'])) ∧
    normalize "['é]',+]" = .error (.invalidSubscript "'é]',+") ∧
      ∃ body es r, "'é]',+" = String.ofList body ∧ Selection.Reaches body es r ∧
        Selection.read? r = none ∧ ∀ (q : Quote) tail, r ≠ q.char :: tail := by
  have closed : Closing.find 0 "x,'é]']".toList = .closed "x,'é]'".toList [] := by decide +kernel
  have read : Selection.read? "x,'é]'".toList = some (.key (.name "x"), ',' :: "'é]'".toList) := by
    decide +kernel
  have reaches : Selection.Reaches "x,'é]'".toList [.key (.name "x")] "'é]'".toList :=
    .next read .start
  have failed : normalize "['é]',+]" = .error (.invalidSubscript "'é]',+") :=
    normalize_eq_error_iff.2 (by decide +kernel)
  obtain ⟨l, after, passed, literal, _, name, _, _, comes, takes⟩ :=
    ((quoted_entries_agree "a[x,'é]']").1 ['a'] _ _ _ rfl closed).1 _ .single _ reaches
  obtain ⟨_, body, _, es, r, _, _, text, halted, unread, noQuote⟩ :=
    (quoted_entries_agree "['é]',+]").2 _ failed
  exact ⟨⟨closed, reaches, l, after, passed, literal, name, comes, takes⟩, failed, body, es, r,
    text, halted, unread, noQuote⟩

end JsonPath
