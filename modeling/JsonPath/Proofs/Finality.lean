import JsonPath.Log
import JsonPath.Proofs.Concatenation

/-!
Errors and the text behind them. Most errors are settled as soon as they are met: reading goes no
further, so it does not matter what follows. Main statement: only a dot at the end, an open bracket
and a quote that opens no literal can turn out otherwise when the path goes on.
-/

namespace JsonPath

namespace PathError

/-- No text behind the path does away with the error. -/
def IsFatal : PathError → Prop
  | emptySubscript _ => True
  | tripleDot _ => True
  | unmatchedScript _ => True
  | unmatchedFilter _ => True
  | malformedFilter _ => True
  | invalidCharacter _ _ => True
  | invalidSubscript _ => True
  | incompletePath _ => False
  | unmatchedBracket _ => False
  | unmatchedQuote _ _ => False

@[simp] theorem isFatal_shift (n : Nat) (e : PathError) : (e.shift n).IsFatal ↔ e.IsFatal := by
  cases e <;> rfl

end PathError

/-- What is wrong between two brackets is wrong whatever stands behind them. -/
theorem Subscript.isFatal_of_node {s : List Char} {e : PathError} (h : node s = .error e) :
    e.IsFatal := by
  unfold node ofList at h
  repeat' split at h
  all_goals cases h
  all_goals trivial

namespace Token

theorem findDots_append {rest : List Char} {last : List Token} {e : PathError}
    (h : findDots rest = .halt last e) (fatal : e.IsFatal) (q : List Char) :
    findDots (rest ++ q) = .halt last e := by
  unfold findDots at h
  split at h
  · cases h
    cases fatal
  · cases h
    rfl
  · cases h
  · cases h

/-- A quote that opens no literal stands behind its bracket. -/
theorem offset_of_find {c : Char} {rest : List Char} {last : List Token} {q : Quote} {n : Nat}
    (h : find c rest = .halt last (.unmatchedQuote q n)) : 0 < n := by
  unfold find findDots findSubscript at h
  repeat' split at h
  all_goals cases h
  · rename_i failed
    cases Subscript.isFatal_of_node failed
  · omega

/-- A bracket that is closed stays closed where it is. -/
theorem findSubscript_append {rest : List Char} {last : List Token} {e : PathError}
    (h : findSubscript rest = .halt last e) (fatal : e.IsFatal) (q : List Char) :
    findSubscript (rest ++ q) = .halt last e := by
  unfold findSubscript at h
  split at h
  · rename_i body after closed
    obtain ⟨balanced, rfl⟩ := Closing.find_eq_closed_iff.1 closed
    have again : Closing.find 0 (body ++ ']' :: after ++ q) = .closed body (after ++ q) :=
      Closing.find_eq_closed_iff.2 ⟨balanced, by simp⟩
    rw [findSubscript, again]
    split at h
    · cases h
    · rename_i failed
      simpa only [failed] using h
  · cases h
    cases fatal
  · cases h
    cases fatal

theorem find_append {c : Char} {rest : List Char} {last : List Token} {e : PathError}
    (h : find c rest = .halt last e) (fatal : e.IsFatal) (q : List Char) :
    find c (rest ++ q) = .halt last e := by
  unfold find at h ⊢
  split at h
  · rename_i dot
    rw [if_pos dot]
    exact findDots_append h fatal q
  · rename_i notDot
    rw [if_neg notDot]
    split at h
    · rename_i bracket
      rw [if_pos bracket]
      exact findSubscript_append h fatal q
    · split at h
      · cases h
      · split at h <;> cases h

end Token

namespace Scan

/-- The scan that a fatal error stops is the scan of every longer text. -/
theorem ofPath_append_of_fatal {s : List Char} {e : PathError} (h : (ofPath s).error = some e)
    (fatal : e.IsFatal) (q : List Char) : ofPath (s ++ q) = ofPath s := by
  obtain ⟨ts, c, after, last, e', cut, halted, rfl⟩ := exists_halt h
  rw [PathError.isFatal_shift] at fatal
  have nonempty : s ≠ [] := by
    rintro rfl
    have whole := cut.spelling
    simp at whole
  -- The tokens in front have a character behind them already, so more text does not join them.
  have longer : PathCut ts (s ++ q) (c :: (after ++ q)) :=
    pathCut_append cut (fun wrong => nomatch wrong) fun empty => absurd empty nonempty
  rw [ofPath_of_cut longer, ofPath_of_cut cut, ofText_halt halted,
    ofText_halt (Token.find_append halted fatal q)]

end Scan

namespace Log

/-- The records of the nodes that were found. -/
def traces (path : String) : List Record := (ofPath path).filter fun r => r.level = .trace

theorem traces_eq (path : String) :
    traces path = (Scan.ofPath path.toList).emissions.map emission := by
  have known : ∀ r ∈ (Scan.ofPath path.toList).emissions.map emission, r.level = .trace := by
    intro r hr
    obtain ⟨e, _, rfl⟩ := List.mem_map.1 hr
    rfl
  have closing : (outcome path (normalize path)).level = .debug := by
    cases normalize path <;> rfl
  rw [traces, ofPath, List.filter_append, List.filter_eq_self.2 (by simpa using known)]
  simp [closing]

end Log

/-! ## Errors that more text can do away with -/

namespace Scan

/-- Any number of bytes can stand in front of what follows without disturbing it. -/
theorem pathCut_parents (n : Nat) {s rest : List Char} {ts : List Token} (cut : Cut ts s rest)
    (nonroot : s.head? ≠ some '$') :
    PathCut (List.replicate n .parent ++ ts) (List.replicate n '^' ++ s) rest := by
  have inner : Cut (List.replicate n .parent ++ ts) (List.replicate n '^' ++ s) rest := by
    induction n with
    | zero => exact cut
    | succ n ih => exact .cons (t := .parent) (by simp) trivial ih
  refine .plain ?_ inner
  intro after same _
  cases n with
  | zero =>
    -- Only here could the path begin with a dollar.
    rw [List.replicate_zero, List.nil_append] at same
    rw [same] at nonroot
    exact nonroot rfl
  | succ n => cases same

theorem size_parents (n : Nat) :
    Text.size ((List.replicate n Token.parent).flatMap Token.spelling) = n := by
  induction n with
  | zero => rfl
  | succ n ih =>
    rw [List.replicate_succ, List.flatMap_cons, Text.size_append, ih, Nat.add_comm]
    rfl

end Scan

/-- What more text mends at the front of a path, it mends behind any number of bytes. -/
theorem exists_mended {c : Char} {after more : List Char} {last : List Token} {e : PathError}
    {ts : List Token} (halted : Token.find c after = .halt last e)
    (mended : Scan.Cut ts (c :: (after ++ more)) []) (notDollar : c ≠ '$') (n : Nat) :
    ∃ p q path, normalize p = .error (e.shift n) ∧ normalize (p ++ q) = .ok path := by
  have nonroot : ∀ s : List Char, (c :: s).head? ≠ some '$' := by
    intro s same
    exact notDollar (Option.some.inj same)
  refine ⟨String.ofList (List.replicate n '^' ++ c :: after), String.ofList more, _, ?_,
    normalize_eq_ok_iff.2 ⟨List.replicate n .parent ++ ts, ?_, rfl⟩⟩
  · have cut := Scan.pathCut_parents n (@Scan.Cut.nil (c :: after)) (nonroot _)
    rw [List.append_nil] at cut
    rw [normalize_eq_error_iff, String.toList_ofList, Scan.ofPath_of_cut cut,
      Scan.ofText_halt halted, Scan.prepend_error, Scan.size_parents]
    rfl
  · rw [String.toList_append, String.toList_ofList, String.toList_ofList, List.append_assoc]
    exact Scan.pathCut_parents n mended (nonroot _)

theorem exists_mended_dot (n : Nat) :
    ∃ p q path, normalize p = .error (.incompletePath n) ∧ normalize (p ++ q) = .ok path := by
  have name : (Token.text ['a']).Stands [] :=
    ⟨by simp, by simp, List.forall_mem_singleton.2 (by decide), fun _ wrong => nomatch wrong⟩
  have dot : Token.dot.Stands ['a'] := ⟨'a', rfl, by decide⟩
  have halted : Token.find '.' [] = .halt [] (.incompletePath 0) := rfl
  have mended : Scan.Cut [.dot, .text ['a']] ['.', 'a'] [] :=
    .cons (by simp) dot (.cons (by simp) name .nil)
  exact exists_mended halted mended (by decide) n

theorem exists_mended_bracket (n : Nat) :
    ∃ p q path, normalize p = .error (.unmatchedBracket n) ∧ normalize (p ++ q) = .ok path := by
  have halted : Token.find '[' [] = .halt [] (.unmatchedBracket 0) := by
    change Token.findSubscript [] = _
    rw [Token.findSubscript, Closing.find]
  have star : (Token.subscript ['*'] .wildcard).Stands [] := ⟨.plain (by decide) .nil, .wildcard⟩
  have mended : Scan.Cut [.subscript ['*'] .wildcard] ['[', '*', ']'] [] :=
    .cons (by simp) star .nil
  exact exists_mended halted mended (by decide) n

/-- A second quote completes an empty name. -/
theorem exists_mended_quote (q : Quote) (n : Nat) :
    ∃ p more path, normalize p = .error (.unmatchedQuote q (n + 1)) ∧
      normalize (p ++ more) = .ok path := by
  have halted : Token.find '[' [q.char] = .halt [] (.unmatchedQuote q 1) := by
    have unread : Literal.read? [q.char] = none := by cases q <;> rfl
    change Token.findSubscript [q.char] = _
    rw [Token.findSubscript, Closing.find_quote, unread]
    rfl
  have wellFormed : Literal.WellFormed ⟨q, []⟩ := by
    intro p hp
    cases hp
  have empty : (Token.subscript [q.char, q.char] (.child (.name ""))).Stands [] :=
    ⟨.of_literal wellFormed, .child (.last (.literal wellFormed))⟩
  have mended : Scan.Cut [.subscript [q.char, q.char] (.child (.name ""))]
      ['[', q.char, q.char, ']'] [] := .cons (by simp) empty .nil
  exact exists_mended halted mended (by decide) n

theorem offset_of_unmatchedQuote {p : String} {q : Quote} {n : Nat}
    (h : normalize p = .error (.unmatchedQuote q n)) : 0 < n := by
  obtain ⟨ts, c, after, last, e, _, halted, same⟩ := Scan.exists_halt (normalize_eq_error_iff.1 h)
  cases e with
  | unmatchedQuote q' k =>
    -- The tokens in front only push the offset further.
    cases same
    have behind : 0 < k := Token.offset_of_find halted
    omega
  | _ => cases same

/-- **Fatal errors are final.** A path that fails with one fails in the same way, behind the same
nodes at the same offsets, whatever is put behind it. Of the other errors each that occurs at all
occurs in a text that more text mends. -/
theorem normalize_error_final (e : PathError) :
    (e.IsFatal → ∀ p, normalize p = .error e →
      ∀ q, normalize (p ++ q) = .error e ∧ Log.traces (p ++ q) = Log.traces p) ∧
    (¬ e.IsFatal → (∃ p, normalize p = .error e) →
      ∃ p q path, normalize p = .error e ∧ normalize (p ++ q) = .ok path) := by
  constructor
  · intro fatal p failed q
    have stopped := normalize_eq_error_iff.1 failed
    have same : Scan.ofPath (p ++ q).toList = Scan.ofPath p.toList := by
      rw [String.toList_append]
      exact Scan.ofPath_append_of_fatal stopped fatal q.toList
    constructor
    · rw [normalize_eq_error_iff, same]
      exact stopped
    · rw [Log.traces_eq, Log.traces_eq, same]
  · rintro notFatal ⟨p, failed⟩
    cases e with
    | incompletePath n => exact exists_mended_dot n
    | unmatchedBracket n => exact exists_mended_bracket n
    | unmatchedQuote q n =>
      obtain ⟨m, rfl⟩ := Nat.exists_eq_add_one.2 (offset_of_unmatchedQuote failed)
      exact exists_mended_quote q m
    | _ => exact absurd trivial notFatal

/-- A character that cannot stand in a list settles the path, and a quote that opens no literal does
not. -/
theorem normalize_error_final_both :
    ((PathError.invalidCharacter '*' "1*2").IsFatal ∧
      normalize "é[1*2]" = .error (.invalidCharacter '*' "1*2") ∧
      normalize ("é[1*2]" ++ "['") = .error (.invalidCharacter '*' "1*2") ∧
      Log.traces ("é[1*2]" ++ "['") = Log.traces "é[1*2]") ∧
    ¬ (PathError.unmatchedQuote .double 3).IsFatal ∧
      normalize "é[\"" = .error (.unmatchedQuote .double 3) ∧
      ∃ p q path, normalize p = .error (.unmatchedQuote .double 3) ∧
        normalize (p ++ q) = .ok path := by
  have stray : normalize "é[1*2]" = .error (.invalidCharacter '*' "1*2") :=
    normalize_eq_error_iff.2 (by decide +kernel)
  have opened : normalize "é[\"" = .error (.unmatchedQuote .double 3) :=
    normalize_eq_error_iff.2 (by decide +kernel)
  have settled := (normalize_error_final (.invalidCharacter '*' "1*2")).1 trivial _ stray "['"
  have mended := (normalize_error_final (.unmatchedQuote .double 3)).2 id ⟨_, opened⟩
  exact ⟨⟨trivial, stray, settled⟩, id, opened, mended⟩

end JsonPath
