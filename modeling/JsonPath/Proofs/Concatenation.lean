import JsonPath.Proofs.Grammar

/-!
Paths put one after another. The nodes of the first are followed by those of the second, and an
error in the second is the same error further on, unless the seam itself reads differently: two dots
that meet, or a `$` that loses its dot.
-/

namespace JsonPath

namespace Token

/-- More text behind changes nothing for a token that has text behind it already. -/
theorem stands_append {t : Token} {s q : List Char} (h : t.Stands s) (seam : s = [] → t.Stands q) :
    t.Stands (s ++ q) := by
  cases s with
  | nil => exact seam rfl
  | cons c s =>
    cases t with
    | root => exact h
    | dot => exact h
    | descent => exact h
    | wildcard => trivial
    | parent => trivial
    | text => exact h
    | subscript => exact h

theorem spelling_ne_nil {t : Token} {after : List Char} (h : t.Stands after) : t.spelling ≠ [] := by
  cases t with
  | text chars => exact h.1
  | _ => simp [spelling]

/-- Behind a token that is not the root only a second dot can change what was read. -/
theorem stands_of_last {t : Token} {q : List Char} {c : Char} (notRoot : t ≠ root)
    (ends : t.Stands []) (first : q.head? = some c) (separates : Separates c)
    (dots : t = descent → c ≠ '.') : t.Stands q := by
  cases t with
  | root => exact absurd rfl notRoot
  | dot =>
    obtain ⟨d, wrong, _⟩ := ends
    cases wrong
  | descent =>
    intro dot
    rw [first] at dot
    exact dots rfl (Option.some.inj dot)
  | wildcard => trivial
  | parent => trivial
  | text chars =>
    obtain ⟨nonempty, notStar, inside, _⟩ := ends
    refine ⟨nonempty, notStar, inside, ?_⟩
    intro d head
    rw [first] at head
    cases head
    exact separates
  | subscript body node => exact ends

end Token

namespace Scan

theorem cut_nil {ts : List Token} {rest : List Char} (h : Cut ts [] rest) :
    ts = [] ∧ rest = [] := by
  generalize empty : [] = s at h
  cases h with
  | nil => exact ⟨rfl, rfl⟩
  | cons _ stands _ =>
    exact absurd (List.append_eq_nil_iff.1 empty.symm).1 (Token.spelling_ne_nil stands)

/-- Only the last token of a text sees what is put behind it, and only where the text ends with it.
-/
theorem seam_of_cons {t : Token} {ts : List Token} {s rest q : List Char} (stands : t.Stands s)
    (others : Cut ts s rest) (seam : rest = [] → ∀ u, (t :: ts).getLast? = some u → u.Stands q) :
    t.Stands (s ++ q) ∧ (rest = [] → ∀ u, ts.getLast? = some u → u.Stands q) := by
  constructor
  · apply Token.stands_append stands
    rintro rfl
    obtain ⟨rfl, rfl⟩ := cut_nil others
    exact seam rfl t rfl
  · intro ends u isLast
    apply seam ends
    rw [List.getLast?_cons, isLast]
    rfl

theorem cut_append {ts : List Token} {s rest q : List Char} (h : Cut ts s rest)
    (seam : rest = [] → ∀ t, ts.getLast? = some t → t.Stands q) : Cut ts (s ++ q) (rest ++ q) := by
  induction h with
  | nil => exact .nil
  | @cons t ts s rest notRoot stands others ih =>
    obtain ⟨before, inner⟩ := seam_of_cons stands others seam
    rw [List.append_assoc]
    exact .cons notRoot before (ih inner)

theorem pathCut_append {ts : List Token} {s rest q : List Char} (h : PathCut ts s rest)
    (seam : rest = [] → ∀ t, ts.getLast? = some t → t.Stands q)
    (nonroot : s = [] → q.head? ≠ some '$') : PathCut ts (s ++ q) (rest ++ q) := by
  cases h with
  | rooted stands others =>
    obtain ⟨before, inner⟩ := seam_of_cons stands others seam
    exact .rooted before (cut_append others inner)
  | plain notRooted cut =>
    refine .plain ?_ (cut_append cut seam)
    intro after same stands
    cases s with
    | nil =>
      rw [List.nil_append] at same
      rw [same] at nonroot
      exact nonroot rfl rfl
    | cons c s =>
      obtain ⟨rfl, rfl⟩ := List.cons.inj same
      refine notRooted s rfl ?_
      intro d first
      apply stands
      cases s with
      | nil => cases first
      | cons => exact first

theorem Cut.of_append {ts us : List Token} {s rest : List Char} (h : Cut (ts ++ us) s rest) :
    ∃ middle, Cut ts s middle ∧ Cut us middle rest := by
  induction ts generalizing s with
  | nil => exact ⟨s, .nil, h⟩
  | cons t ts ih =>
    cases h with
    | cons notRoot stands others =>
      obtain ⟨middle, front, back⟩ := ih others
      exact ⟨middle, .cons notRoot stands front, back⟩

/-- The scan has come to each of the tokens that it cuts the text into. -/
theorem PathCut.exists_place {ts : List Token} {s : List Char} {t : Token} (h : PathCut ts s [])
    (mem : t ∈ ts) (notRoot : t ≠ .root) :
    ∃ us after, PathCut us s (t.spelling ++ after) ∧ t.Stands after := by
  cases h with
  | rooted stands others =>
    rcases List.mem_cons.1 mem with root | inside
    · exact absurd root notRoot
    · obtain ⟨front, back, rfl⟩ := List.append_of_mem inside
      obtain ⟨middle, before, behind⟩ := others.of_append
      cases behind with
      | cons _ here _ => exact ⟨.root :: front, _, .rooted stands before, here⟩
  | plain notRooted others =>
    obtain ⟨front, back, rfl⟩ := List.append_of_mem mem
    obtain ⟨middle, before, behind⟩ := others.of_append
    cases behind with
    | cons _ here _ => exact ⟨front, _, .plain notRooted before, here⟩

theorem cut_last {ts : List Token} {s : List Char} {t : Token} (h : Cut ts s [])
    (isLast : ts.getLast? = some t) :
    t ≠ .root ∧ t.Stands [] ∧ ∃ front, s = front ++ t.spelling := by
  induction ts generalizing s with
  | nil => cases isLast
  | cons u ts ih =>
    cases h with
    | @cons _ _ s _ notRoot stands others =>
      cases ts with
      | nil =>
        cases isLast
        cases others
        exact ⟨notRoot, stands, [], List.append_nil _⟩
      | cons v ts =>
        rw [List.getLast?_cons_cons] at isLast
        obtain ⟨notRoot, ends, front, same⟩ := ih others isLast
        exact ⟨notRoot, ends, u.spelling ++ front, by rw [same, List.append_assoc]⟩

theorem not_dot_of_descent {s front : List Char} {t : Token} {c : Char}
    (same : s = front ++ t.spelling) (dots : s.getLast? = some '.' → c ≠ '.') :
    t = .descent → c ≠ '.' := by
  rintro rfl
  apply dots
  rw [same, List.getLast?_append]
  rfl

/-- Where the seam reads as its two sides do, it disturbs no token. -/
theorem stands_of_seam {ts : List Token} {s q : List Char} {c : Char} (h : PathCut ts s [])
    (first : q.head? = some c) (separates : Token.Separates c)
    (dots : s.getLast? = some '.' → c ≠ '.') (dollar : s = ['$'] → c = '.') :
    ∀ t, ts.getLast? = some t → t.Stands q := by
  intro t isLast
  cases h with
  | @rooted ts s _ _ others =>
    cases ts with
    | nil =>
      cases isLast
      cases others
      intro d head
      rw [first] at head
      cases head
      exact dollar rfl
    | cons u ts =>
      rw [List.getLast?_cons_cons] at isLast
      obtain ⟨notRoot, ends, front, same⟩ := cut_last others isLast
      have whole : '$' :: s = ('$' :: front) ++ t.spelling := by rw [same, List.cons_append]
      exact Token.stands_of_last notRoot ends first separates (not_dot_of_descent whole dots)
  | plain _ cut =>
    obtain ⟨notRoot, ends, front, same⟩ := cut_last cut isLast
    exact Token.stands_of_last notRoot ends first separates (not_dot_of_descent same dots)

/-- A text that opens with a separator is no rooted path. -/
theorem ofPath_of_separates {q : List Char} {c : Char} (first : q.head? = some c)
    (separates : Token.Separates c) : ofPath q = ofText q := by
  apply ofPath_plain
  rintro after rfl _
  cases first
  rcases separates with wrong | wrong | wrong <;> cases wrong

theorem ofPath_append {ts : List Token} {s q : List Char} {c : Char} (h : PathCut ts s [])
    (first : q.head? = some c) (separates : Token.Separates c)
    (dots : s.getLast? = some '.' → c ≠ '.') (dollar : s = ['$'] → c = '.') :
    ofPath (s ++ q) = prepend ts (ofPath q) := by
  have nonroot : q.head? ≠ some '$' := by
    rw [first]
    rintro same
    cases same
    rcases separates with wrong | wrong | wrong <;> cases wrong
  have cut : PathCut ts (s ++ q) q :=
    pathCut_append h (fun _ => stands_of_seam h first separates dots dollar) fun _ => nonroot
  rw [ofPath_of_cut cut, ofPath_of_separates first separates]

/-- Tokens in front put their nodes before the result and move an error by their size. -/
theorem result_prepend (ts : List Token) (scan : Scan) :
    (∀ path, scan.result = .ok path →
      (prepend ts scan).result = .ok (ts.filterMap Token.node? ++ path)) ∧
    ∀ e, scan.result = .error e →
      (prepend ts scan).result = .error (e.shift (Text.size (ts.flatMap Token.spelling))) := by
  have error := prepend_error ts scan
  unfold result
  rw [error]
  cases scan.error with
  | none =>
    refine ⟨?_, by simp⟩
    intro path h
    cases h
    simp [nodes, prepend_tokens]
  | some e =>
    refine ⟨by simp, ?_⟩
    intro e' h
    cases h
    rfl

end Scan

/-- **Concatenation.** Behind a path `p` a text that opens with a separator is read as if it stood
alone: its nodes follow those of `p`, and its error moves by the bytes of `p`. Two dots may not meet
at the seam, and the `$` of a path that is nothing else needs a dot behind it. -/
theorem normalize_append (p q : String) (path : Path) (c : Char)
    (normalized : normalize p = .ok path) (first : q.toList.head? = some c)
    (separates : c = '.' ∨ c = '[' ∨ c = '^') (dots : p.toList.getLast? = some '.' → c ≠ '.')
    (dollar : p = "$" → c = '.') :
    (∀ more, normalize q = .ok more → normalize (p ++ q) = .ok (path ++ more)) ∧
    ∀ e, normalize q = .error e → normalize (p ++ q) = .error (e.shift p.utf8ByteSize) := by
  obtain ⟨ts, cut, rfl⟩ := normalize_eq_ok_iff.1 normalized
  have dollar' : p.toList = ['$'] → c = '.' := by
    intro same
    apply dollar
    rw [← String.ofList_toList (s := p), same]
  have scanned := Scan.ofPath_append cut first separates dots dollar'
  have size : Text.size (ts.flatMap Token.spelling) = p.utf8ByteSize := by
    rw [← Text.size_toList, cut.spelling, List.append_nil]
  obtain ⟨onOk, onError⟩ := Scan.result_prepend ts (Scan.ofPath q.toList)
  simp only [normalize, String.toList_append, scanned]
  rw [← size]
  exact ⟨onOk, onError⟩

/-- The call stays a call whether the path ends behind it or a bracket follows, and offsets count
the two bytes of `é`. -/
theorem normalize_append_call :
    normalize ("$.é()" ++ "[*]") = .ok [.root, .call "é", .wildcard] ∧
    normalize ("$.é()" ++ "[]") = .error (.emptySubscript 6) := by
  have normalized : normalize "$.é()" = .ok [.root, .call "é"] := by
    have dot : Token.find '.' ['é', '(', ')'] = .token .dot ['é', '(', ')'] := by decide
    have text : Token.find 'é' ['(', ')'] = .token (.text ['é', '(', ')']) [] := by decide
    change ((Scan.ofText ['.', 'é', '(', ')']).cons .root).result = _
    rw [Scan.ofText_cons dot, Scan.ofText_cons text, Scan.ofText]
    rfl
  constructor
  · have seam :=
      normalize_append "$.é()" "[*]" _ '[' normalized rfl (by decide) (by decide) (by decide)
    apply seam.1 [.wildcard]
    have star : Token.find '[' ['*', ']'] = .token (.subscript ['*'] .wildcard) [] :=
      Token.findSubscript_closed (.plain (by decide) .nil) .wildcard
    change (Scan.ofText ['[', '*', ']']).result = _
    rw [Scan.ofText_cons star, Scan.ofText]
    rfl
  · have seam :=
      normalize_append "$.é()" "[]" _ '[' normalized rfl (by decide) (by decide) (by decide)
    apply seam.2 (.emptySubscript 0)
    have empty : Token.findSubscript [']'] = .halt [] (.emptySubscript 0) := by
      rw [Token.findSubscript, Closing.find_last]
      rfl
    change (Scan.ofText ['[', ']']).result = _
    rw [Scan.ofText_halt (show Token.find '[' [']'] = _ from empty)]
    rfl

end JsonPath
