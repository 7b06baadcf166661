import JsonPath.Proofs.Concatenation

/-!
Two notations for a name: behind a dot it stands as it is, and in brackets it stands between quotes.
Main statement: behind every path and before everything that ends a name, the two are read alike,
whichever quotes are used and whatever the name looks like.
-/

namespace JsonPath

/-- The text between two quotes, with a backslash in front of every such quote and
every backslash in it. -/
def Quote.enclose (q : Quote) (s : String) : String :=
  String.ofList (q.char ::
    (s.toList.flatMap (fun c => if c = q.char ∨ c = '\\' then ['\\', c] else [c]) ++ [q.char]))

theorem Quote.toList_enclose (q : Quote) (s : String) :
    (q.enclose s).toList = (Literal.ofText q s.toList).spelling := by
  have each : ∀ c, (Piece.ofChar q c).spelling =
      if c = q.char ∨ c = '\\' then ['\\', c] else [c] := by
    intro c
    rw [Piece.ofChar]
    split <;> rfl
  simp only [enclose, String.toList_ofList, Literal.spelling, Literal.ofText, List.flatMap_map,
    each]

namespace Scan

theorem prepend_append (ts us : List Token) (scan : Scan) :
    prepend (ts ++ us) scan = prepend ts (prepend us scan) :=
  List.foldr_append

/-- A text that is empty or opens with a separator is no rooted path. -/
theorem ofPath_of_ends {r : List Char} (ends : ∀ c, r.head? = some c → Token.Separates c) :
    ofPath r = ofText r := by
  cases r with
  | nil => exact ofPath_plain fun _ wrong => nomatch wrong
  | cons c r => exact ofPath_of_separates rfl (ends c rfl)

/-- Tokens between a path and a rest that could stand alone. -/
theorem ofPath_between {ts us : List Token} {s q r : List Char} {c : Char} (h : PathCut ts s [])
    (between : Cut us (q ++ r) r) (first : q.head? = some c) (separates : Token.Separates c)
    (dots : s.getLast? = some '.' → c ≠ '.') (dollar : s = ['$'] → c = '.')
    (ends : ∀ c, r.head? = some c → Token.Separates c) :
    ofPath (s ++ (q ++ r)) = prepend (ts ++ us) (ofPath r) := by
  have first' : (q ++ r).head? = some c := by
    rw [List.head?_append, first]
    rfl
  rw [ofPath_append h first' separates dots dollar, ofPath_of_separates first' separates,
    ofText_of_cut between, ofPath_of_ends ends, prepend_append]

end Scan

/-- What a text between a path and a rest comes to, if its tokens stand there. -/
theorem normalize_between {p q r : String} {path : Path} {us : List Token} {c : Char}
    (normalized : normalize p = .ok path) (between : Scan.Cut us (q.toList ++ r.toList) r.toList)
    (first : q.toList.head? = some c) (separates : Token.Separates c)
    (dots : p.toList.getLast? = some '.' → c ≠ '.') (dollar : p.toList = ['$'] → c = '.')
    (ends : ∀ c, r.toList.head? = some c → Token.Separates c) :
    (∀ more, normalize r = .ok more →
      normalize (p ++ q ++ r) = .ok (path ++ (us.filterMap Token.node? ++ more))) ∧
    ∀ e, normalize r = .error e →
      normalize (p ++ q ++ r) = .error (e.shift (p ++ q).utf8ByteSize) := by
  obtain ⟨ts, cut, rfl⟩ := normalize_eq_ok_iff.1 normalized
  have scanned := Scan.ofPath_between cut between first separates dots dollar ends
  have spelling : (ts ++ us).flatMap Token.spelling = (p ++ q).toList := by
    have before := cut.spelling
    rw [List.append_nil] at before
    rw [List.flatMap_append, ← before, String.toList_append,
      ← List.append_cancel_right between.spelling]
  obtain ⟨onOk, onError⟩ := Scan.result_prepend (ts ++ us) (Scan.ofPath r.toList)
  rw [spelling, Text.size_toList] at onError
  simp only [List.filterMap_append, List.append_assoc] at onOk
  simp only [normalize, String.toList_append, List.append_assoc, scanned]
  exact ⟨onOk, onError⟩

/-- A text that a dot may stand before. -/
structure IsDottedName (s : List Char) : Prop where
  nonempty : s ≠ []
  inside : ∀ c ∈ s, ¬ Token.Separates c
  notStar : s.head? ≠ some '*'
  notCall : ¬ ['(', ')'] <:+ s

namespace IsDottedName

theorem cut_dotted {s r : List Char} (h : IsDottedName s)
    (ends : ∀ c, r.head? = some c → Token.Separates c) :
    Scan.Cut [.dot, .text s] ('.' :: (s ++ r)) r := by
  have text : (Token.text s).Stands r := ⟨h.nonempty, h.notStar, h.inside, ends⟩
  have dot : Token.dot.Stands (s ++ r) := by
    obtain ⟨c, t, rfl⟩ := List.exists_cons_of_ne_nil h.nonempty
    refine ⟨c, rfl, ?_⟩
    intro isDot
    exact h.inside c List.mem_cons_self (.inl isDot)
  exact .cons (by simp) dot (.cons (by simp) text .nil)

theorem node_text {s : List Char} (h : IsDottedName s) :
    Token.ofText s = .child (.name (String.ofList s)) := by
  rw [Token.ofText, Text.stem?_eq_none_iff.2 h.notCall]

end IsDottedName

theorem cut_quoted (q : Quote) (s r : List Char) :
    Scan.Cut [.subscript (Literal.ofText q s).spelling (.child (.name (String.ofList s)))]
      ('[' :: ((Literal.ofText q s).spelling ++ ']' :: r)) r := by
  have wellFormed := Literal.wellFormed_ofText q s
  have means := Subscript.Means.child (.last (.literal wellFormed))
  rw [Literal.text_ofText] at means
  have stands : (Token.subscript (Literal.ofText q s).spelling
      (.child (.name (String.ofList s)))).Stands r :=
    ⟨.of_literal wellFormed, means⟩
  have cut := Scan.Cut.cons (by simp) stands .nil
  simpa [Token.spelling] using cut

/-- **Dotted and quoted names are read alike.** Behind a path that is neither a lone `$` nor ends in
a dot, a name may be written behind a dot or between quotes in brackets. Either way its child
follows the nodes of the path, and the nodes of what is behind the name follow that; or else what is
behind the name is wrong, and it is the same error, as far on as the notation is long. -/
theorem name_notations_agree (p n r : String) (q : Quote) (path : Path)
    (normalized : normalize p = .ok path) (notRoot : p ≠ "$") (noDot : p.toList.getLast? ≠ some '.')
    (name : IsDottedName n.toList) (ends : ∀ c, r.toList.head? = some c → Token.Separates c) :
    (∃ more, normalize r = .ok more ∧
      normalize (p ++ "." ++ n ++ r) = .ok (path ++ .child (.name n) :: more) ∧
      normalize (p ++ "[" ++ q.enclose n ++ "]" ++ r) = .ok (path ++ .child (.name n) :: more)) ∨
    ∃ e, normalize r = .error e ∧
      normalize (p ++ "." ++ n ++ r) = .error (e.shift (p ++ "." ++ n).utf8ByteSize) ∧
      normalize (p ++ "[" ++ q.enclose n ++ "]" ++ r) =
        .error (e.shift (p ++ "[" ++ q.enclose n ++ "]").utf8ByteSize) := by
  have dollar : p.toList ≠ ['$'] := by
    intro same
    apply notRoot
    rw [← String.ofList_toList (s := p), same]
  have dotted : Scan.Cut [.dot, .text n.toList] (("." ++ n).toList ++ r.toList) r.toList := by
    rw [String.toList_append]
    exact name.cut_dotted ends
  have quoted := cut_quoted q n.toList r.toList
  have spelled : ("[" ++ q.enclose n ++ "]").toList ++ r.toList =
      '[' :: ((Literal.ofText q n.toList).spelling ++ ']' :: r.toList) := by
    simp [Quote.toList_enclose]
  rw [← spelled] at quoted
  obtain ⟨dottedOk, dottedError⟩ := normalize_between normalized dotted (c := '.')
    (by simp) (.inl rfl) (fun dot => absurd dot noDot) (fun _ => rfl) ends
  obtain ⟨quotedOk, quotedError⟩ := normalize_between normalized quoted (c := '[')
    (by simp) (.inr (.inl rfl)) (fun dot => absurd dot noDot) (fun same => absurd same dollar) ends
  simp only [List.filterMap_cons, Token.node?, name.node_text, String.ofList_toList,
    List.filterMap_nil, List.singleton_append] at dottedOk quotedOk
  simp only [String.append_assoc] at dottedOk dottedError quotedOk quotedError ⊢
  cases rest : normalize r with
  | ok more => exact .inl ⟨more, rfl, dottedOk more rest, quotedOk more rest⟩
  | error e => exact .inr ⟨e, rfl, dottedError e rest, quotedError e rest⟩

/-- A name of a bracket, both quotes and a backslash, with an error behind it. -/
theorem name_notations_agree_escaped :
    normalize "é.a]'\"\\[]" = .error (.emptySubscript 8) ∧
    normalize "é['a]\\'\"\\\\'][]" = .error (.emptySubscript 13) := by
  have normalized : normalize "é" = .ok [.child (.name "é")] := by
    have text : Token.find 'é' [] = .token (.text ['é']) [] := by decide
    change (Scan.ofText ['é']).result = _
    rw [Scan.ofText_cons text, Scan.ofText]
    rfl
  have failed : normalize "[]" = .error (.emptySubscript 0) :=
    normalize_eq_error_iff.2 (by decide +kernel)
  have name : IsDottedName "a]'\"\\".toList :=
    ⟨by decide, by simp [Token.Separates], by decide, by decide⟩
  have agree :=
    name_notations_agree "é" "a]'\"\\" "[]" .single _ normalized (by decide) (by decide) name
    (fun c first => by cases first; decide)
  rcases agree with ⟨more, rest, _⟩ | ⟨e, rest, dotted, quoted⟩
  · rw [failed] at rest
    cases rest
  · rw [failed] at rest
    cases rest
    exact ⟨dotted, quoted⟩

end JsonPath
