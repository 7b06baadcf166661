import JsonPath.Scan
import JsonPath.Proofs.Subscript

/-!
The grammar of paths. A path is tokens one after another; what may stand where is said token by
token, by the text that follows. Main statement: a text is normalized exactly when it can be cut so,
it can be cut in one way only, and its nodes are what the tokens mean.
-/

namespace JsonPath

namespace Token

/-- Plain text goes up to one of these characters. -/
def Separates (c : Char) : Prop := c = '.' ∨ c = '[' ∨ c = '^'

instance (c : Char) : Decidable (Separates c) :=
  inferInstanceAs (Decidable (c = '.' ∨ c = '[' ∨ c = '^'))

/-- Whether a token may stand before a text. Since plain text takes all it can, a `*` that has text
in front belongs to that text. -/
def Stands : Token → List Char → Prop
  | root, after => ∀ c, after.head? = some c → c = '.'
  | dot, after => ∃ c, after.head? = some c ∧ c ≠ '.'
  | descent, after => after.head? ≠ some '.'
  | wildcard, _ => True
  | parent, _ => True
  | text chars, after =>
    chars ≠ [] ∧ chars.head? ≠ some '*' ∧ (∀ c ∈ chars, ¬ Separates c) ∧
      ∀ c, after.head? = some c → Separates c
  | subscript body node, _ => Balanced body ∧ Subscript.Means body node

/-- The nodes that a token denotes. -/
inductive Means : Token → List Node → Prop
  | root : Means root [.root]
  | dot : Means dot []
  | descent : Means descent [.descent]
  | wildcard : Means wildcard [.wildcard]
  | parent : Means parent [.parent]
  | call (function : List Char) :
      Means (text (function ++ ['(', ')'])) [.call (String.ofList function)]
  | name (chars : List Char) (notCall : ∀ function, chars ≠ function ++ ['(', ')']) :
      Means (text chars) [.child (.name (String.ofList chars))]
  | subscript (body : List Char) (node : Node) : Means (subscript body node) [node]

theorem isText_iff {c : Char} : isText c = true ↔ ¬ Separates c := by
  simp [isText, Separates, and_assoc]

theorem stops_isText_iff {after : List Char} :
    Text.Stops isText after ↔ ∀ c, after.head? = some c → Separates c := by
  unfold Text.Stops
  constructor
  · intro stops c first
    by_cases separates : Separates c
    · exact separates
    · have notText := stops c first
      rw [isText_iff.2 separates] at notText
      cases notText
  · intro separates c first
    cases inside : isText c with
    | false => rfl
    | true => exact absurd (separates c first) (isText_iff.1 inside)

/-- Each token has one meaning. -/
theorem means_iff {t : Token} {nodes : List Node} : t.Means nodes ↔ nodes = t.node?.toList := by
  constructor
  · intro h
    cases h with
    | call function => simp [node?, ofText, Subscript.stem?_concat]
    | name chars notCall =>
      have noStem : Text.stem? ['(', ')'] chars = none := by
        cases found : Text.stem? ['(', ')'] chars with
        | none => rfl
        | some function => exact absurd (Text.stem?_eq_some_iff.1 found) (notCall function)
      simp [node?, ofText, noStem]
    | _ => rfl
  · rintro rfl
    cases t with
    | root => exact .root
    | dot => exact .dot
    | descent => exact .descent
    | wildcard => exact .wildcard
    | parent => exact .parent
    | text chars =>
      simp only [node?, ofText]
      cases found : Text.stem? ['(', ')'] chars with
      | none =>
        refine .name chars ?_
        rintro function rfl
        rw [Subscript.stem?_concat] at found
        cases found
      | some function =>
        rw [Text.stem?_eq_some_iff] at found
        subst found
        exact .call function
    | subscript body node => exact .subscript body node

/-- A token that is found may stand where it is. -/
theorem stands_of_find {c : Char} {rest after : List Char} {t : Token}
    (h : find c rest = .token t after) : t ≠ root ∧ t.Stands after := by
  unfold find at h
  split at h
  · unfold findDots at h
    split at h
    · cases h
    · cases h
    · rename_i s noThird
      cases h
      refine ⟨by simp, ?_⟩
      intro third
      cases after with
      | nil => cases third
      | cons d s =>
        cases third
        exact noThird s rfl
    · rename_i notEnd _ noSecond
      cases h
      cases rest with
      | nil => exact absurd rfl notEnd
      | cons d s =>
        refine ⟨by simp, d, rfl, ?_⟩
        rintro rfl
        exact noSecond s rfl
  · split at h
    · unfold findSubscript at h
      split at h
      · rename_i body rest closed
        split at h
        · rename_i node denoted
          cases h
          exact ⟨by simp, (Closing.find_eq_closed_iff.1 closed).1,
            Subscript.node_eq_ok_iff.1 denoted⟩
        · cases h
      · cases h
      · cases h
    · split at h
      · cases h
        exact ⟨by simp, trivial⟩
      · split at h
        · cases h
          exact ⟨by simp, trivial⟩
        · rename_i notDot notBracket notCaret notStar
          cases h
          refine ⟨by simp, by simp, by simpa using notStar, ?_, ?_⟩
          · refine List.forall_mem_cons.2 ⟨?_, fun d hd => isText_iff.1 (Text.mem_takeWhile hd)⟩
            rintro (dot | bracket | caret)
            · exact notDot dot
            · exact notBracket bracket
            · exact notCaret caret
          · exact stops_isText_iff.1 (Text.stops_dropWhile _ _)

theorem findDots_dot {after : List Char} (stands : dot.Stands after) :
    findDots after = .token dot after := by
  obtain ⟨c, first, notDot⟩ := stands
  cases after with
  | nil => cases first
  | cons d s =>
    cases first
    simp [findDots, notDot]

theorem findDots_descent {after : List Char} (stands : descent.Stands after) :
    findDots ('.' :: after) = .token descent after := by
  cases after with
  | nil => rfl
  | cons d s =>
    have notDot : d ≠ '.' := by
      rintro rfl
      exact stands rfl
    simp [findDots, notDot]

theorem findSubscript_closed {body after : List Char} {node : Node} (balanced : Balanced body)
    (means : Subscript.Means body node) :
    findSubscript (body ++ ']' :: after) = .token (subscript body node) after := by
  have closed : Closing.find 0 (body ++ ']' :: after) = .closed body after :=
    Closing.find_eq_closed_iff.2 ⟨balanced, rfl⟩
  simp only [findSubscript, closed, Subscript.node_eq_ok_iff.2 means]

/-- A token that may stand where it is, is the one found there. -/
theorem find_of_stands {t : Token} {after : List Char} (notRoot : t ≠ root)
    (stands : t.Stands after) :
    ∃ c rest, t.spelling ++ after = c :: rest ∧ find c rest = .token t after := by
  cases t with
  | root => exact absurd rfl notRoot
  | dot => exact ⟨'.', after, rfl, findDots_dot stands⟩
  | descent => exact ⟨'.', '.' :: after, rfl, findDots_descent stands⟩
  | wildcard => exact ⟨'*', after, rfl, rfl⟩
  | parent => exact ⟨'^', after, rfl, rfl⟩
  | text chars =>
    obtain ⟨nonempty, notStar, inside, ends⟩ := stands
    obtain ⟨c, cs, rfl⟩ := List.exists_cons_of_ne_nil nonempty
    obtain ⟨notSeparator, others⟩ := List.forall_mem_cons.1 inside
    have run : ∀ d ∈ cs, isText d = true := fun d hd => isText_iff.2 (others d hd)
    have stops := stops_isText_iff.2 ends
    refine ⟨c, cs ++ after, rfl, ?_⟩
    rw [find, if_neg fun same => notSeparator (.inl same),
      if_neg fun same => notSeparator (.inr (.inl same)),
      if_neg fun same => notSeparator (.inr (.inr same)),
      if_neg fun same => notStar (congrArg some same), Text.takeWhile_run run stops,
      Text.dropWhile_run run stops]
  | subscript body node =>
    obtain ⟨balanced, means⟩ := stands
    exact ⟨'[', body ++ ']' :: after, by simp [spelling], findSubscript_closed balanced means⟩

end Token

namespace Scan

/-- A text cut into tokens up to a rest, where `$` has no meaning of its own. -/
inductive Cut : List Token → List Char → List Char → Prop
  | nil {rest : List Char} : Cut [] rest rest
  | cons {t : Token} {ts : List Token} {s rest : List Char} (notRoot : t ≠ .root)
      (stands : t.Stands s) (others : Cut ts s rest) : Cut (t :: ts) (t.spelling ++ s) rest

/-- A path cut into tokens up to a rest. A `$` in front, alone or before a dot, is always the root.
-/
inductive PathCut : List Token → List Char → List Char → Prop
  | rooted {ts : List Token} {s rest : List Char} (stands : Token.root.Stands s)
      (others : Cut ts s rest) : PathCut (.root :: ts) ('$' :: s) rest
  | plain {ts : List Token} {s rest : List Char}
      (notRooted : ∀ after, s = '$' :: after → ¬ Token.root.Stands after) (cut : Cut ts s rest) :
      PathCut ts s rest

/-- What tokens denote, one after another. -/
inductive Means : List Token → Path → Prop
  | nil : Means [] []
  | cons {t : Token} {ts : List Token} {nodes path : List Node} (first : t.Means nodes)
      (others : Means ts path) : Means (t :: ts) (nodes ++ path)

theorem means_iff {ts : List Token} {path : Path} :
    Means ts path ↔ path = ts.filterMap Token.node? := by
  constructor
  · intro h
    induction h with
    | nil => rfl
    | @cons t ts nodes path first _ ih =>
      rw [Token.means_iff.1 first, ih, List.filterMap_cons]
      cases t.node? <;> rfl
  · rintro rfl
    induction ts with
    | nil => exact .nil
    | cons t ts ih =>
      have both := Means.cons (Token.means_iff.2 rfl : t.Means _) ih
      rw [List.filterMap_cons]
      cases same : t.node? with
      | none => rwa [same] at both
      | some node => rwa [same] at both

theorem Cut.spelling {ts : List Token} {s rest : List Char} (h : Cut ts s rest) :
    s = ts.flatMap Token.spelling ++ rest := by
  induction h with
  | nil => rfl
  | cons _ _ _ ih => rw [List.flatMap_cons, List.append_assoc, ← ih]

theorem PathCut.spelling {ts : List Token} {s rest : List Char} (h : PathCut ts s rest) :
    s = ts.flatMap Token.spelling ++ rest := by
  cases h with
  | rooted _ others =>
    rw [List.flatMap_cons, List.append_assoc, ← others.spelling]
    rfl
  | plain _ cut => exact cut.spelling

/-- The scan of a text with tokens in front. -/
def prepend (ts : List Token) (scan : Scan) : Scan := ts.foldr cons scan

theorem prepend_tokens (ts : List Token) (scan : Scan) :
    (prepend ts scan).tokens = ts ++ scan.tokens := by
  induction ts with
  | nil => rfl
  | cons t ts ih => exact congrArg (t :: ·) ih

theorem prepend_error (ts : List Token) (scan : Scan) :
    (prepend ts scan).error =
      scan.error.map (·.shift (Text.size (ts.flatMap Token.spelling))) := by
  induction ts with
  | nil => simp [prepend]
  | cons t ts ih =>
    have step : (prepend (t :: ts) scan).error = (prepend ts scan).error.map (·.shift t.size) := rfl
    rw [step, ih]
    cases scan.error <;> simp [Token.size]

theorem ofText_next (c : Char) (rest : List Char) :
    ofText (c :: rest) =
      match Token.find c rest with
      | .token t after => (ofText after).cons t
      | .halt last e => ⟨last, some e⟩ := by
  rw [ofText]
  split <;> rename_i found <;> rw [found]

theorem ofText_cons {c : Char} {rest after : List Char} {t : Token}
    (h : Token.find c rest = .token t after) : ofText (c :: rest) = (ofText after).cons t := by
  rw [ofText_next, h]

theorem ofText_halt {c : Char} {rest : List Char} {last : List Token} {e : PathError}
    (h : Token.find c rest = .halt last e) : ofText (c :: rest) = ⟨last, some e⟩ := by
  rw [ofText_next, h]

/-- The scan follows any way in which the text can be cut. -/
theorem ofText_of_cut {ts : List Token} {s rest : List Char} (h : Cut ts s rest) :
    ofText s = prepend ts (ofText rest) := by
  induction h with
  | nil => rfl
  | @cons t ts s rest notRoot stands _ ih =>
    obtain ⟨c, tail, same, found⟩ := Token.find_of_stands notRoot stands
    rw [same, ofText_cons found, ih]
    rfl

theorem ofPath_rooted {s : List Char} (stands : Token.root.Stands s) :
    ofPath ('$' :: s) = (ofText s).cons .root := by
  cases s with
  | nil =>
    rw [ofText]
    rfl
  | cons c s =>
    have dot : c = '.' := stands c rfl
    subst dot
    rfl

theorem ofPath_plain {s : List Char}
    (notRooted : ∀ after, s = '$' :: after → ¬ Token.root.Stands after) : ofPath s = ofText s := by
  unfold ofPath
  split
  · refine absurd ?_ (notRooted [] rfl)
    intro c first
    cases first
  · rename_i rest
    refine absurd ?_ (notRooted ('.' :: rest) rfl)
    intro c first
    cases first
    rfl
  · rfl

theorem ofPath_of_cut {ts : List Token} {s rest : List Char} (h : PathCut ts s rest) :
    ofPath s = prepend ts (ofText rest) := by
  cases h with
  | rooted stands others =>
    rw [ofPath_rooted stands, ofText_of_cut others]
    rfl
  | plain notRooted cut => rw [ofPath_plain notRooted, ofText_of_cut cut]

/-- Reading goes on from token to token, up to the end or to a place where it halts. -/
theorem exists_cut (s : List Char) :
    ∃ ts rest, Cut ts s rest ∧
      (rest = [] ∨ ∃ c after last e, rest = c :: after ∧ Token.find c after = .halt last e) := by
  fun_induction ofText s with
  | case1 => exact ⟨[], [], .nil, .inl rfl⟩
  | case2 c rest t after found ih =>
    obtain ⟨ts, rest', cut, ends⟩ := ih
    obtain ⟨notRoot, stands⟩ := Token.stands_of_find found
    refine ⟨t :: ts, rest', ?_, ends⟩
    rw [← Token.spelling_append_of_find found]
    exact .cons notRoot stands cut
  | case3 c rest last e found => exact ⟨[], c :: rest, .nil, .inr ⟨c, rest, last, e, rfl, found⟩⟩

theorem exists_pathCut (s : List Char) :
    ∃ ts rest, PathCut ts s rest ∧
      (rest = [] ∨ ∃ c after last e, rest = c :: after ∧ Token.find c after = .halt last e) := by
  by_cases rooted : ∃ after, s = '$' :: after ∧ Token.root.Stands after
  · obtain ⟨after, rfl, stands⟩ := rooted
    obtain ⟨ts, rest, cut, ends⟩ := exists_cut after
    exact ⟨_, rest, .rooted stands cut, ends⟩
  · obtain ⟨ts, rest, cut, ends⟩ := exists_cut s
    refine ⟨ts, rest, .plain ?_ cut, ends⟩
    intro after same stands
    exact rooted ⟨after, same, stands⟩

theorem ofPath_of_whole {ts : List Token} {s : List Char} (h : PathCut ts s []) :
    ofPath s = ⟨ts, none⟩ := by
  have finished : ofText [] = ⟨[], none⟩ := by rw [ofText]
  have scanned := ofPath_of_cut h
  rw [finished] at scanned
  have tokens := congrArg Scan.tokens scanned
  have error := congrArg Scan.error scanned
  rw [prepend_tokens, List.append_nil] at tokens
  rw [prepend_error] at error
  cases whole : ofPath s with
  | mk ts' error' =>
    rw [whole] at tokens error
    cases tokens
    cases error
    rfl

/-- A scan with an error ends where some token could not be found. -/
theorem exists_halt {s : List Char} {e : PathError} (h : (ofPath s).error = some e) :
    ∃ ts c after last e', PathCut ts s (c :: after) ∧ Token.find c after = .halt last e' ∧
      e = e'.shift (Text.size (ts.flatMap Token.spelling)) := by
  obtain ⟨ts, rest, cut, rfl | ⟨c, after, last, e', rfl, halted⟩⟩ := exists_pathCut s
  · rw [ofPath_of_whole cut] at h
    cases h
  · rw [ofPath_of_cut cut, ofText_halt halted, prepend_error] at h
    cases h
    exact ⟨ts, c, after, last, e', cut, halted, rfl⟩

/-- A path is scanned to its end exactly when all of it can be cut into tokens. -/
theorem error_eq_none_iff {s : List Char} :
    (ofPath s).error = none ↔ PathCut (ofPath s).tokens s [] := by
  constructor
  · intro h
    obtain ⟨ts, rest, cut, rfl | ⟨c, after, last, e, rfl, halted⟩⟩ := exists_pathCut s
    · rw [ofPath_of_whole cut]
      exact cut
    · rw [ofPath_of_cut cut, ofText_halt halted, prepend_error] at h
      cases h
  · intro cut
    rw [ofPath_of_whole cut]

theorem cut_unique {ts us : List Token} {s : List Char} (h : PathCut ts s [])
    (h' : PathCut us s []) : ts = us := by
  have both := (ofPath_of_whole h).symm.trans (ofPath_of_whole h')
  exact congrArg Scan.tokens both

end Scan

theorem normalize_eq_ok_iff {p : String} {path : Path} :
    normalize p = .ok path ↔
      ∃ ts, Scan.PathCut ts p.toList [] ∧ path = ts.filterMap Token.node? := by
  constructor
  · intro h
    unfold normalize Scan.result at h
    split at h
    · rename_i complete
      cases h
      exact ⟨_, Scan.error_eq_none_iff.1 complete, rfl⟩
    · cases h
  · rintro ⟨ts, cut, rfl⟩
    rw [normalize, Scan.ofPath_of_whole cut]
    rfl

theorem normalize_eq_error_iff {p : String} {e : PathError} :
    normalize p = .error e ↔ (Scan.ofPath p.toList).error = some e := by
  unfold normalize Scan.result
  split
  · rename_i complete
    simp [complete]
  · rename_i e' failed
    simp [failed]

/-- A path that is one subscript comes to what the subscript comes to. -/
theorem normalize_brackets {body : List Char} (balanced : Balanced body) :
    normalize (String.ofList ('[' :: (body ++ [']']))) =
      (Subscript.node body).map fun n => [n] := by
  have notRooted : ∀ after, '[' :: (body ++ [']']) = '$' :: after → ¬ Token.root.Stands after := by
    intro after same
    cases same
  cases node : Subscript.node body with
  | ok n =>
    have cut := Scan.Cut.cons (t := .subscript body n) (by simp)
      ⟨balanced, Subscript.node_eq_ok_iff.1 node⟩ (@Scan.Cut.nil [])
    rw [List.append_nil] at cut
    refine normalize_eq_ok_iff.2 ⟨[.subscript body n], ?_, rfl⟩
    rw [String.toList_ofList]
    exact .plain notRooted cut
  | error e =>
    have closed : Closing.find 0 (body ++ [']']) = .closed body [] :=
      Closing.find_eq_closed_iff.2 ⟨balanced, rfl⟩
    have halted : Token.find '[' (body ++ [']']) = .halt [] e := by
      change Token.findSubscript _ = _
      simp only [Token.findSubscript, closed, node]
    refine normalize_eq_error_iff.2 ?_
    rw [String.toList_ofList, Scan.ofPath_plain notRooted, Scan.ofText_halt halted]

/-- **Normalization accepts exactly the grammar.** A text is normalized when it can be cut into
tokens, it can be cut in one way only, and its nodes are those that the tokens denote, in order. -/
theorem normalize_accepts_grammar (p : String) :
    ((∃ path, normalize p = .ok path) ↔ ∃ ts, Scan.PathCut ts p.toList []) ∧
    (∀ ts us, Scan.PathCut ts p.toList [] → Scan.PathCut us p.toList [] → ts = us) ∧
    ∀ path, normalize p = .ok path ↔ ∃ ts, Scan.PathCut ts p.toList [] ∧ Scan.Means ts path := by
  refine ⟨?_, fun ts us h h' => Scan.cut_unique h h', ?_⟩
  · constructor
    · rintro ⟨path, h⟩
      obtain ⟨ts, cut, _⟩ := normalize_eq_ok_iff.1 h
      exact ⟨ts, cut⟩
    · rintro ⟨ts, cut⟩
      exact ⟨_, normalize_eq_ok_iff.2 ⟨ts, cut, rfl⟩⟩
  · intro path
    simp only [normalize_eq_ok_iff, Scan.means_iff]

end JsonPath
