import JsonPath.Proofs.Grammar

/-!
A text for every path that has one. Names go into quotes and nodes are kept apart by dots,
except around a descent, whose dots say enough. Main statement: the paths so written are all
that normalization yields.
-/

namespace JsonPath

def Key.spelling : Key → List Char
  | .name s => (Literal.ofText .single s.toList).spelling
  | .index i => i.render

/-- All three parts are written, and only the end may be nothing. -/
def Slice.spelling (s : Slice) : List Char :=
  s.start.render ++ ':' :: ((s.stop.map Index.render).getD [] ++ ':' :: s.step.render)

namespace Selection

def spelling : Selection → List Char
  | .key k => k.spelling
  | .slice s => s.spelling

theorem spelled_name (s : String) :
    Spelled (Literal.ofText .single s.toList).spelling (.key (.name s)) := by
  have spelled := Spelled.literal (Literal.wellFormed_ofText .single s.toList)
  rwa [Literal.text_ofText, String.ofList_toList] at spelled

theorem bound_render (bound : Option Index) :
    Slice.Bound ((bound.map Index.render).getD []) bound := by
  cases bound with
  | none => exact .absent
  | some i => exact .present (Index.spelled_render i)

theorem spelled_spelling (e : Selection) : Spelled e.spelling e := by
  cases e with
  | key k =>
    cases k with
    | name s => exact spelled_name s
    | index i => exact .index (Index.spelled_render i)
  | slice s =>
    exact .slice (.three (.present (Index.spelled_render s.start)) (bound_render s.stop)
      (.present (Index.spelled_render s.step)))

theorem listed_spelling {es : List Selection} (nonempty : es ≠ []) :
    Listed (Text.join [','] (es.map spelling)) es := by
  induction es with
  | nil => exact absurd rfl nonempty
  | cons e es ih =>
    cases es with
    | nil => exact .last (spelled_spelling e)
    | cons e' es =>
      have others := Listed.cons (spelled_spelling e) (ih (by simp))
      simpa [Text.join] using others

end Selection

namespace Node

/-- Whether some text denotes the node. Names, indices and bounds can be anything. -/
def Spellable : Node → Prop
  | union es => es ≠ [] ∧ ∀ e, es = [e] → ∃ s, e = .slice s
  | script code => Balanced code.toList
  | filter code => Balanced code.toList
  | subpath path => Balanced path.toList ∧ ['$', '.'] <+: path.toList
  | call f => (∀ c ∈ f.toList, ¬ Token.Separates c) ∧ f.toList.head? ≠ some '*'
  | _ => True

/-- A token that denotes the node. -/
def token : Node → Token
  | root => .root
  | wildcard => .wildcard
  | descent => .descent
  | parent => .parent
  | child k => .subscript k.spelling (.child k)
  | union es => .subscript (Text.join [','] (es.map Selection.spelling)) (.union es)
  | script code => .subscript ('(' :: (code.toList ++ [')'])) (.script code)
  | filter code => .subscript ('?' :: '(' :: (code.toList ++ [')'])) (.filter code)
  | subpath path => .subscript path.toList (.subpath path)
  | call f => .text (f.toList ++ ['(', ')'])

theorem node?_token (n : Node) : n.token.node? = some n := by
  cases n with
  | call f => simp [token, Token.node?, Token.ofText, Subscript.stem?_concat]
  | _ => rfl

theorem balanced_parens {code : List Char} (h : Balanced code) :
    Balanced ('(' :: (code ++ [')'])) :=
  .plain (by decide) (h.append (.plain (by decide) .nil))

theorem of_balanced_parens {code : List Char} (h : Balanced ('(' :: (code ++ [')']))) :
    Balanced code := by
  have inner := Balanced.of_cons (by decide) h
  exact Balanced.of_concat (by decide) inner

theorem stands_call {f : String} {after : List Char} (h : (call f).Spellable)
    (ends : ∀ c, after.head? = some c → c = '.') : (call f).token.Stands after := by
  obtain ⟨inside, notStar⟩ := h
  refine ⟨by simp, ?_, ?_, fun c first => .inl (ends c first)⟩
  · cases front : f.toList with
    | nil => decide
    | cons c s =>
      rw [front] at notStar
      exact notStar
  · intro c hc
    rcases List.mem_append.1 hc with hc | hc
    · exact inside c hc
    · have parens : ∀ d ∈ ['(', ')'], ¬ Token.Separates d :=
        List.forall_mem_cons.2 ⟨by decide, List.forall_mem_singleton.2 (by decide)⟩
      exact parens c hc

/-- A descent stands before anything but a dot, and every other node stands before a dot or the end.
-/
theorem stands_token {n : Node} {after : List Char} (h : n.Spellable)
    (dot : n ≠ descent → ∀ c, after.head? = some c → c = '.')
    (noDot : n = descent → after.head? ≠ some '.') : n.token.Stands after := by
  cases n with
  | root => exact dot (by simp)
  | wildcard => trivial
  | descent => exact noDot rfl
  | parent => trivial
  | child k =>
    have spelled := Selection.spelled_spelling (.key k)
    exact ⟨spelled.balanced, .child (.last spelled)⟩
  | union es =>
    obtain ⟨nonempty, alone⟩ := h
    have listed := Selection.listed_spelling nonempty
    refine ⟨listed.balanced, .union listed ?_⟩
    rintro key rfl
    obtain ⟨s, wrong⟩ := alone (.key key) rfl
    cases wrong
  | script code =>
    have means := @Subscript.Means.script code.toList
    rw [String.ofList_toList] at means
    exact ⟨balanced_parens h, means⟩
  | filter code =>
    have means := @Subscript.Means.filter code.toList
    rw [String.ofList_toList] at means
    exact ⟨.plain (by decide) (balanced_parens h), means⟩
  | subpath path =>
    obtain ⟨balanced, s, opens⟩ := h
    have means := @Subscript.Means.subpath s
    have whole : '$' :: '.' :: s = path.toList := opens
    rw [whole, String.ofList_toList] at means
    exact ⟨balanced, means⟩
  | call f => exact stands_call h (dot (by simp))

/-- Only the text of a descent opens with a dot. -/
theorem head_token {n : Node} (h : n.Spellable) :
    ∃ c s, n.token.spelling = c :: s ∧ (c = '.' ↔ n = descent) := by
  cases n with
  | call f =>
    obtain ⟨inside, _⟩ := h
    cases front : f.toList with
    | nil => exact ⟨'(', [')'], by simp [token, Token.spelling, front], by simp⟩
    | cons c s =>
      refine ⟨c, s ++ ['(', ')'], by simp [token, Token.spelling, front], ?_⟩
      have notDot : c ≠ '.' := by
        intro dot
        apply inside c
        · rw [front]
          exact List.mem_cons_self
        · exact .inl dot
      simp [notDot]
  | _ => exact ⟨_, _, rfl, by simp⟩

end Node

namespace Path

/-- The dot between a node and the nodes that follow it, if there is one. -/
def gap (n : Node) : Path → List Token
  | [] => []
  | m :: _ => if n = .descent ∨ m = .descent then [] else [.dot]

def tokens : Path → List Token
  | [] => []
  | n :: path => n.token :: (gap n path ++ tokens path)

/-- A text that denotes the path. -/
def spelling (path : Path) : List Char := path.tokens.flatMap Token.spelling

theorem node?_gap (n : Node) (path : Path) : (gap n path).filterMap Token.node? = [] := by
  cases path with
  | nil => rfl
  | cons m path =>
    rw [gap]
    split <;> rfl

theorem node?_tokens (path : Path) : path.tokens.filterMap Token.node? = path := by
  induction path with
  | nil => rfl
  | cons n path ih =>
    simp only [tokens, List.filterMap_cons, Node.node?_token, List.filterMap_append, node?_gap,
      List.nil_append, ih]

theorem head_spelling {m : Node} (path : Path) (h : m.Spellable) :
    ∃ c s, spelling (m :: path) = c :: s ∧ (c = '.' ↔ m = .descent) := by
  obtain ⟨c, s, same, dot⟩ := Node.head_token h
  refine ⟨c, s ++ (gap m path ++ tokens path).flatMap Token.spelling, ?_, dot⟩
  rw [spelling, tokens, List.flatMap_cons, same]
  rfl

theorem apart_cons_iff {n : Node} {path : Path} :
    ¬ [Node.descent, .descent] <:+: n :: path ↔
      (n = .descent → path.head? ≠ some .descent) ∧ ¬ [Node.descent, .descent] <:+: path := by
  constructor
  · intro h
    refine ⟨?_, fun inside => h (inside.trans (List.suffix_cons n path).isInfix)⟩
    rintro rfl first
    cases path with
    | nil => cases first
    | cons m path =>
      cases first
      exact h ⟨[], path, rfl⟩
  · rintro ⟨apart, others⟩ inside
    rcases List.infix_cons_iff.1 inside with ⟨rest, same⟩ | inside
    · cases same
      exact apart rfl rfl
    · exact others inside

/-- What follows a node in a text opens with a dot, except behind a descent. -/
theorem stands_gap {n : Node} {path : Path} (first : n.Spellable) (others : ∀ m ∈ path, m.Spellable)
    (apart : n = .descent → path.head? ≠ some .descent) :
    n.token.Stands ((gap n path).flatMap Token.spelling ++ path.spelling) := by
  cases path with
  | nil =>
    exact Node.stands_token first (fun _ c wrong => nomatch wrong) (fun _ wrong => nomatch wrong)
  | cons m path =>
    obtain ⟨d, s, same, dot⟩ := head_spelling path (others m List.mem_cons_self)
    rw [same, gap]
    by_cases descent : n = .descent
    · rw [if_pos (.inl descent)]
      refine Node.stands_token first (fun wrong => absurd descent wrong) ?_
      rintro - head
      apply apart descent
      rw [dot.1 (Option.some.inj head)]
      rfl
    · refine Node.stands_token first ?_ (fun wrong => absurd wrong descent)
      rintro - c head
      by_cases next : m = .descent
      · rw [if_pos (.inr next)] at head
        cases head
        exact dot.2 next
      · rw [if_neg (not_or.2 ⟨descent, next⟩)] at head
        cases head
        rfl

theorem cut_gap {n : Node} {path : Path} {ts : List Token} (others : ∀ m ∈ path, m.Spellable)
    (cut : Scan.Cut ts path.spelling []) :
    Scan.Cut (gap n path ++ ts) ((gap n path).flatMap Token.spelling ++ path.spelling) [] := by
  cases path with
  | nil => exact cut
  | cons m path =>
    obtain ⟨d, s, same, dot⟩ := head_spelling path (others m List.mem_cons_self)
    rw [gap]
    split
    · exact cut
    · rename_i neither
      refine .cons (by simp) ?_ cut
      refine ⟨d, by rw [same]; rfl, ?_⟩
      intro isDot
      exact neither (.inr (dot.1 isDot))

theorem cut_tokens {path : Path} (notRoot : .root ∉ path) (each : ∀ n ∈ path, n.Spellable)
    (apart : ¬ [Node.descent, .descent] <:+: path) : Scan.Cut path.tokens path.spelling [] := by
  induction path with
  | nil => exact .nil
  | cons n path ih =>
    obtain ⟨first, others⟩ := List.forall_mem_cons.1 each
    obtain ⟨head, tail⟩ := apart_cons_iff.1 apart
    have cut := ih (fun inside => notRoot (List.mem_cons_of_mem n inside)) others tail
    have token : n.token ≠ .root := by
      intro same
      apply notRoot
      have node := Node.node?_token n
      rw [same] at node
      cases node
      exact List.mem_cons_self
    rw [spelling, tokens, List.flatMap_cons, List.flatMap_append]
    exact .cons token (stands_gap first others head) (cut_gap others cut)

/-- Whether some text denotes the path. A run of dots cannot be two descents, and the root has
its text only in front. -/
structure Spellable (path : Path) : Prop where
  rooted : .root ∉ path.tail
  apart : ¬ [Node.descent, .descent] <:+: path
  each : ∀ n ∈ path, n.Spellable

theorem not_rooted_call {f : String} {s after : List Char}
    (inside : ∀ c ∈ f.toList, ¬ Token.Separates c)
    (same : f.toList ++ '(' :: ')' :: s = '$' :: after) : ¬ Token.root.Stands after := by
  intro stands
  cases name : f.toList with
  | nil =>
    rw [name] at same
    cases same
  | cons c cs =>
    rw [name] at same inside
    cases cs with
    | nil =>
      cases same
      cases stands '(' rfl
    | cons d cs =>
      cases same
      apply inside d
      · simp
      · exact .inl (stands d rfl)

/-- Only a call has a text that begins with `$` without being the root, and no dot follows there. -/
theorem not_rooted_token {n : Node} {s after : List Char} (h : n.Spellable) (notRoot : n ≠ .root)
    (same : n.token.spelling ++ s = '$' :: after) : ¬ Token.root.Stands after := by
  cases n with
  | root => exact absurd rfl notRoot
  | call f =>
    apply not_rooted_call h.1 (s := s)
    rw [← same]
    simp [Node.token, Token.spelling]
  | _ => cases same

theorem pathCut_tokens {path : Path} (h : path.Spellable) :
    Scan.PathCut path.tokens path.spelling [] := by
  obtain ⟨rooted, apart, each⟩ := h
  cases path with
  | nil => exact .plain (fun _ wrong => nomatch wrong) .nil
  | cons n path =>
    obtain ⟨first, others⟩ := List.forall_mem_cons.1 each
    by_cases root : n = .root
    · subst root
      obtain ⟨head, tail⟩ := apart_cons_iff.1 apart
      have cut := cut_tokens rooted others tail
      have stands := stands_gap first others head
      rw [spelling, tokens, List.flatMap_cons, List.flatMap_append]
      exact .rooted stands (cut_gap others cut)
    · refine .plain ?_ (cut_tokens ?_ each apart)
      · intro after same
        rw [spelling, tokens, List.flatMap_cons] at same
        exact not_rooted_token first root same
      · intro inside
        rcases List.mem_cons.1 inside with same | inside
        · exact root same.symm
        · exact rooted inside

/-- What is written for a path is read as that path. -/
theorem normalize_spelling {path : Path} (h : path.Spellable) :
    normalize (String.ofList path.spelling) = .ok path := by
  rw [normalize_eq_ok_iff, String.toList_ofList]
  exact ⟨path.tokens, pathCut_tokens h, (node?_tokens path).symm⟩

example : spelling [.root, .call "f", .call "g", .descent, .child (.name "a'b"), .parent] =
    "$.f().g()..['a\\'b'].^".toList := by decide

end Path

/-! ## What normalization yields -/

theorem Subscript.Means.spellable {body : List Char} {n : Node} (h : Means body n)
    (balanced : Balanced body) : n.Spellable ∧ n ≠ .root ∧ n ≠ .descent := by
  refine ⟨?_, ?_, ?_⟩
  · cases h with
    | subpath => exact ⟨by rwa [String.toList_ofList], _, (String.toList_ofList).symm⟩
    | @filter code =>
      have inner := Node.of_balanced_parens (Balanced.of_cons (by decide) balanced)
      rwa [← String.toList_ofList (l := code)] at inner
    | @script code =>
      have inner := Node.of_balanced_parens balanced
      rwa [← String.toList_ofList (l := code)] at inner
    | wildcard => trivial
    | child => trivial
    | union listed notKey =>
      refine ⟨listed.ne_nil, ?_⟩
      rintro e rfl
      cases e with
      | key key => exact absurd rfl (notKey key)
      | slice s => exact ⟨s, rfl⟩
  · cases h <;> simp
  · cases h <;> simp

namespace Token

theorem node?_eq_none_iff {t : Token} : t.node? = none ↔ t = dot := by
  cases t <;> simp [node?]

theorem spellable_ofText {chars after : List Char} (h : (text chars).Stands after) :
    (ofText chars).Spellable ∧ ofText chars ≠ .root ∧ ofText chars ≠ .descent := by
  obtain ⟨_, notStar, inside, _⟩ := h
  unfold ofText
  split
  · rename_i f found
    rw [Text.stem?_eq_some_iff] at found
    subst found
    refine ⟨⟨?_, ?_⟩, by simp, by simp⟩
    · rw [String.toList_ofList]
      intro c hc
      exact inside c (List.mem_append_left _ hc)
    · rw [String.toList_ofList]
      intro star
      apply notStar
      rw [List.head?_append, star]
      rfl
  · exact ⟨trivial, by simp, by simp⟩

/-- The node of a token that stands somewhere. Only two dots denote a descent. -/
theorem spellable_of_stands {t : Token} {n : Node} {after : List Char} (notRoot : t ≠ root)
    (stands : t.Stands after) (node : t.node? = some n) :
    n.Spellable ∧ n ≠ .root ∧ (n = .descent → t = descent) := by
  cases t with
  | root => exact absurd rfl notRoot
  | dot => cases node
  | descent =>
    cases node
    exact ⟨trivial, by simp, fun _ => rfl⟩
  | wildcard =>
    cases node
    exact ⟨trivial, by simp, by simp⟩
  | parent =>
    cases node
    exact ⟨trivial, by simp, by simp⟩
  | text chars =>
    cases node
    obtain ⟨spellable, notRoot, notDescent⟩ := spellable_ofText stands
    exact ⟨spellable, notRoot, fun wrong => absurd wrong notDescent⟩
  | subscript body node' =>
    cases node
    obtain ⟨spellable, notRoot, notDescent⟩ := stands.2.spellable stands.1
    exact ⟨spellable, notRoot, fun wrong => absurd wrong notDescent⟩

end Token

namespace Scan

/-- The nodes of a text that is cut into tokens. If they begin with a descent, the text begins with
a dot: this is what keeps two descents apart, since no dot follows a descent. -/
structure Yields (path : Path) (s : List Char) : Prop where
  notRoot : .root ∉ path
  apart : ¬ [Node.descent, .descent] <:+: path
  each : ∀ n ∈ path, n.Spellable
  dot : path.head? = some .descent → s.head? = some '.'

theorem Yields.cons {path : Path} {s : List Char} {t : Token} {n : Node} (h : Yields path s)
    (notRoot : t ≠ .root) (stands : t.Stands s) (node : t.node? = some n) :
    Yields (n :: path) (t.spelling ++ s) := by
  obtain ⟨spellable, nodeNotRoot, descent⟩ := Token.spellable_of_stands notRoot stands node
  refine ⟨?_, ?_, List.forall_mem_cons.2 ⟨spellable, h.each⟩, ?_⟩
  · intro inside
    rcases List.mem_cons.1 inside with same | inside
    · exact nodeNotRoot same.symm
    · exact h.notRoot inside
  · refine Path.apart_cons_iff.2 ⟨?_, h.apart⟩
    intro isDescent first
    obtain rfl := descent isDescent
    exact stands (h.dot first)
  · intro first
    cases first
    obtain rfl := descent rfl
    rfl

theorem yields_of_cut {ts : List Token} {s rest : List Char} (h : Cut ts s rest) :
    Yields (ts.filterMap Token.node?) s := by
  induction h with
  | nil => exact ⟨by simp, by simp, by simp, by simp⟩
  | @cons t ts s rest notRoot stands others ih =>
    rw [List.filterMap_cons]
    split
    · rename_i dot
      rw [Token.node?_eq_none_iff] at dot
      subst dot
      exact ⟨ih.notRoot, ih.apart, ih.each, fun _ => rfl⟩
    · rename_i n node
      exact ih.cons notRoot stands node

theorem spellable_of_pathCut {ts : List Token} {s rest : List Char} (h : PathCut ts s rest) :
    Path.Spellable (ts.filterMap Token.node?) := by
  cases h with
  | @rooted ts s _ stands others =>
    have yields := yields_of_cut others
    have apart :=
      Path.apart_cons_iff.2 ⟨fun wrong : Node.root = .descent => (nomatch wrong), yields.apart⟩
    exact ⟨yields.notRoot, apart, List.forall_mem_cons.2 ⟨trivial, yields.each⟩⟩
  | plain _ cut =>
    have yields := yields_of_cut cut
    exact ⟨fun inside => yields.notRoot (List.mem_of_mem_tail inside), yields.apart, yields.each⟩

end Scan

/-- **The paths that normalization yields.** Some text denotes a path exactly when its root, if it
has one, comes first, no two descents are neighbours, every union has two selections or more or is
one slice, scripts, filters and subpaths are balanced, subpaths open with `$.`, and the name of a
call could stand in plain text. Nothing else is asked: any text is a name and any number of 64
bits an index or a bound. -/
theorem normalize_image (path : Path) : (∃ p, normalize p = .ok path) ↔ path.Spellable := by
  constructor
  · rintro ⟨p, h⟩
    obtain ⟨ts, cut, rfl⟩ := normalize_eq_ok_iff.1 h
    exact Scan.spellable_of_pathCut cut
  · intro h
    exact ⟨_, Path.normalize_spelling h⟩

end JsonPath
