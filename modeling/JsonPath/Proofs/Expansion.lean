import JsonPath.Proofs.Spelling
import JsonPath.Subpath
import Mathlib.Algebra.Order.BigOperators.Group.List
import Mathlib.Algebra.Order.Group.Nat
import Mathlib.Algebra.Ring.Nat
import Mathlib.Data.List.Basic

/-!
Subpaths and their expansion. A path holds the texts of its subpaths apart from one another, each in
brackets of its own, so a subpath that waits to be expanded has a bracket of the path for itself and
one more for every bracket inside it. Main statement: whatever the order in which subpaths are
expanded, it ends after no more expansions than the path has opening brackets.
-/

namespace JsonPath

/-- The subpaths among the nodes of a path, in order. -/
def Path.subpaths (path : Path) : List String := path.filterMap Node.subpath?

/-- The subpaths that a text brings up when it is expanded. A text that is no path brings up none.
-/
def subpathsIn (text : String) : List String :=
  match normalize text with
  | .ok path => path.subpaths
  | .error _ => []

theorem subpathsIn_ok {text : String} {path : Path} (h : normalize text = .ok path) :
    subpathsIn text = path.subpaths := by
  rw [subpathsIn, h]

theorem subpathsIn_error {text : String} {e : PathError} (h : normalize text = .error e) :
    subpathsIn text = [] := by
  rw [subpathsIn, h]

theorem mem_subpaths_iff {path : Path} {sub : String} :
    sub ∈ path.subpaths ↔ .subpath sub ∈ path := by
  rw [Path.subpaths, List.mem_filterMap]
  constructor
  · rintro ⟨n, inside, same⟩
    cases n <;> cases same
    exact inside
  · intro inside
    exact ⟨.subpath sub, inside, rfl⟩

/-! ## Where subpaths stand -/

/-- The texts stand in the path in this order, apart from one another. A bracket stands in front of
each, and the bracket that closes it stands behind. -/
inductive Holds : List Char → List String → Prop
  | nothing {s : List Char} : Holds s []
  | enclosed {front s body back : List Char} {texts : List String}
      (closed : Closing.find 0 s = .closed body back) (others : Holds back texts) :
      Holds (front ++ '[' :: s) (String.ofList body :: texts)

theorem Holds.prepend {s : List Char} {texts : List String} (h : Holds s texts)
    (front : List Char) : Holds (front ++ s) texts := by
  cases h with
  | nothing => exact .nothing
  | enclosed closed others =>
    rw [← List.append_assoc]
    exact .enclosed closed others

/-- Only a subscript denotes a subpath, and its text is that subpath. -/
theorem Token.subscript_of_subpath {t : Token} {after : List Char} {sub : String}
    (stands : t.Stands after) (node : t.node? = some (.subpath sub)) :
    ∃ body, t = .subscript body (.subpath sub) ∧ Balanced body ∧ sub = String.ofList body := by
  cases t with
  | subscript body n =>
    cases node
    obtain ⟨balanced, means⟩ := stands
    exact ⟨body, rfl, balanced, Subscript.eq_of_subpath (Subscript.node_eq_ok_iff.2 means)⟩
  | text chars =>
    simp only [node?, ofText, Option.some.injEq] at node
    split at node <;> cases node
  | _ => cases node

/-- One more token in front is one more text held, if it denotes a subpath. -/
theorem Token.holds {t : Token} {n : Node} {after : List Char} {texts : List String}
    (stands : t.Stands after) (node : t.node? = some n) (others : Holds after texts) :
    Holds (t.spelling ++ after) (n.subpath?.toList ++ texts) := by
  cases sub : n.subpath? with
  | none => exact others.prepend t.spelling
  | some text =>
    have isSubpath : n = .subpath text := by
      cases n <;> cases sub
      rfl
    subst isSubpath
    obtain ⟨body, rfl, balanced, rfl⟩ := Token.subscript_of_subpath stands node
    have closed : Closing.find 0 (body ++ ']' :: after) = .closed body after :=
      Closing.find_eq_closed_iff.2 ⟨balanced, rfl⟩
    have held := @Holds.enclosed [] (body ++ ']' :: after) body after texts closed others
    simpa [Token.spelling] using held

theorem Scan.Cut.holds {ts : List Token} {s rest : List Char} (h : Cut ts s rest) :
    Holds s (Path.subpaths (ts.filterMap Token.node?)) := by
  induction h with
  | nil => exact .nothing
  | @cons t ts after rest _ stands _ ih =>
    rw [List.filterMap_cons]
    cases node : t.node? with
    | none => exact ih.prepend t.spelling
    | some n =>
      have held := Token.holds stands node ih
      rw [Path.subpaths, List.filterMap_cons]
      cases sub : n.subpath? with
      | none => rwa [sub] at held
      | some text => rwa [sub] at held

theorem holds_of_normalize {p : String} {path : Path} (h : normalize p = .ok path) :
    Holds p.toList path.subpaths := by
  obtain ⟨ts, cut, rfl⟩ := normalize_eq_ok_iff.1 h
  generalize p.toList = s at cut
  cases cut with
  | rooted _ others => exact others.holds.prepend ['$']
  | plain _ cut => exact cut.holds

/-- **Texts apart from one another share no bracket.** Each has the one in front of it and those
inside. -/
theorem Holds.brackets_le {s : List Char} {texts : List String} (h : Holds s texts) :
    (texts.map fun t => t.toList.count '[' + 1).sum ≤ s.count '[' := by
  induction h with
  | nothing => exact Nat.zero_le _
  | @enclosed front s body back texts closed _ ih =>
    rw [Closing.append_of_find closed]
    simp only [List.map_cons, List.sum_cons, String.toList_ofList, List.count_append,
      List.count_cons_self]
    have behind : back.count '[' ≤ (']' :: back).count '[' := List.count_le_count_cons
    omega

/-! ## Every expansion, one after another -/

/-- One of the texts that wait is expanded, and what it brings up waits in its place. -/
inductive Expands : List String → List String → Prop
  | intro (front back : List String) (text : String) :
      Expands (front ++ text :: back) (front ++ (subpathsIn text ++ back))

/-- Some number of expansions, in any order. -/
inductive ExpandsIn : Nat → List String → List String → Prop
  | start {waiting : List String} : ExpandsIn 0 waiting waiting
  | next {n : Nat} {waiting between after : List String} (first : Expands waiting between)
      (others : ExpandsIn n between after) : ExpandsIn (n + 1) waiting after

/-- The program's own order: each subpath, then all that it brings up, then the next one. -/
theorem expansions_eq (depth : Nat) (p : String) :
    expansions depth p =
      (subpathsIn p).flatMap fun sub =>
        ⟨depth, sub, normalize sub⟩ :: expansions (depth + 1) sub := by
  rw [expansions]
  split
  · rename_i failed
    rw [subpathsIn_error failed]
    rfl
  · rename_i nodes normalized
    rw [List.flatMap_subtype (g := fun n => n.subpath?.toList.flatMap fun sub =>
      ⟨depth, sub, normalize sub⟩ :: expansions (depth + 1) sub)]
    · rw [List.unattach_attach, subpathsIn_ok normalized, Path.subpaths,
        List.filterMap_eq_flatMap_toList, List.flatMap_assoc]
    · intro n _
      dsimp only
      split <;> rename_i same <;> rw [same]
      · rfl
      · simp

/-- How many expansions are still to come when these texts wait. -/
def remaining (waiting : List String) : Nat :=
  (waiting.map fun text => (expansions 0 text).length + 1).sum

theorem length_subpathsIn {text sub : String} (h : sub ∈ subpathsIn text) :
    sub.length + 2 ≤ text.length := by
  cases normalized : normalize text with
  | error e =>
    rw [subpathsIn_error normalized] at h
    cases h
  | ok path =>
    rw [subpathsIn_ok normalized, mem_subpaths_iff] at h
    exact length_of_subpath_mem normalized h

theorem length_expansions (depth : Nat) (p : String) :
    (expansions depth p).length = remaining (subpathsIn p) := by
  induction size : p.length using Nat.strongRecOn generalizing depth p with
  | ind _ ih =>
    subst size
    rw [expansions_eq, List.length_flatMap, remaining]
    congr 1
    apply List.map_congr_left
    intro sub inside
    have shorter := length_subpathsIn inside
    rw [List.length_cons, ih _ (by omega) (depth + 1) sub rfl, ih _ (by omega) 0 sub rfl]

/-- An expansion is done once and for all: what it brings up was counted before. -/
theorem Expands.remaining_eq {waiting after : List String} (h : Expands waiting after) :
    remaining waiting = remaining after + 1 := by
  cases h with
  | intro front back text =>
    have inner := length_expansions 0 text
    simp only [remaining, List.map_append, List.map_cons, List.sum_append, List.sum_cons] at inner ⊢
    omega

theorem ExpandsIn.remaining_eq {n : Nat} {waiting after : List String}
    (h : ExpandsIn n waiting after) : remaining waiting = remaining after + n := by
  induction h with
  | start => rfl
  | next first _ ih =>
    have step := first.remaining_eq
    omega

theorem remaining_eq_zero_iff {waiting : List String} : remaining waiting = 0 ↔ waiting = [] := by
  cases waiting with
  | nil => exact iff_of_true rfl rfl
  | cons text waiting =>
    apply iff_of_false
    · rw [remaining, List.map_cons, List.sum_cons]
      omega
    · simp

/-- Whatever waits can be expanded until nothing waits any more. -/
theorem ExpandsIn.exists_end (waiting : List String) :
    ExpandsIn (remaining waiting) waiting [] := by
  induction count : remaining waiting generalizing waiting with
  | zero =>
    obtain rfl := remaining_eq_zero_iff.1 count
    exact .start
  | succ n ih =>
    cases waiting with
    | nil => cases count
    | cons text back =>
      have first := Expands.intro [] back text
      have step := first.remaining_eq
      exact .next first (ih _ (by simp only [List.nil_append] at step ⊢; omega))

/-- The brackets inside a subpath bound its own expansions, so those of the path bound all of them.
-/
theorem length_expansions_le (depth : Nat) (p : String) :
    (expansions depth p).length ≤ p.toList.count '[' := by
  induction size : p.length using Nat.strongRecOn generalizing depth p with
  | ind _ ih =>
    subst size
    rw [length_expansions]
    cases normalized : normalize p with
    | error e =>
      rw [subpathsIn_error normalized]
      exact Nat.zero_le _
    | ok path =>
      have brackets := (holds_of_normalize normalized).brackets_le
      rw [← subpathsIn_ok normalized] at brackets
      apply Nat.le_trans _ brackets
      apply List.sum_le_sum
      intro sub inside
      have shorter := length_subpathsIn inside
      exact Nat.succ_le_succ (ih _ (by omega) 0 sub rfl)

/-! ## What expansions yield -/

/-- Every text that waits begins with the root and a dot. -/
theorem opens_of_subpath {path : Path} {p sub : String} (h : normalize p = .ok path)
    (mem : sub ∈ path.subpaths) : ['$', '.'] <+: sub.toList := by
  rw [mem_subpaths_iff] at mem
  obtain ⟨ts, cut, rfl⟩ := normalize_eq_ok_iff.1 h
  exact ((Scan.spellable_of_pathCut cut).each _ mem).2

theorem opens_of_mem_subpathsIn {text sub : String} (mem : sub ∈ subpathsIn text) :
    ['$', '.'] <+: sub.toList := by
  cases normalized : normalize text with
  | error e =>
    rw [subpathsIn_error normalized] at mem
    cases mem
  | ok path =>
    rw [subpathsIn_ok normalized] at mem
    exact opens_of_subpath normalized mem

theorem Expands.opens {waiting after : List String} (h : Expands waiting after)
    (before : ∀ t ∈ waiting, ['$', '.'] <+: t.toList) : ∀ t ∈ after, ['$', '.'] <+: t.toList := by
  cases h with
  | intro front back text =>
    obtain ⟨hfront, hrest⟩ := List.forall_mem_append.1 before
    obtain ⟨_, hback⟩ := List.forall_mem_cons.1 hrest
    refine List.forall_mem_append.2 ⟨hfront, List.forall_mem_append.2 ⟨?_, hback⟩⟩
    intro t inside
    exact opens_of_mem_subpathsIn inside

theorem ExpandsIn.opens {n : Nat} {waiting after : List String} (h : ExpandsIn n waiting after)
    (before : ∀ t ∈ waiting, ['$', '.'] <+: t.toList) : ∀ t ∈ after, ['$', '.'] <+: t.toList := by
  induction h with
  | start => exact before
  | next first _ ih => exact ih (first.opens before)

/-- A text that begins so is a rooted path, if it is one at all. -/
theorem rooted_of_opens {text : String} {path : Path} (opens : ['$', '.'] <+: text.toList)
    (h : normalize text = .ok path) : path.isRooted = true ∧ .root ∉ path.tail := by
  obtain ⟨s, whole⟩ := opens
  obtain ⟨ts, cut, rfl⟩ := normalize_eq_ok_iff.1 h
  refine ⟨?_, (Scan.spellable_of_pathCut cut).rooted⟩
  rw [← whole] at cut
  cases cut with
  | rooted _ _ => rfl
  | plain notRooted _ =>
    have stands : Token.root.Stands ('.' :: s) := by
      intro c first
      cases first
      rfl
    exact absurd stands (notRooted _ rfl)

/-- The subpath and the brackets around it are part of the path. -/
theorem Holds.size_le {s : List Char} {texts : List String} (h : Holds s texts) :
    ∀ t ∈ texts, t.utf8ByteSize + 2 ≤ Text.size s := by
  induction h with
  | nothing => simp
  | @enclosed front s body back texts closed _ ih =>
    have size : Text.size (front ++ '[' :: s) =
        Text.size front + Text.size body + Text.size back + 2 := by
      rw [Closing.append_of_find closed]
      simp only [Text.size_append, Text.size_cons]
      have bracket : '['.utf8Size = 1 ∧ ']'.utf8Size = 1 := by decide
      omega
    rw [size]
    intro t inside
    rcases List.mem_cons.1 inside with rfl | inside
    · rw [Text.utf8ByteSize_ofList]
      omega
    · have bound := ih t inside
      omega

/-- **Expanding subpaths comes to an end.** The subpaths of a path stand in it in order and apart
from one another, each between two brackets that belong together. Expand them one after another, in
any order, and what they bring up too: it can be done until nothing is left, it is done exactly
after as many expansions as the program makes, and these are no more than the path has opening
brackets. Every expansion that succeeds is rooted, and has its root nowhere else. -/
theorem subpath_expansion_ends (p : String) (path : Path) (normalized : normalize p = .ok path) :
    Holds p.toList path.subpaths ∧
    (∀ sub, .subpath sub ∈ path → sub.utf8ByteSize + 2 ≤ p.utf8ByteSize) ∧
    ExpandsIn (expansions 1 p).length path.subpaths [] ∧
    ∀ n waiting, ExpandsIn n path.subpaths waiting →
      n ≤ p.toList.count '[' ∧
      (waiting = [] ↔ n = (expansions 1 p).length) ∧
      ∀ sub ∈ waiting, ∀ inner, normalize sub = .ok inner →
        inner.isRooted = true ∧ .root ∉ inner.tail := by
  have held := holds_of_normalize normalized
  have total : (expansions 1 p).length = remaining path.subpaths := by
    rw [length_expansions, subpathsIn_ok normalized]
  refine ⟨held, ?_, ?_, ?_⟩
  · intro sub inside
    rw [← mem_subpaths_iff] at inside
    rw [← Text.size_toList p]
    exact held.size_le sub inside
  · rw [total]
    exact ExpandsIn.exists_end path.subpaths
  · intro n waiting run
    have count := run.remaining_eq
    have bound := length_expansions_le 1 p
    rw [← remaining_eq_zero_iff]
    refine ⟨by omega, by omega, ?_⟩
    intro sub inside inner expanded
    have opens := run.opens (fun t => opens_of_subpath normalized) sub inside
    exact rooted_of_opens opens expanded

/-- One subpath holds another and one is no path: three brackets, and three
expansions level by level. -/
theorem subpath_expansion_ends_nested :
    normalize "$.a[$.b[$.c]][$.d.]" =
      .ok [.root, .child (.name "a"), .subpath "$.b[$.c]", .subpath "$.d."] ∧
    ExpandsIn 3 ["$.b[$.c]", "$.d."] [] ∧ (expansions 1 "$.a[$.b[$.c]][$.d.]").length = 3 := by
  have normalized : normalize "$.a[$.b[$.c]][$.d.]" =
      .ok [.root, .child (.name "a"), .subpath "$.b[$.c]", .subpath "$.d."] := by decide +kernel
  have inner : subpathsIn "$.b[$.c]" = ["$.c"] := by decide +kernel
  have broken : subpathsIn "$.d." = [] := by decide +kernel
  have innermost : subpathsIn "$.c" = [] := by decide +kernel
  have run : ExpandsIn 3 ["$.b[$.c]", "$.d."] [] := by
    have first := Expands.intro [] ["$.d."] "$.b[$.c]"
    have second := Expands.intro ["$.c"] [] "$.d."
    have third := Expands.intro [] [] "$.c"
    rw [inner] at first
    rw [broken] at second
    rw [innermost] at third
    exact .next first (.next second (.next third .start))
  obtain ⟨_, _, _, order⟩ := subpath_expansion_ends _ _ normalized
  exact ⟨normalized, run, ((order 3 [] run).2.1.1 rfl).symm⟩

end JsonPath
