import JsonPath.Scan

/-!
Subpaths: paths held by the nodes of a path. Expanding all of them comes to an end, since the text
of a subpath is shorter than the path that holds it.
-/

namespace JsonPath

def Node.subpath? : Node → Option String
  | subpath path => some path
  | _ => none

namespace Token

/-- The node of a subscript is the one that its text denotes. -/
def Denoted : Token → Prop
  | subscript body node => Subscript.node body = .ok node
  | _ => True

theorem denoted_of_find {c : Char} {rest after : List Char} {t : Token}
    (h : find c rest = .token t after) : t.Denoted := by
  unfold find findDots findSubscript at h
  repeat' split at h
  all_goals cases h
  all_goals simp_all [Denoted]

theorem denoted_of_halt {c : Char} {rest : List Char} {last : List Token} {e : PathError}
    (h : find c rest = .halt last e) : ∀ t ∈ last, t.Denoted := by
  unfold find findDots findSubscript at h
  repeat' split at h
  all_goals cases h
  all_goals simp [Denoted]

end Token

namespace Scan

theorem denoted_ofText (s : List Char) : ∀ t ∈ (ofText s).tokens, t.Denoted := by
  fun_induction ofText s with
  | case1 => simp
  | case2 c rest t after found ih =>
    exact List.forall_mem_cons.2 ⟨Token.denoted_of_find found, ih⟩
  | case3 c rest last e found => exact Token.denoted_of_halt found

theorem denoted_ofPath (s : List Char) : ∀ t ∈ (ofPath s).tokens, t.Denoted := by
  unfold ofPath
  split
  · simp [Token.Denoted]
  · exact List.forall_mem_cons.2 ⟨trivial, denoted_ofText _⟩
  · exact denoted_ofText s

end Scan

/-- A subscript that holds a subpath is that subpath, character for character. -/
theorem Subscript.eq_of_subpath {s : List Char} {path : String} (h : node s = .ok (.subpath path)) :
    path = String.ofList s := by
  unfold node at h
  split at h
  · cases h
  · cases h
    rfl
  · split at h <;> cases h
  · cases h
  · split at h <;> cases h
  · cases h
  · unfold ofList at h
    split at h
    · rename_i es _
      unfold ofSelections at h
      split at h <;> cases h
    · cases h
    · cases h

theorem Token.length_of_subpath {t : Token} {path : String} (denoted : t.Denoted)
    (h : t.node? = some (.subpath path)) : path.length + 2 = t.spelling.length := by
  cases t with
  | subscript body node =>
    cases h
    rw [Subscript.eq_of_subpath denoted]
    simp [spelling]
  | text chars =>
    simp only [node?, ofText, Option.some.injEq] at h
    split at h <;> cases h
  | _ => cases h

/-- The brackets around a subpath make it shorter than the path. -/
theorem length_of_subpath_mem {path sub : String} {nodes : Path} (h : normalize path = .ok nodes)
    (mem : .subpath sub ∈ nodes) : sub.length + 2 ≤ path.length := by
  unfold normalize Scan.result at h
  split at h
  · rename_i complete
    cases h
    obtain ⟨t, tokenMem, denotes⟩ := List.mem_filterMap.1 mem
    rw [Token.length_of_subpath (Scan.denoted_ofPath _ t tokenMem) denotes]
    obtain ⟨front, back, split⟩ := List.append_of_mem tokenMem
    have whole := congrArg List.length (Scan.spelling_ofPath complete)
    simp only [split, List.flatMap_append, List.flatMap_cons, List.length_append,
      String.length_toList] at whole
    omega
  · cases h

/-- A subpath met while expanding, `depth` steps below the outermost path. -/
structure Expansion where
  depth : Nat
  text : String
  result : Except PathError Path
  deriving Repr

/-- The subpaths of a path, each followed by those inside it. -/
def expansions (depth : Nat) (path : String) : List Expansion :=
  match _outcome : normalize path with
  | .error _ => []
  | .ok nodes =>
    nodes.attach.flatMap fun ⟨node, _mem⟩ =>
      match _sub : node.subpath? with
      | none => []
      | some sub => ⟨depth, sub, normalize sub⟩ :: expansions (depth + 1) sub
termination_by path.length
decreasing_by
  have mem : .subpath sub ∈ nodes := by cases node <;> simp_all [Node.subpath?]
  have := length_of_subpath_mem _outcome mem
  omega

end JsonPath
