import JsonPath.Proofs.Expansion
import JsonPath.Proofs.Finality
import JsonPath.Proofs.Lockstep

/-!
Subpaths read a second time. The path's scan passes over a subpath in one search that counts how
many brackets are open, and the scan of the subpath looks for the end of each outer bracket with a
search of its own. Main statement: where quotes stand inside brackets only, both pair the same
brackets, so the second scan misses neither a bracket nor a quote.
-/

namespace JsonPath

/-- A balanced text whose quotes all stand inside brackets. -/
inductive Shielded : List Char → Prop
  | nil : Shielded []
  | plain {c : Char} {s : List Char} (neutral : IsPlain c) (after : Shielded s) : Shielded (c :: s)
  | group {body s : List Char} (inside : Balanced body) (after : Shielded s) :
      Shielded ('[' :: (body ++ ']' :: s))

namespace Closing

namespace Passes

/-- The turns that the search takes do not depend on how many brackets are open further out. -/
theorem lift {as : List Atom} {m n : Nat} {s r : List Char} (h : Passes as m s n r) (outer : Nat) :
    Passes as (m + outer) s (n + outer) r := by
  induction h with
  | stay => exact .stay
  | plain neutral _ ih => exact .plain neutral ih
  | literal read _ ih => exact .literal read ih
  | opening _ ih =>
    rw [Nat.add_right_comm] at ih
    exact .opening ih
  | closing _ ih =>
    rw [Nat.add_right_comm]
    exact .closing ih

theorem unique {as : List Atom} {m n n' : Nat} {s r r' : List Char} (h : Passes as m s n r)
    (h' : Passes as m s n' r') : n = n' ∧ r = r' := by
  induction h with
  | stay =>
    cases h'
    exact ⟨rfl, rfl⟩
  | plain _ _ ih =>
    cases h' with
    | plain _ others => exact ih others
  | literal read _ ih =>
    cases h' with
    | literal again others =>
      rw [read] at again
      cases again
      exact ih others
  | opening _ ih =>
    cases h' with
    | opening others => exact ih others
  | closing _ ih =>
    cases h' with
    | closing others => exact ih others

theorem front {as bs : List Atom} {m n : Nat} {s r : List Char} (h : Passes (as ++ bs) m s n r) :
    ∃ k t, Passes as m s k t := by
  generalize whole : as ++ bs = cs at h
  induction h generalizing as with
  | @stay n r =>
    obtain ⟨rfl, _⟩ := List.append_eq_nil_iff.1 whole
    exact ⟨n, r, .stay⟩
  | @plain _ m _ c s _ neutral _ ih =>
    cases as with
    | nil => exact ⟨m, c :: s, .stay⟩
    | cons a as =>
      cases whole
      obtain ⟨k, t, run⟩ := ih rfl
      exact ⟨k, t, .plain neutral run⟩
  | @literal _ m _ l s _ _ read _ ih =>
    cases as with
    | nil => exact ⟨m, s, .stay⟩
    | cons a as =>
      cases whole
      obtain ⟨k, t, run⟩ := ih rfl
      exact ⟨k, t, .literal read run⟩
  | @opening _ m _ s _ _ ih =>
    cases as with
    | nil => exact ⟨m, '[' :: s, .stay⟩
    | cons a as =>
      cases whole
      obtain ⟨k, t, run⟩ := ih rfl
      exact ⟨k, t, .opening run⟩
  | @closing _ m _ s _ _ ih =>
    cases as with
    | nil => exact ⟨m + 1, ']' :: s, .stay⟩
    | cons a as =>
      cases whole
      obtain ⟨k, t, run⟩ := ih rfl
      exact ⟨k, t, .closing run⟩

/-- A search that never has fewer than `outer` brackets open would go the same way without them. -/
theorem lower {as : List Atom} {m n outer : Nat} {s r : List Char} (h : Passes as m s n r)
    (above : ∀ front back k t, as = front ++ back → Passes front m s k t → outer ≤ k) :
    Passes as (m - outer) s (n - outer) r := by
  have here : outer ≤ m := above [] as m s rfl .stay
  induction h with
  | stay => exact .stay
  | plain neutral _ ih =>
    apply Passes.plain neutral
    apply ih _ here
    rintro front back k t rfl run
    exact above (_ :: front) back k t rfl (.plain neutral run)
  | literal read _ ih =>
    apply Passes.literal read
    apply ih _ here
    rintro front back k t rfl run
    exact above (_ :: front) back k t rfl (.literal read run)
  | @opening _ m _ _ _ _ ih =>
    apply Passes.opening
    rw [← Nat.sub_add_comm here]
    apply ih _ (Nat.le_succ_of_le here)
    rintro front back k t rfl run
    exact above (_ :: front) back k t rfl (.opening run)
  | @closing as m _ s _ _ ih =>
    have next : outer ≤ m := above [.closing] as m s rfl (.closing .stay)
    rw [Nat.sub_add_comm next]
    apply Passes.closing
    apply ih _ next
    rintro front back k t rfl run
    exact above (_ :: front) back k t rfl (.closing run)

end Passes

/-- How the search pairs a bracket that it comes to with `m` brackets open. It passes over `body`
and always has that bracket open on the way, and then comes to the closing bracket in front of
`rest` with no other open. -/
def Pairs (m : Nat) (s body rest : List Char) : Prop :=
  ∃ inner : List Atom, body = inner.flatMap Atom.spelling ∧
    Passes inner (m + 1) s (m + 1) (']' :: rest) ∧
    ∀ front back k t, inner = front ++ back → Passes front (m + 1) s k t → m + 1 ≤ k

/-- **Counting on and counting anew come to the same bracket.** -/
theorem pairs_iff {m : Nat} {s body rest : List Char} :
    Pairs m s body rest ↔ find 0 s = closed body rest := by
  constructor
  · rintro ⟨inner, rfl, run, above⟩
    have fresh := run.lower above
    rw [Nat.sub_self] at fresh
    rw [fresh.find_eq.2, find_last]
    simp [prepend]
  · intro found
    obtain ⟨balanced, rfl⟩ := find_eq_closed_iff.1 found
    obtain ⟨inner, run⟩ := Passes.of_balanced balanced 0 (']' :: rest)
    have spelled := List.append_cancel_right run.find_eq.1
    have lifted := run.lift (m + 1)
    rw [Nat.zero_add] at lifted
    refine ⟨inner, spelled, lifted, ?_⟩
    rintro front back k t rfl ahead
    obtain ⟨k', t', start⟩ := run.front
    have again := start.lift (m + 1)
    rw [Nat.zero_add] at again
    have same := (ahead.unique again).1
    omega

end Closing

namespace Shielded

theorem balanced {s : List Char} (h : Shielded s) : Balanced s := by
  induction h with
  | nil => exact .nil
  | plain neutral _ ih => exact .plain neutral ih
  | group inside _ ih => exact .group inside ih

/-- In such a text the first character that is not plain is an opening bracket. -/
theorem of_append {front back : List Char} (noBracket : ∀ c ∈ front, c ≠ '[')
    (h : Shielded (front ++ back)) : (∀ c ∈ front, IsPlain c) ∧ Shielded back := by
  induction front with
  | nil => exact ⟨by simp, h⟩
  | cons c front ih =>
    obtain ⟨notOpen, others⟩ := List.forall_mem_cons.1 noBracket
    generalize whole : c :: front ++ back = s at h
    cases h with
    | nil => cases whole
    | plain neutral after =>
      cases whole
      obtain ⟨plain, rest⟩ := ih others after
      exact ⟨List.forall_mem_cons.2 ⟨neutral, plain⟩, rest⟩
    | group inside after => exact absurd (List.cons.inj whole).1 notOpen

/-- Behind an opening bracket the search finds the one that closes it. -/
theorem closed {s : List Char} (h : Shielded ('[' :: s)) :
    ∃ body rest, Closing.find 0 s = .closed body rest ∧ Shielded rest := by
  generalize whole : '[' :: s = t at h
  cases h with
  | nil => cases whole
  | plain neutral _ => exact absurd (List.cons.inj whole).1.symm neutral.1
  | @group body rest inside after =>
    cases whole
    exact ⟨body, rest, Closing.find_eq_closed_iff.2 ⟨inside, rfl⟩, after⟩

/-- A token takes whole groups only. -/
theorem of_token {t : Token} {after : List Char} (stands : t.Stands after)
    (h : Shielded (t.spelling ++ after)) : Balanced t.spelling ∧ Shielded after := by
  have ofPlain (noBracket : ∀ c ∈ t.spelling, c ≠ '[') : Balanced t.spelling ∧ Shielded after := by
    obtain ⟨plain, rest⟩ := h.of_append noBracket
    exact ⟨.of_plain plain, rest⟩
  cases t with
  | text chars =>
    obtain ⟨_, _, inside, _⟩ := stands
    apply ofPlain
    rintro c hc rfl
    exact inside '[' hc (.inr (.inl rfl))
  | subscript body node =>
    obtain ⟨balanced, _⟩ := stands
    have regrouped : (Token.subscript body node).spelling ++ after =
        '[' :: (body ++ ']' :: after) := by
      simp [Token.spelling]
    rw [regrouped] at h
    obtain ⟨body', rest, found, shielded⟩ := h.closed
    rw [Closing.find_eq_closed_iff.2 ⟨balanced, rfl⟩] at found
    cases found
    exact ⟨.group balanced .nil, shielded⟩
  | _ => exact ofPlain (by simp [Token.spelling])

theorem of_cut {ts : List Token} {s rest : List Char} (cut : Scan.Cut ts s rest) (h : Shielded s) :
    Balanced (ts.flatMap Token.spelling) ∧ Shielded rest := by
  induction cut with
  | nil => exact ⟨.nil, h⟩
  | cons _ stands _ ih =>
    obtain ⟨token, after⟩ := h.of_token stands
    obtain ⟨tokens, rest⟩ := ih after
    exact ⟨token.append tokens, rest⟩

/-- Wherever the scan of a shielded text has come to, it has taken whole groups only. -/
theorem of_pathCut {ts : List Token} {s rest : List Char} (cut : Scan.PathCut ts s rest)
    (h : Shielded s) : Balanced (ts.flatMap Token.spelling) ∧ Shielded rest := by
  cases cut with
  | @rooted ts s _ stands others =>
    obtain ⟨token, after⟩ := h.of_token (t := .root) stands
    obtain ⟨tokens, rest⟩ := after.of_cut others
    exact ⟨token.append tokens, rest⟩
  | plain _ cut => exact h.of_cut cut

/-- What halts the scan there is no bracket and no quote that has lost its partner. -/
theorem of_halt {c : Char} {rest : List Char} {last : List Token} {e : PathError}
    (h : Shielded (c :: rest)) (halted : Token.find c rest = .halt last e) :
    e.IsFatal ∨ ∃ n, e = .incompletePath n := by
  unfold Token.find at halted
  split at halted
  · unfold Token.findDots at halted
    split at halted <;> cases halted
    · exact .inr ⟨0, rfl⟩
    · exact .inl trivial
  · split at halted
    · rename_i bracket
      subst bracket
      obtain ⟨body, after, found, _⟩ := h.closed
      simp only [Token.findSubscript, found] at halted
      split at halted
      · cases halted
      · rename_i failed
        cases halted
        exact .inl (Subscript.isFatal_of_node failed)
    · split at halted
      · cases halted
      · split at halted <;> cases halted

theorem of_error {t : String} {e : PathError} (h : Shielded t.toList)
    (failed : normalize t = .error e) :
    (∀ n, e ≠ .unmatchedBracket n) ∧ ∀ q n, e ≠ .unmatchedQuote q n := by
  obtain ⟨ts, c, after, last, e', cut, halted, rfl⟩ :=
    Scan.exists_halt (normalize_eq_error_iff.1 failed)
  rcases (h.of_pathCut cut).2.of_halt halted with fatal | ⟨n, rfl⟩
  · constructor
    · rintro n same
      rw [← PathError.isFatal_shift, same] at fatal
      exact fatal
    · rintro q n same
      rw [← PathError.isFatal_shift, same] at fatal
      exact fatal
  · exact ⟨fun n wrong => (nomatch wrong), fun q n wrong => (nomatch wrong)⟩

end Shielded

/-- A subpath of a path stands between two brackets to which the scan of the path comes. -/
theorem exists_place_of_subpath {p t : String} {path : Path} (h : normalize p = .ok path)
    (mem : .subpath t ∈ path) :
    ∃ us back, Scan.PathCut us p.toList ('[' :: (t.toList ++ ']' :: back)) ∧ Balanced t.toList := by
  obtain ⟨ts, cut, rfl⟩ := normalize_eq_ok_iff.1 h
  obtain ⟨token, inside, node⟩ := List.mem_filterMap.1 mem
  have notRoot : token ≠ .root := by
    rintro rfl
    cases node
  obtain ⟨us, back, place, stands⟩ := cut.exists_place inside notRoot
  obtain ⟨body, rfl, balanced, rfl⟩ := Token.subscript_of_subpath stands node
  rw [String.toList_ofList]
  refine ⟨us, back, ?_, balanced⟩
  simpa [Token.spelling] using place

/-- **Both scans of a subpath pair its brackets alike.** Take a subpath whose quotes all stand
inside brackets, wherever a path has it. Wherever the second scan comes to a bracket, it finds one
that closes it; the search of the first scan came to the same place with no bracket of the subpath
open, and it paired the two brackets and no others. So expanding the subpath fails neither for a
bracket nor for a quote. -/
theorem rescan_pairs_brackets_alike (p t : String) (path : Path)
    (normalized : normalize p = .ok path) (mem : .subpath t ∈ path) (shielded : Shielded t.toList) :
    (∀ e, normalize t = .error e →
      (∀ n, e ≠ .unmatchedBracket n) ∧ ∀ q n, e ≠ .unmatchedQuote q n) ∧
    (∃ us back, Scan.PathCut us p.toList ('[' :: (t.toList ++ ']' :: back))) ∧
    ∀ us back, Scan.PathCut us p.toList ('[' :: (t.toList ++ ']' :: back)) →
      Closing.find 0 (t.toList ++ ']' :: back) = .closed t.toList back ∧
      ∀ ts s, Scan.PathCut ts t.toList ('[' :: s) → ∃ body rest passed,
        Closing.find 0 s = .closed body rest ∧
        passed.flatMap Atom.spelling = ts.flatMap Token.spelling ∧
        Closing.Passes passed 0 (t.toList ++ ']' :: back) 0 ('[' :: (s ++ ']' :: back)) ∧
        ∀ body' rest', Closing.Pairs 0 (s ++ ']' :: back) body' rest' ↔
          body' = body ∧ rest' = rest ++ ']' :: back := by
  refine ⟨fun e => shielded.of_error, ?_, ?_⟩
  · obtain ⟨us, back, place, _⟩ := exists_place_of_subpath normalized mem
    exact ⟨us, back, place⟩
  · intro us back _
    refine ⟨Closing.find_eq_closed_iff.2 ⟨shielded.balanced, rfl⟩, ?_⟩
    intro ts s cut
    obtain ⟨before, here⟩ := shielded.of_pathCut cut
    obtain ⟨body, rest, found, _⟩ := here.closed
    obtain ⟨balanced, rfl⟩ := Closing.find_eq_closed_iff.1 found
    obtain ⟨passed, run⟩ := Closing.Passes.of_balanced before 0
      ('[' :: (body ++ ']' :: rest ++ ']' :: back))
    have whole : ts.flatMap Token.spelling ++ '[' :: (body ++ ']' :: rest ++ ']' :: back) =
        t.toList ++ ']' :: back := by
      rw [cut.spelling]
      simp
    have spelled := List.append_cancel_right run.find_eq.1
    rw [whole] at run
    refine ⟨body, rest, passed, found, spelled.symm, run, ?_⟩
    have outer : Closing.find 0 (body ++ ']' :: rest ++ ']' :: back) =
        .closed body (rest ++ ']' :: back) :=
      Closing.find_eq_closed_iff.2 ⟨balanced, by simp⟩
    intro body' rest'
    rw [Closing.pairs_iff, outer]
    simp [eq_comm]

/-- The bracket between the quotes belongs to a name in both scans. -/
theorem rescan_pairs_brackets_alike_quoted :
    normalize "$.x[$.a['b]'][0]]" = .ok [.root, .child (.name "x"), .subpath "$.a['b]'][0]"] ∧
    Shielded "$.a['b]'][0]".toList ∧
    ∃ back, Closing.Pairs 0 ("'b]'][0]".toList ++ ']' :: back) "'b]'".toList
      ("[0]".toList ++ ']' :: back) := by
  have normalized : normalize "$.x[$.a['b]'][0]]" =
      .ok [.root, .child (.name "x"), .subpath "$.a['b]'][0]"] := by decide +kernel
  have quoted : Balanced "'b]'".toList := .of_literal (Literal.wellFormed_ofText .single ['b', ']'])
  have index : Balanced ['0'] := .plain (by decide) .nil
  have shielded : Shielded "$.a['b]'][0]".toList :=
    .plain (by decide) <| .plain (by decide) <| .plain (by decide) <| .group quoted <|
      .group index .nil
  have name : (Token.text ['a']).Stands "['b]'][0]".toList :=
    ⟨by simp, by decide, List.forall_mem_singleton.2 (by decide),
      fun c first => by cases first; decide⟩
  have cut : Scan.PathCut [.root, .dot, .text ['a']] "$.a['b]'][0]".toList
      ('[' :: "'b]'][0]".toList) :=
    .rooted (fun c first => by cases first; rfl)
      (.cons (t := .dot) (by simp) ⟨'a', rfl, by decide⟩ (.cons (by simp) name .nil))
  obtain ⟨_, ⟨us, back, place⟩, each⟩ :=
    rescan_pairs_brackets_alike "$.x[$.a['b]'][0]]" "$.a['b]'][0]" _ normalized (by simp) shielded
  obtain ⟨body, rest, passed, found, _, _, pairs⟩ := (each us back place).2 _ _ cut
  have first : Closing.find 0 "'b]'][0]".toList = .closed "'b]'".toList "[0]".toList :=
    Closing.find_eq_closed_iff.2 ⟨quoted, rfl⟩
  rw [first] at found
  cases found
  exact ⟨normalized, shielded, back, (pairs _ _).2 ⟨rfl, rfl⟩⟩

end JsonPath
