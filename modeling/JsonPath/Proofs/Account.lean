import JsonPath.Log
import JsonPath.Proofs.Concatenation
import Mathlib.Data.List.Forall2

/-!
What the log tells of a scan. Tokens are laid end to end over the path, so each emission has a place
there, before its token or, for plain text, behind it. Main statement: the log lists the nodes of
the path in order, each with an offset at which the path spells it, and ends with the outcome.
-/

namespace JsonPath

namespace Text

theorem size_pos {s : List Char} (h : s ≠ []) : 0 < size s := by
  obtain ⟨c, s, rfl⟩ := List.exists_cons_of_ne_nil h
  have first := c.utf8Size_pos
  rw [size_cons]
  omega

end Text

namespace Token

/-- A node becomes known where its token begins or where it ends. -/
theorem mark_eq (start : Nat) (t : Token) :
    t.mark start = start ∨ t.mark start = start + t.size := by
  cases t with
  | text chars => exact .inr rfl
  | _ => exact .inl rfl

theorem mark_bounds (start : Nat) (t : Token) :
    start ≤ t.mark start ∧ t.mark start ≤ start + t.size := by
  rcases t.mark_eq start with mark | mark <;> omega

/-- Only of three dots something is known that reading does not go on behind. -/
theorem last_of_halt {c : Char} {rest : List Char} {last : List Token} {e : PathError}
    (h : find c rest = .halt last e) :
    last = [] ∨ last = [descent] ∧ ∃ more, c :: rest = '.' :: '.' :: '.' :: more := by
  unfold find findDots findSubscript at h
  repeat' split at h
  all_goals cases h
  · exact .inl rfl
  · rename_i dot _ more
    exact .inr ⟨rfl, more, by rw [dot]⟩
  · exact .inl rfl
  · exact .inl rfl
  · exact .inl rfl

end Token

namespace Scan

/-! ## Offsets -/

theorem emissionsFrom_append (start : Nat) (ts us : List Token) :
    emissionsFrom start (ts ++ us) =
      emissionsFrom start ts ++
        emissionsFrom (start + Text.size (ts.flatMap Token.spelling)) us := by
  induction ts generalizing start with
  | nil => rfl
  | cons t ts ih =>
    have size : start + Text.size ((t :: ts).flatMap Token.spelling) =
        start + t.size + Text.size (ts.flatMap Token.spelling) := by
      rw [List.flatMap_cons, Text.size_append, Nat.add_assoc]
      rfl
    rw [List.cons_append, emissionsFrom, emissionsFrom, size]
    cases t.node? with
    | none => exact ih _
    | some node =>
      rw [ih]
      rfl

/-- Tokens emit nothing in front of them and nothing behind them. -/
theorem offset_bounds {start : Nat} {ts : List Token} {e : Emission}
    (h : e ∈ emissionsFrom start ts) :
    start ≤ e.offset ∧ e.offset ≤ start + Text.size (ts.flatMap Token.spelling) := by
  induction ts generalizing start with
  | nil => cases h
  | cons t ts ih =>
    rw [List.flatMap_cons, Text.size_append, ← Token.size]
    have later : e ∈ emissionsFrom (start + t.size) ts →
        start ≤ e.offset ∧ e.offset ≤ start + (t.size + Text.size (ts.flatMap Token.spelling)) := by
      intro inside
      have bounds := ih inside
      omega
    rw [emissionsFrom] at h
    split at h
    · rcases List.mem_cons.1 h with rfl | inside
      · have mark := t.mark_bounds start
        exact ⟨mark.1, Nat.le_trans mark.2 (by omega)⟩
      · exact later inside
    · exact later h

theorem Cut.size_pos {ts : List Token} {s rest : List Char} (h : Cut ts s rest) :
    ∀ t ∈ ts, 0 < t.size := by
  induction h with
  | nil => simp
  | cons _ stands _ ih =>
    exact List.forall_mem_cons.2 ⟨Text.size_pos (Token.spelling_ne_nil stands), ih⟩

theorem PathCut.size_pos {ts : List Token} {s rest : List Char} (h : PathCut ts s rest) :
    ∀ t ∈ ts, 0 < t.size := by
  cases h with
  | rooted stands others =>
    exact List.forall_mem_cons.2 ⟨Text.size_pos (Token.spelling_ne_nil stands), others.size_pos⟩
  | plain _ others => exact others.size_pos

/-- The tokens of a scan cut the path up to a rest. Where that begins with three dots, the first
two are still emitted. -/
theorem exists_tokens (s : List Char) :
    ∃ ts rest last, PathCut ts s rest ∧ (ofPath s).tokens = ts ++ last ∧
      (last = [] ∨ last = [.descent] ∧ ∃ more, rest = '.' :: '.' :: '.' :: more) := by
  obtain ⟨ts, rest, cut, rfl | ⟨c, after, last, e, rfl, halted⟩⟩ := exists_pathCut s
  · exact ⟨ts, [], [], cut, by rw [ofPath_of_whole cut, List.append_nil], .inl rfl⟩
  · refine ⟨ts, c :: after, last, cut, ?_, Token.last_of_halt halted⟩
    rw [ofPath_of_cut cut, ofText_halt halted, prepend_tokens]

end Scan

end JsonPath
