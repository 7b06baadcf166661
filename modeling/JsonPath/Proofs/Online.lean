import JsonPath.Proofs.Account
import JsonPath.Proofs.Finality

/-!
Scans of growing texts. A node is emitted as soon as no text behind it can change it, and plain text
at the very end is all that can still change. Main statement: what a path emits before its end is
emitted first by every longer path.
-/

namespace JsonPath

namespace Scan

theorem Cut.of_concat {ts : List Token} {t : Token} {s : List Char} (h : Cut (ts ++ [t]) s []) :
    t ≠ .root ∧ t.Stands [] ∧ Cut ts s t.spelling := by
  obtain ⟨middle, front, back⟩ := h.of_append
  cases back with
  | @cons _ _ after _ notRoot stands others =>
    cases others
    rw [List.append_nil] at front
    exact ⟨notRoot, stands, front⟩

/-- A path that is read to its end has a last token, and up to that it is cut as before. -/
theorem exists_last {ts : List Token} {s : List Char} (h : PathCut ts s []) (nonempty : s ≠ [])
    (notRoot : s ≠ ['$']) :
    ∃ front t, ts = front ++ [t] ∧ t ≠ .root ∧ t.Stands [] ∧ PathCut front s t.spelling := by
  cases h with
  | @rooted ts s _ stands others =>
    rcases List.eq_nil_or_concat ts with rfl | ⟨front, t, rfl⟩
    · cases others
      exact absurd rfl notRoot
    · rw [List.concat_eq_append] at others ⊢
      obtain ⟨other, ends, cut⟩ := others.of_concat
      exact ⟨.root :: front, t, rfl, other, ends, .rooted stands cut⟩
  | plain notRooted others =>
    rcases List.eq_nil_or_concat ts with rfl | ⟨front, t, rfl⟩
    · cases others
      exact absurd rfl nonempty
    · rw [List.concat_eq_append] at others ⊢
      obtain ⟨other, ends, cut⟩ := others.of_concat
      exact ⟨front, t, rfl, other, ends, .plain notRooted cut⟩

theorem tokens_of_stands {t : Token} {q : List Char} (notRoot : t ≠ .root) (stands : t.Stands q) :
    (ofText (t.spelling ++ q)).tokens = t :: (ofText q).tokens := by
  obtain ⟨c, rest, same, found⟩ := Token.find_of_stands notRoot stands
  rw [same, ofText_cons found]
  rfl

theorem tokens_of_dots (more : List Char) :
    (ofText ('.' :: '.' :: '.' :: more)).tokens = [.descent] := by
  have halted : Token.find '.' ('.' :: '.' :: more) = .halt [.descent] (.tripleDot 2) := rfl
  rw [ofText_halt halted]

/-- A token that ends the text is found at the same place of every longer text, unless it is plain
text. Two dots are, even if a third one follows. -/
theorem exists_tokens_of_last {t : Token} (notRoot : t ≠ .root) (ends : t.Stands [])
    (notText : ∀ chars, t ≠ .text chars) (q : List Char) :
    ∃ more, (ofText (t.spelling ++ q)).tokens = t :: more := by
  cases t with
  | root => exact absurd rfl notRoot
  | text chars => exact absurd rfl (notText chars)
  | dot =>
    obtain ⟨c, first, _⟩ := ends
    cases first
  | descent =>
    by_cases third : q.head? = some '.'
    · obtain ⟨more, rfl⟩ := List.head?_eq_some_iff.1 third
      exact ⟨[], tokens_of_dots more⟩
    · exact ⟨_, tokens_of_stands notRoot third⟩
  | wildcard => exact ⟨_, tokens_of_stands notRoot trivial⟩
  | parent => exact ⟨_, tokens_of_stands notRoot trivial⟩
  | subscript body node => exact ⟨_, tokens_of_stands (q := q) notRoot ends⟩

/-- Where reading of a path ends: the tokens in front have text behind them, and what is left
is one of three. Nothing is known of it, or it is plain text, or it is a token that every
longer text has there too. -/
theorem exists_open {s : List Char} (nonempty : s ≠ []) (notRoot : s ≠ ['$']) :
    ∃ ts rest last, PathCut ts s rest ∧ rest ≠ [] ∧ (ofPath s).tokens = ts ++ last ∧
      (last = [] ∨ last = [.text rest] ∨ ∃ t, last = [t] ∧ (∀ start, Token.mark start t = start) ∧
        ∀ q, ∃ more, (ofText (rest ++ q)).tokens = t :: more) := by
  obtain ⟨ts, rest, last, cut, tokens, ends⟩ := exists_tokens s
  by_cases whole : rest = []
  · subst whole
    obtain rfl | ⟨_, more, wrong⟩ := ends
    · obtain ⟨front, t, rfl, other, ends, cut⟩ := exists_last cut nonempty notRoot
      rw [List.append_nil] at tokens
      refine ⟨front, t.spelling, [t], cut, Token.spelling_ne_nil ends, tokens, .inr ?_⟩
      -- Plain text may go on in a longer path. Every other token has told where it ends.
      cases t with
      | text chars => exact .inl rfl
      | _ => exact .inr ⟨_, rfl, fun _ => rfl, exists_tokens_of_last other ends (by simp)⟩
    · cases wrong
  · refine ⟨ts, rest, last, cut, whole, tokens, ?_⟩
    obtain rfl | ⟨rfl, more, rfl⟩ := ends
    · exact .inl rfl
    · exact .inr (.inr ⟨.descent, rfl, fun _ => rfl, fun q => ⟨[], tokens_of_dots (more ++ q)⟩⟩)

theorem emissionsFrom_prefix (start : Nat) {ts us : List Token} (h : ts <+: us) :
    emissionsFrom start ts <+: emissionsFrom start us := by
  obtain ⟨more, rfl⟩ := h
  rw [emissionsFrom_append]
  exact List.prefix_append ..

theorem offset_of_singleton {start : Nat} {t : Token} {e : Emission}
    (h : e ∈ emissionsFrom start [t]) : e.offset = t.mark start := by
  rw [emissionsFrom] at h
  split at h
  · rw [List.mem_singleton.1 h]
  · cases h

/-- What a scan emits in front of an offset. -/
def emittedBefore (scan : Scan) (offset : Nat) : List Emission :=
  scan.emissions.filter fun e => e.offset < offset

theorem emittedBefore_of_split {scan : Scan} {n : Nat} {es last : List Emission}
    (emitted : scan.emissions = es ++ last) (early : ∀ e ∈ es, e.offset < n)
    (late : ∀ e ∈ last, e.offset = n) : scan.emittedBefore n = es := by
  have kept : es.filter (fun e => e.offset < n) = es := List.filter_eq_self.2 (by simpa using early)
  have dropped : last.filter (fun e => e.offset < n) = [] := by
    rw [List.filter_eq_nil_iff]
    intro e inside
    simp [late e inside]
  rw [emittedBefore, emitted, List.filter_append, kept, dropped, List.append_nil]

/-- **What is emitted before the end is settled.** Only plain text at the very end is emitted there.
-/
theorem exists_settled {s : List Char} (notRoot : s ≠ ['$']) (q : List Char) :
    ∃ settled last, (ofPath s).emissions = settled ++ last ∧
      (∀ e ∈ settled, e.offset < Text.size s) ∧ (∀ e ∈ last, e.offset = Text.size s) ∧
      settled <+: (ofPath (s ++ q)).emissions := by
  by_cases nonempty : s = []
  · subst nonempty
    refine ⟨[], [], ?_, by simp, by simp, List.nil_prefix⟩
    rw [ofPath_of_whole (.plain (by simp) .nil)]
    rfl
  obtain ⟨ts, rest, last, cut, open', tokens, ends⟩ := exists_open nonempty notRoot
  have longer : PathCut ts (s ++ q) (rest ++ q) :=
    pathCut_append cut (fun wrong => absurd wrong open') fun wrong => absurd wrong nonempty
  have size : Text.size s = Text.size (ts.flatMap Token.spelling) + Text.size rest := by
    rw [← Text.size_append, ← cut.spelling]
  have positive := Text.size_pos open'
  have front : ∀ e ∈ emissionsFrom 0 ts, e.offset < Text.size s := by
    intro e inside
    have bound := (offset_bounds inside).2
    omega
  have tokensLonger : (ofPath (s ++ q)).tokens = ts ++ (ofText (rest ++ q)).tokens := by
    rw [ofPath_of_cut longer, prepend_tokens]
  simp only [emissions, tokens, tokensLonger]
  obtain rfl | rfl | ⟨t, rfl, mark, again⟩ := ends
  · refine ⟨emissionsFrom 0 ts, [], by simp, front, by simp, ?_⟩
    exact emissionsFrom_prefix 0 (List.prefix_append ..)
  · refine ⟨emissionsFrom 0 ts, _, emissionsFrom_append .., front, ?_, ?_⟩
    · intro e inside
      rw [offset_of_singleton inside, size, Nat.zero_add]
      rfl
    · exact emissionsFrom_prefix 0 (List.prefix_append ..)
  · obtain ⟨more, found⟩ := again q
    refine ⟨emissionsFrom 0 (ts ++ [t]), [], by simp, ?_, by simp, ?_⟩
    · intro e inside
      rw [emissionsFrom_append] at inside
      rcases List.mem_append.1 inside with inside | inside
      · exact front e inside
      · rw [offset_of_singleton inside, mark, size]
        omega
    · rw [found]
      exact emissionsFrom_prefix 0 ⟨more, by simp⟩

end Scan

/-- **Emitted nodes stay.** Of what a path emits, all that it emits before its end is what every
longer path emits first, with the same offsets, whether or not either can be normalized. A lone `$`
is the root of nothing longer, unless a dot follows. -/
theorem emissions_online (p q : String) (notRoot : p ≠ "$") :
    (Scan.ofPath p.toList).emittedBefore p.utf8ByteSize <+:
        (Scan.ofPath (p ++ q).toList).emissions ∧
      ((Scan.ofPath p.toList).emittedBefore p.utf8ByteSize).map Log.emission <+:
        Log.traces (p ++ q) := by
  have notDollar : p.toList ≠ ['$'] := by
    intro same
    apply notRoot
    rw [← String.ofList_toList (s := p), same]
  obtain ⟨es, last, emitted, early, late, longer⟩ := Scan.exists_settled notDollar q.toList
  rw [Text.size_toList] at early late
  rw [Scan.emittedBefore_of_split emitted early late, Log.traces_eq, String.toList_append]
  exact ⟨longer, longer.map Log.emission⟩

theorem emissions_online_subscript :
    "é..b['" ≠ "$" ∧
      [⟨.child (.name "é"), 2⟩, ⟨.descent, 2⟩, ⟨.child (.name "b"), 5⟩] <+:
        (Scan.ofPath ("é..b['" ++ "c']").toList).emissions := by
  have notRoot : "é..b['" ≠ "$" := by decide
  have settled : (Scan.ofPath "é..b['".toList).emittedBefore "é..b['".utf8ByteSize =
      [⟨.child (.name "é"), 2⟩, ⟨.descent, 2⟩, ⟨.child (.name "b"), 5⟩] := by decide +kernel
  have kept := (emissions_online "é..b['" "c']" notRoot).1
  rw [settled] at kept
  exact ⟨notRoot, kept⟩

end JsonPath
