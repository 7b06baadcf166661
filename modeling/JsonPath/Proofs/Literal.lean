import JsonPath.Literal

/-!
Literals and their spelling. Reading a literal and spelling it undo each other, and every text is
what some literal says, whichever quote delimits it.
-/

namespace JsonPath

namespace Piece

theorem not_escapable_u (q : Quote) : escapable q 'u' = false := by
  cases q <;> decide

/-- The piece for a character in a literal: the quote and the backslash are escaped, all
else stands for itself. -/
def ofChar (q : Quote) (c : Char) : Piece :=
  if c = q.char ∨ c = '\\' then .escape c else .plain c

theorem fits_ofChar (q : Quote) (c : Char) : (ofChar q c).Fits q := by
  unfold ofChar
  split
  · rename_i special
    rcases special with rfl | rfl
    · simp [Fits, escapable]
    · simp [Fits, escapable]
  · rename_i plain
    exact not_or.1 plain

/-- None of the letters that name another character is escaped here. -/
theorem text_ofChar (q : Quote) (s : List Char) : text (s.map (ofChar q)) = s := by
  induction s with
  | nil => rfl
  | cons c s ih =>
    rw [List.map_cons]
    by_cases special : c = q.char ∨ c = '\\'
    · have itself : unescape c = c := by
        rcases special with rfl | rfl
        · cases q <;> rfl
        · rfl
      rw [ofChar, if_pos special, text, itself, ih]
    · rw [ofChar, if_neg special, text, ih]

end Piece

namespace Literal

theorem readPieces?_close (q : Quote) (after : List Char) :
    readPieces? q (q.char :: after) = some ([], after) := by
  cases q <;> simp [readPieces?, Quote.char]

theorem readPieces?_plain {q : Quote} {c : Char} (notQuote : c ≠ q.char) (notBackslash : c ≠ '\\')
    (rest : List Char) :
    readPieces? q (c :: rest) = (readPieces? q rest).map fun (ps, after) =>
      (.plain c :: ps, after) := by
  simp [readPieces?, notQuote, notBackslash]

theorem readPieces?_escape {q : Quote} {letter : Char} (ok : Piece.escapable q letter = true)
    (rest : List Char) :
    readPieces? q ('\\' :: letter :: rest) =
      (readPieces? q rest).map fun (ps, after) => (.escape letter :: ps, after) := by
  have notUnit : letter ≠ 'u' := by
    rintro rfl
    rw [Piece.not_escapable_u] at ok
    cases ok
  simp [readPieces?, notUnit, ok]

theorem readPieces?_unit {q : Quote} {a b c d : Char} (digits : [a, b, c, d].all Hex.isDigit = true)
    (rest : List Char) :
    readPieces? q ('\\' :: 'u' :: a :: b :: c :: d :: rest) =
      (readPieces? q rest).map fun (ps, after) => (.unit a b c d :: ps, after) := by
  rw [readPieces?, if_pos digits]

/-- Pieces that fit a quote are read back up to that quote, whatever follows it. -/
theorem readPieces?_spelling {q : Quote} {ps : List Piece} (fits : ∀ p ∈ ps, p.Fits q)
    (after : List Char) :
    readPieces? q (ps.flatMap Piece.spelling ++ q.char :: after) = some (ps, after) := by
  induction ps with
  | nil => exact readPieces?_close q after
  | cons p ps ih =>
    obtain ⟨fit, others⟩ := List.forall_mem_cons.1 fits
    cases p with
    | plain c =>
      simp only [List.flatMap_cons, Piece.spelling, List.cons_append, List.nil_append]
      rw [readPieces?_plain fit.1 fit.2, ih others]
      rfl
    | escape letter =>
      simp only [List.flatMap_cons, Piece.spelling, List.cons_append, List.nil_append]
      rw [readPieces?_escape fit, ih others]
      rfl
    | unit a b c d =>
      simp only [List.flatMap_cons, Piece.spelling, List.cons_append, List.nil_append]
      rw [readPieces?_unit fit, ih others]
      rfl

theorem read?_spelling {l : Literal} (h : l.WellFormed) (after : List Char) :
    read? (l.spelling ++ after) = some (l, after) := by
  have opened : Quote.ofChar? l.quote.char = some l.quote := Quote.ofChar?_eq_some_iff.2 rfl
  simp only [spelling, List.cons_append, List.append_assoc, List.nil_append, read?, opened,
    Option.bind_some, readPieces?_spelling h, Option.map_some]

theorem read?_eq_none_iff {s : List Char} :
    read? s = none ↔ ∀ l after, Literal.WellFormed l → s ≠ l.spelling ++ after := by
  constructor
  · rintro h l after wellFormed rfl
    rw [read?_spelling wellFormed] at h
    cases h
  · intro h
    cases found : read? s with
    | none => rfl
    | some read =>
      obtain ⟨same, wellFormed⟩ := of_read? found
      exact absurd same (h read.1 read.2 wellFormed)

/-- The literal that says a given text. -/
def ofText (q : Quote) (s : List Char) : Literal := ⟨q, s.map (Piece.ofChar q)⟩

theorem wellFormed_ofText (q : Quote) (s : List Char) : (ofText q s).WellFormed := by
  intro p hp
  obtain ⟨c, _, rfl⟩ := List.mem_map.1 hp
  exact Piece.fits_ofChar q c

theorem text_ofText (q : Quote) (s : List Char) : (ofText q s).text = s :=
  Piece.text_ofChar q s

end Literal

end JsonPath
