import JsonPath.Bracket
import JsonPath.Proofs.Literal

/-!
Nesting of brackets, told without a search. The search for a closing bracket finds exactly the one
before which the text is balanced, and a quote that stops it opens no literal.
-/

namespace JsonPath

/-- A character that neither opens nor closes anything. -/
def IsPlain (c : Char) : Prop := c ≠ '[' ∧ c ≠ ']' ∧ c ≠ '\'' ∧ c ≠ '"'

instance (c : Char) : Decidable (IsPlain c) :=
  inferInstanceAs (Decidable (c ≠ '[' ∧ c ≠ ']' ∧ c ≠ '\'' ∧ c ≠ '"'))

/-- Plain characters, whole literals, and balanced texts in brackets, one after another. -/
inductive Balanced : List Char → Prop
  | nil : Balanced []
  | plain {c : Char} {s : List Char} (neutral : IsPlain c) (after : Balanced s) : Balanced (c :: s)
  | literal {l : Literal} {s : List Char} (wellFormed : l.WellFormed) (after : Balanced s) :
      Balanced (l.spelling ++ s)
  | group {body s : List Char} (inside : Balanced body) (after : Balanced s) :
      Balanced ('[' :: (body ++ ']' :: s))

namespace Balanced

theorem append {s t : List Char} (hs : Balanced s) (ht : Balanced t) : Balanced (s ++ t) := by
  induction hs with
  | nil => exact ht
  | plain neutral _ ih => exact .plain neutral ih
  | literal wellFormed _ ih =>
    rw [List.append_assoc]
    exact .literal wellFormed ih
  | group inside _ _ ih =>
    rw [List.cons_append, List.append_assoc, List.cons_append]
    exact .group inside ih

theorem of_plain {s : List Char} (h : ∀ c ∈ s, IsPlain c) : Balanced s := by
  induction s with
  | nil => exact .nil
  | cons c s ih =>
    obtain ⟨neutral, others⟩ := List.forall_mem_cons.1 h
    exact .plain neutral (ih others)

theorem of_literal {l : Literal} (h : l.WellFormed) : Balanced l.spelling := by
  simpa using literal h nil

theorem ne_quote {c : Char} (h : IsPlain c) (q : Quote) : c ≠ q.char := by
  obtain ⟨_, _, notSingle, notDouble⟩ := h
  cases q with
  | single => exact notSingle
  | double => exact notDouble

/-- A plain character in front is a character on its own: literals begin with a quote and
groups with a bracket. -/
theorem of_cons {c : Char} {s : List Char} (neutral : IsPlain c) (h : Balanced (c :: s)) :
    Balanced s := by
  generalize whole : c :: s = t at h
  cases h with
  | nil => cases whole
  | plain _ after =>
    cases whole
    exact after
  | literal _ _ => exact absurd (List.cons.inj whole).1 (ne_quote neutral _)
  | group _ _ => exact absurd (List.cons.inj whole).1 neutral.1

theorem last_of_append {s front back : List Char} {c d : Char} (differ : c ≠ d)
    (h : s ++ [c] = front ++ d :: back) : ∃ t, s = front ++ d :: t ∧ back = t ++ [c] := by
  obtain ⟨t, rfl, tail⟩ | ⟨t, rfl, tail⟩ := List.append_eq_append_iff.1 h
  · cases t with
    | nil => exact absurd (List.cons.inj tail).1 differ
    | cons => simp at tail
  · cases t with
    | nil => exact absurd (List.cons.inj tail).1.symm differ
    | cons e t =>
      obtain ⟨rfl, rfl⟩ := List.cons.inj tail
      exact ⟨t, rfl, rfl⟩

/-- So is one at the end: literals end in a quote and groups in a bracket. -/
theorem of_concat {c : Char} {s : List Char} (neutral : IsPlain c) (h : Balanced (s ++ [c])) :
    Balanced s := by
  generalize whole : s ++ [c] = t at h
  induction h generalizing s with
  | nil => simp at whole
  | @plain d t other after ih =>
    cases s with
    | nil => exact .nil
    | cons e s =>
      obtain ⟨rfl, rest⟩ := List.cons.inj whole
      exact .plain other (ih rest)
  | @literal l t wellFormed after ih =>
    have shape : l.spelling ++ t =
        (l.quote.char :: l.pieces.flatMap Piece.spelling) ++ l.quote.char :: t := by
      simp [Literal.spelling]
    rw [shape] at whole
    obtain ⟨t, rfl, rest⟩ := last_of_append (ne_quote neutral _) whole
    have regrouped := Balanced.literal wellFormed (ih rest.symm)
    simpa [Literal.spelling] using regrouped
  | @group body t inside after _ ih =>
    rw [← List.cons_append] at whole
    obtain ⟨t, rfl, rest⟩ := last_of_append neutral.2.1 whole
    exact .group inside (ih rest.symm)

end Balanced

namespace Closing

@[simp] theorem prepend_nil (c : Closing) : c.prepend [] = c := by
  cases c <;> rfl

@[simp] theorem prepend_prepend (a b : List Char) (c : Closing) :
    (c.prepend a).prepend b = c.prepend (b ++ a) := by
  cases c <;> simp [prepend]

theorem find_open (inner : Nat) (s : List Char) :
    find inner ('[' :: s) = (find (inner + 1) s).prepend ['['] := by
  rw [find.eq_def]
  rfl

theorem find_close (inner : Nat) (s : List Char) :
    find (inner + 1) (']' :: s) = (find inner s).prepend [']'] := by
  rw [find]
  rfl

theorem find_last (s : List Char) : find 0 (']' :: s) = closed [] s := by
  rw [find]
  rfl

theorem ofChar?_of_isPlain {c : Char} (h : IsPlain c) : Quote.ofChar? c = none := by
  simp [Quote.ofChar?, h.2.2.1, h.2.2.2]

theorem find_plain {c : Char} (h : IsPlain c) (inner : Nat) (s : List Char) :
    find inner (c :: s) = (find inner s).prepend [c] := by
  rw [find.eq_def]
  dsimp only
  rw [if_neg h.1, if_neg h.2.1]
  split
  · rfl
  · rename_i q isQuote
    rw [ofChar?_of_isPlain h] at isQuote
    cases isQuote

/-- At a quote the search goes on behind the literal, if one opens there. -/
theorem find_quote (q : Quote) (inner : Nat) (s : List Char) :
    find inner (q.char :: s) =
      match Literal.read? (q.char :: s) with
      | none => brokenLiteral q []
      | some (l, after) => (find inner after).prepend l.spelling := by
  have notOpen : q.char ≠ '[' := by cases q <;> decide
  have notClose : q.char ≠ ']' := by cases q <;> decide
  rw [find.eq_def]
  dsimp only
  rw [if_neg notOpen, if_neg notClose]
  split
  · rename_i isPlain
    rw [Quote.ofChar?_eq_some_iff.2 rfl] at isPlain
    cases isPlain
  · rename_i q' same
    rw [Quote.ofChar?_eq_some_iff.2 rfl] at same
    cases same
    split <;> rename_i read <;> rw [read]

theorem find_literal {l : Literal} (h : l.WellFormed) (inner : Nat) (s : List Char) :
    find inner (l.spelling ++ s) = (find inner s).prepend l.spelling := by
  have read := Literal.read?_spelling h s
  simp only [Literal.spelling, List.cons_append] at read ⊢
  rw [find_quote, read]
  rfl

/-- Balanced text is passed over at any depth. -/
theorem find_append {s : List Char} (h : Balanced s) (inner : Nat) (rest : List Char) :
    find inner (s ++ rest) = (find inner rest).prepend s := by
  induction h generalizing inner rest with
  | nil => exact (prepend_nil _).symm
  | plain neutral _ ih =>
    rw [List.cons_append, find_plain neutral, ih, prepend_prepend]
    rfl
  | literal wellFormed _ ih =>
    rw [List.append_assoc, find_literal wellFormed, ih, prepend_prepend]
  | @group body s _ _ ihBody ih =>
    rw [List.cons_append, List.append_assoc, List.cons_append, find_open, ihBody, find_close, ih]
    simp

/-- A balanced text with `n` more closing brackets in it. -/
inductive Unwinds : Nat → List Char → Prop
  | level {s : List Char} (balanced : Balanced s) : Unwinds 0 s
  | close {n : Nat} {s t : List Char} (balanced : Balanced s) (after : Unwinds n t) :
      Unwinds (n + 1) (s ++ ']' :: t)

theorem Unwinds.prepend {n : Nat} {s t : List Char} (hs : Balanced s) (ht : Unwinds n t) :
    Unwinds n (s ++ t) := by
  cases ht with
  | level balanced => exact .level (hs.append balanced)
  | close balanced after =>
    rw [← List.append_assoc]
    exact .close (hs.append balanced) after

/-- What the search passes over closes every inner bracket and opens none that stays open. -/
theorem unwinds_of_find {inner : Nat} {s body rest : List Char}
    (h : find inner s = closed body rest) : Unwinds inner body := by
  fun_induction find inner s generalizing body rest with
  | case1 => cases h
  | case2 inner s ih =>
    obtain ⟨tail, found, rfl⟩ := prepend_eq_closed h
    cases ih found with
    | close balanced after =>
      have grouped := Unwinds.prepend (.group balanced .nil) after
      simpa using grouped
  | case3 =>
    cases h
    exact .level .nil
  | case4 s inner _ ih =>
    obtain ⟨tail, found, rfl⟩ := prepend_eq_closed h
    exact .close .nil (ih found)
  | case5 inner c s notOpen notClose notQuote ih =>
    obtain ⟨tail, found, rfl⟩ := prepend_eq_closed h
    have neutral : IsPlain c := by
      refine ⟨notOpen, notClose, ?_, ?_⟩ <;> rintro rfl <;> cases notQuote
    exact Unwinds.prepend (.plain neutral .nil) (ih found)
  | case6 => cases h
  | case7 inner c s notOpen notClose q isQuote l after read ih =>
    obtain ⟨tail, found, rfl⟩ := prepend_eq_closed h
    exact Unwinds.prepend (.of_literal (Literal.of_read? read).2) (ih found)

/-- **The closing bracket is the one that balances.** There is at most one. -/
theorem find_eq_closed_iff {s body rest : List Char} :
    find 0 s = closed body rest ↔ Balanced body ∧ s = body ++ ']' :: rest := by
  constructor
  · intro h
    cases unwinds_of_find h with
    | level balanced => exact ⟨balanced, append_of_find h⟩
  · rintro ⟨balanced, rfl⟩
    rw [find_append balanced, find_last]
    simp [prepend]

theorem not_balanced_of_unclosed {s body rest : List Char} (h : find 0 s = unclosed)
    (whole : s = body ++ ']' :: rest) : ¬ Balanced body := by
  intro balanced
  rw [find_eq_closed_iff.2 ⟨balanced, whole⟩] at h
  cases h

theorem prepend_eq_brokenLiteral {front before : List Char} {q : Quote} {c : Closing}
    (h : c.prepend front = brokenLiteral q before) :
    ∃ tail, c = brokenLiteral q tail ∧ before = front ++ tail := by
  cases c with
  | closed => cases h
  | unclosed => cases h
  | brokenLiteral q tail =>
    cases h
    exact ⟨tail, rfl, rfl⟩

/-- The quote that stops the search stands in the text and opens no literal. -/
theorem of_brokenLiteral {inner : Nat} {s before : List Char} {q : Quote}
    (h : find inner s = brokenLiteral q before) :
    ∃ after, s = before ++ q.char :: after ∧ Literal.read? (q.char :: after) = none := by
  fun_induction find inner s generalizing before with
  | case1 => cases h
  | case2 inner s ih =>
    obtain ⟨tail, found, rfl⟩ := prepend_eq_brokenLiteral h
    obtain ⟨after, rfl, unread⟩ := ih found
    exact ⟨after, rfl, unread⟩
  | case3 => cases h
  | case4 s inner _ ih =>
    obtain ⟨tail, found, rfl⟩ := prepend_eq_brokenLiteral h
    obtain ⟨after, rfl, unread⟩ := ih found
    exact ⟨after, rfl, unread⟩
  | case5 inner c s _ _ _ ih =>
    obtain ⟨tail, found, rfl⟩ := prepend_eq_brokenLiteral h
    obtain ⟨after, rfl, unread⟩ := ih found
    exact ⟨after, rfl, unread⟩
  | case6 inner c s _ _ q' isQuote unread =>
    cases h
    rw [Quote.ofChar?_eq_some_iff] at isQuote
    subst c
    exact ⟨s, rfl, unread⟩
  | case7 inner c s _ _ q' _ l after read ih =>
    obtain ⟨tail, found, rfl⟩ := prepend_eq_brokenLiteral h
    obtain ⟨rest, rfl, unread⟩ := ih found
    refine ⟨rest, ?_, unread⟩
    rw [(Literal.of_read? read).1, List.append_assoc]

end Closing

end JsonPath
