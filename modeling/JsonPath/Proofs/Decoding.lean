import JsonPath.Proofs.Grammar
import Mathlib.Data.List.Forall2

/-!
What quoted names say. A name is a sequence of symbols, and each symbol can be spelled in several
ways. Escapes of code units are read in pairs, so a symbol's meaning could only be disturbed by
the unit in front of it. Main statement: a name in brackets denotes the child of that name,
however its symbols are spelled.
-/

namespace JsonPath

namespace Utf16

/-- The code units of a character: two for those beyond the first 65536, one for the others. -/
def units (c : Char) : List Nat :=
  if c.toNat < 0x10000 then [c.toNat]
  else [0xD800 + (c.toNat - 0x10000) / 0x400, 0xDC00 + (c.toNat - 0x10000) % 0x400]

theorem not_surrogate (c : Char) : isHigh c.toNat = false ∧ isLow c.toNat = false := by
  have valid : c.toNat < 0xD800 ∨ 0xDFFF < c.toNat ∧ c.toNat < 0x110000 := c.valid
  simp only [isHigh, isLow, Bool.and_eq_false_iff, decide_eq_false_iff_not]
  omega

theorem lone_toNat (c : Char) : lone c.toNat = c := by
  obtain ⟨notHigh, notLow⟩ := not_surrogate c
  simp [lone, notHigh, notLow]

theorem lone_surrogate {u : Nat} (h : isHigh u = true ∨ isLow u = true) : lone u = replacement := by
  rw [lone, if_pos (Bool.or_eq_true_iff.2 h)]

theorem not_isLow_of_isHigh {u : Nat} (h : isHigh u = true) : isLow u = false := by
  simp only [isHigh, isLow, Bool.and_eq_true, decide_eq_true_eq, Bool.and_eq_false_iff,
    decide_eq_false_iff_not] at h ⊢
  omega

/-- The two units of a character are a high and a low one, and name it together. -/
theorem combine_units {c : Char} (large : ¬ c.toNat < 0x10000) :
    let high := 0xD800 + (c.toNat - 0x10000) / 0x400
    let low := 0xDC00 + (c.toNat - 0x10000) % 0x400
    isHigh high = true ∧ isLow low = true ∧ combine high low = c := by
  have valid : c.toNat < 0xD800 ∨ 0xDFFF < c.toNat ∧ c.toNat < 0x110000 := c.valid
  have whole : 0x10000 + (0xD800 + (c.toNat - 0x10000) / 0x400 - 0xD800) * 0x400 +
      (0xDC00 + (c.toNat - 0x10000) % 0x400 - 0xDC00) = c.toNat := by omega
  refine ⟨?_, ?_, ?_⟩
  · simp only [isHigh, Bool.and_eq_true, decide_eq_true_eq]
    omega
  · simp only [isLow, Bool.and_eq_true, decide_eq_true_eq]
    omega
  · rw [combine, whole, Char.ofNat_toNat]

end Utf16

namespace Piece

/-- The first piece is a low surrogate, which would complete a high one in front of it. -/
def OpensLow : List Piece → Prop
  | unit a b c d :: _ => Utf16.isLow (Hex.value [a, b, c, d]) = true
  | _ => False

/-- A unit stands alone unless it is high and a low one follows. -/
theorem text_unit {a b c d : Char} {rest : List Piece}
    (alone : Utf16.isHigh (Hex.value [a, b, c, d]) = true → ¬ OpensLow rest) :
    text (unit a b c d :: rest) = Utf16.lone (Hex.value [a, b, c, d]) :: text rest := by
  match rest with
  | [] => rfl
  | plain _ :: _ => rfl
  | escape _ :: _ => rfl
  | unit a' b' c' d' :: rest =>
    have notPair : ¬ (Utf16.isHigh (Hex.value [a, b, c, d]) &&
        Utf16.isLow (Hex.value [a', b', c', d'])) = true := by
      intro pair
      obtain ⟨high, low⟩ := Bool.and_eq_true_iff.1 pair
      exact alone high low
    rw [text, if_neg notPair]

theorem text_pair {a b c d a' b' c' d' : Char} (high : Utf16.isHigh (Hex.value [a, b, c, d]) = true)
    (low : Utf16.isLow (Hex.value [a', b', c', d']) = true) (rest : List Piece) :
    text (unit a b c d :: unit a' b' c' d' :: rest) =
      Utf16.combine (Hex.value [a, b, c, d]) (Hex.value [a', b', c', d']) :: text rest := by
  rw [text, if_pos (Bool.and_eq_true_iff.2 ⟨high, low⟩)]

end Piece

/-- What a name is made of. A surrogate without its partner is no character. -/
inductive Symbol
  | char (c : Char)
  | surrogate (unit : Nat)

namespace Symbol

/-- What the symbol contributes to a name. -/
def text : Symbol → Char
  | char c => c
  | surrogate _ => Utf16.replacement

def IsHigh : Symbol → Prop
  | char _ => False
  | surrogate u => Utf16.isHigh u = true

def IsLow : Symbol → Prop
  | char _ => False
  | surrogate u => Utf16.isLow u = true

/-- The characters that can be escaped by one letter, and the letter for each. -/
def letters (q : Quote) : List (Char × Char) :=
  [(q.char, q.char), ('\\', '\\'), ('/', '/'), ('\x08', 'b'), ('\x0c', 'f'), ('\n', 'n'),
    ('\r', 'r'), ('\t', 't')]

/-- Code units, each written with four hexadecimal digits of either case. -/
inductive Escaped : List Nat → List Char → Prop
  | nil : Escaped [] []
  | cons {a b c d : Char} {us : List Nat} {t : List Char}
      (digits : [a, b, c, d].all Hex.isDigit = true) (others : Escaped us t) :
      Escaped (Hex.value [a, b, c, d] :: us) ('\\' :: 'u' :: a :: b :: c :: d :: t)

/-- The spellings of a symbol between two quotes `q`. -/
inductive Spelled (q : Quote) : Symbol → List Char → Prop
  | raw {c : Char} (notQuote : c ≠ q.char) (notBackslash : c ≠ '\\') : Spelled q (char c) [c]
  | letter {c l : Char} (named : (c, l) ∈ letters q) : Spelled q (char c) ['\\', l]
  | units {c : Char} {t : List Char} (escaped : Escaped (Utf16.units c) t) : Spelled q (char c) t
  | surrogate {u : Nat} {t : List Char} (half : Utf16.isHigh u = true ∨ Utf16.isLow u = true)
      (escaped : Escaped [u] t) : Spelled q (surrogate u) t

theorem unescape_of_named {q : Quote} {c l : Char} (h : (c, l) ∈ letters q) :
    Piece.escapable q l = true ∧ Piece.unescape l = c := by
  have each : ∀ p ∈ letters q, Piece.escapable q p.2 = true ∧ Piece.unescape p.2 = p.1 := by
    cases q <;> decide
  exact each _ h

/-- The pieces that a spelling of a symbol is read as. They say the symbol before everything that
does not complete it. -/
structure Reads (q : Quote) (s : Symbol) (t : List Char) (ps : List Piece) : Prop where
  fits : ∀ p ∈ ps, p.Fits q
  spelling : ps.flatMap Piece.spelling = t
  text : ∀ rest, (s.IsHigh → ¬ Piece.OpensLow rest) →
    Piece.text (ps ++ rest) = s.text :: Piece.text rest
  low : ∀ rest, Piece.OpensLow (ps ++ rest) → s.IsLow

theorem reads_units {q : Quote} {c : Char} {t : List Char} (h : Escaped (Utf16.units c) t) :
    ∃ ps, Reads q (char c) t ps := by
  unfold Utf16.units at h
  split at h
  · generalize same : c.toNat = u at h
    cases h with
    | @cons a b c' d _ _ digits others =>
      cases others
      refine ⟨[.unit a b c' d], by simpa [Piece.Fits] using digits, rfl, ?_, ?_⟩
      · intro rest _
        rw [List.singleton_append, Piece.text_unit, ← same, Utf16.lone_toNat]
        · rfl
        · rw [← same, (Utf16.not_surrogate c).1]
          intro wrong
          cases wrong
      · intro rest low
        rw [List.singleton_append, Piece.OpensLow, ← same, (Utf16.not_surrogate c).2] at low
        cases low
  · rename_i large
    obtain ⟨isHigh, isLow, combined⟩ := Utf16.combine_units large
    generalize 0xD800 + (c.toNat - 0x10000) / 0x400 = high at h isHigh combined
    generalize 0xDC00 + (c.toNat - 0x10000) % 0x400 = low at h isLow combined
    cases h with
    | @cons a b c' d _ _ digits others =>
      cases others with
      | @cons a' b' c'' d' _ _ digits' others =>
        cases others
        refine ⟨[.unit a b c' d, .unit a' b' c'' d'], ?_, rfl, ?_, ?_⟩
        · exact List.forall_mem_cons.2 ⟨digits, List.forall_mem_singleton.2 digits'⟩
        · intro rest _
          have pair := Piece.text_pair isHigh isLow rest
          rw [combined] at pair
          exact pair
        · intro rest opensLow
          have notLow := Utf16.not_isLow_of_isHigh isHigh
          rw [List.cons_append, Piece.OpensLow, notLow] at opensLow
          cases opensLow

theorem Spelled.reads {q : Quote} {s : Symbol} {t : List Char} (h : Spelled q s t) :
    ∃ ps, Reads q s t ps := by
  cases h with
  | @raw c notQuote notBackslash =>
    exact ⟨[.plain c], List.forall_mem_singleton.2 ⟨notQuote, notBackslash⟩, rfl, fun _ _ => rfl,
      fun _ wrong => wrong.elim⟩
  | @letter c l named =>
    obtain ⟨escapable, unescape⟩ := unescape_of_named named
    refine ⟨[.escape l], List.forall_mem_singleton.2 escapable, rfl, ?_, fun _ wrong => wrong.elim⟩
    intro rest _
    rw [List.singleton_append, Piece.text, unescape]
    rfl
  | units escaped => exact reads_units escaped
  | @surrogate u t half escaped =>
    cases escaped with
    | @cons a b c d _ _ digits others =>
      cases others
      refine ⟨[.unit a b c d], List.forall_mem_singleton.2 digits, rfl, ?_, fun _ low => low⟩
      intro rest alone
      rw [List.singleton_append, Piece.text_unit alone, Utf16.lone_surrogate half]
      rfl

/-- No high surrogate has a low one behind it: the two would be one character. -/
def Apart (symbols : List Symbol) : Prop :=
  ∀ u v, Utf16.isHigh u = true → Utf16.isLow v = true → ¬ [surrogate u, surrogate v] <:+: symbols

theorem Apart.tail {s : Symbol} {symbols : List Symbol} (h : Apart (s :: symbols)) :
    Apart symbols := by
  intro u v high low inside
  exact h u v high low (inside.trans (List.suffix_cons s symbols).isInfix)

theorem Apart.head {s s' : Symbol} {symbols : List Symbol} (h : Apart (s :: s' :: symbols))
    (high : s.IsHigh) : ¬ s'.IsLow := by
  intro low
  match s, s' with
  | surrogate u, surrogate v => exact h u v high low ⟨[], symbols, rfl⟩

/-- Symbols one after another are read as they are spelled. A low surrogate can be what the pieces
open with only if it is what the symbols open with. -/
theorem exists_pieces {q : Quote} {symbols : List Symbol} {ts : List (List Char)}
    (spelled : List.Forall₂ (Spelled q) symbols ts) (apart : Apart symbols) :
    ∃ ps : List Piece, (∀ p ∈ ps, p.Fits q) ∧ ps.flatMap Piece.spelling = ts.flatten ∧
      Piece.text ps = symbols.map Symbol.text ∧
      (Piece.OpensLow ps → ∃ s, symbols.head? = some s ∧ s.IsLow) := by
  induction spelled with
  | nil => exact ⟨[], by simp, rfl, rfl, fun wrong => wrong.elim⟩
  | @cons s t symbols ts first _ ih =>
    obtain ⟨rest, fits, spelling, text, low⟩ := ih apart.tail
    obtain ⟨ps, reads⟩ := first.reads
    refine ⟨ps ++ rest, List.forall_mem_append.2 ⟨reads.fits, fits⟩, ?_, ?_, ?_⟩
    · rw [List.flatMap_append, reads.spelling, spelling, List.flatten_cons]
    · rw [reads.text, text, List.map_cons]
      intro high opensLow
      obtain ⟨s', same, isLow⟩ := low opensLow
      cases symbols with
      | nil => cases same
      | cons s'' symbols =>
        cases same
        exact apart.head high isLow
    · intro opensLow
      exact ⟨s, rfl, reads.low rest opensLow⟩

end Symbol

/-- A path that is one subscript denotes what the subscript denotes. -/
theorem normalize_subscript {body : List Char} {n : Node} (balanced : Balanced body)
    (means : Subscript.Means body n) :
    normalize (String.ofList ('[' :: (body ++ [']']))) = .ok [n] := by
  rw [normalize_brackets balanced, Subscript.node_eq_ok_iff.2 means]
  rfl

/-- **A quoted name denotes its child, however it is spelled.** Each character may stand for itself
or be escaped, by a letter or by its code units; surrogates may stand alone. The name has one
character for each symbol, in order. -/
theorem normalize_quoted_name (q : Quote) (symbols : List Symbol) (ts : List (List Char))
    (spelled : List.Forall₂ (Symbol.Spelled q) symbols ts) (apart : Symbol.Apart symbols) :
    normalize (String.ofList ('[' :: q.char :: (ts.flatten ++ [q.char, ']']))) =
      .ok [.child (.name (String.ofList (symbols.map Symbol.text)))] := by
  obtain ⟨ps, fits, spelling, text, _⟩ := Symbol.exists_pieces spelled apart
  have wellFormed : Literal.WellFormed ⟨q, ps⟩ := fits
  have listed := Selection.Listed.last (.literal wellFormed)
  have denoted := normalize_subscript (.of_literal wellFormed) (.child listed)
  rw [Literal.text, text] at denoted
  rw [← denoted, Literal.spelling, spelling]
  simp

/-- A high surrogate before a character of two units, and a low one behind it, stand alone. -/
theorem normalize_quoted_name_surrogates :
    normalize "[\"k\\\"\\n\\u00E9\\uD83d\\uD83D\\ude00\\uDE00\"]" =
      .ok [.child (.name "k\"\né\uFFFD😀\uFFFD")] := by
  have eAcute : Symbol.Escaped (Utf16.units 'é') ['\\', 'u', '0', '0', 'E', '9'] :=
    @Symbol.Escaped.cons '0' '0' 'E' '9' _ _ (by decide) .nil
  have high : Symbol.Escaped [0xD83D] ['\\', 'u', 'D', '8', '3', 'd'] :=
    @Symbol.Escaped.cons 'D' '8' '3' 'd' _ _ (by decide) .nil
  have low : Symbol.Escaped [0xDE00] ['\\', 'u', 'D', 'E', '0', '0'] :=
    @Symbol.Escaped.cons 'D' 'E' '0' '0' _ _ (by decide) .nil
  have face : Symbol.Escaped (Utf16.units '😀')
      ['\\', 'u', 'D', '8', '3', 'D', '\\', 'u', 'd', 'e', '0', '0'] :=
    @Symbol.Escaped.cons 'D' '8' '3' 'D' _ _ (by decide)
      (@Symbol.Escaped.cons 'd' 'e' '0' '0' _ _ (by decide) .nil)
  have spelled : List.Forall₂ (Symbol.Spelled .double)
      [.char 'k', .char '"', .char '\n', .char 'é', .surrogate 0xD83D, .char '😀', .surrogate 0xDE00]
      [['k'], ['\\', '"'], ['\\', 'n'], _, _, _, _] :=
    .cons (.raw (by decide) (by decide)) <| .cons (.letter (by decide)) <|
      .cons (.letter (by decide)) <|
      .cons (.units eAcute) <| .cons (.surrogate (by decide) high) <| .cons (.units face) <|
      .cons (.surrogate (by decide) low) .nil
  have apart : Symbol.Apart
      [.char 'k', .char '"', .char '\n', .char 'é', .surrogate 0xD83D, .char '😀',
        .surrogate 0xDE00] := by
    intro u v _ _ inside
    simp [List.infix_cons_iff] at inside
  have denoted := normalize_quoted_name .double _ _ spelled apart
  simpa [Quote.char, Symbol.text, Utf16.replacement] using denoted

end JsonPath
