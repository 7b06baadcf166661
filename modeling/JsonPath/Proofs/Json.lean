import JsonPath.Json.Print
import JsonPath.Json.Read
import JsonPath.Proofs.Decoding

/-!
JSON texts read back. What is printed falls into the same lexemes in every layout, and the lexemes
of a value bring a reader from where a value must come to where that value is complete. Main
statements: a printed value is read as itself, and a compact text holds no line break.
-/

namespace JsonPath.Json

/-- A value whose numbers are integers. -/
inductive Integral : Json → Prop
  | null : Integral null
  | bool (b : Bool) : Integral (bool b)
  | int (n : Int) : Integral (int n)
  | string (s : String) : Integral (string s)
  | array {vs : List Json} (each : ∀ v ∈ vs, Integral v) : Integral (array vs)
  | object {fields : List (String × Json)} (each : ∀ f ∈ fields, Integral f.2) :
      Integral (object fields)

/-! ## Strings -/

/-- A character is escaped by a letter or by its code unit, or it stands for itself. -/
theorem escape_cases (c : Char) :
    (∃ l, (c, l) ∈ Symbol.letters .double ∧ escape c = ['\\', l]) ∨
    (c.toNat < 0x20 ∧
      escape c = ['\\', 'u', '0', '0', Hex.digit (c.toNat / 16), Hex.digit (c.toNat % 16)]) ∨
    (c ≠ '"' ∧ c ≠ '\\' ∧ 0x20 ≤ c.toNat ∧ escape c = [c]) := by
  unfold escape
  split
  case h_8 notQuote notBackslash _ _ _ _ _ =>
    split
    · rename_i control
      exact .inr (.inl ⟨control, rfl⟩)
    · rename_i shown
      exact .inr (.inr ⟨notQuote, notBackslash, Nat.le_of_not_lt shown, rfl⟩)
  all_goals exact .inl ⟨_, by decide, rfl⟩

/-- The piece as which the text of a character is read. -/
structure Encodes (c : Char) (p : Piece) : Prop where
  fits : p.Fits .double
  spelling : p.spelling = escape c
  raw : Lexeme.isRaw p = true
  text : ∀ rest, Piece.text (p :: rest) = c :: Piece.text rest
  paired : ∀ rest, Lexeme.paired (p :: rest) = Lexeme.paired rest

theorem paired_unit {a b c d : Char} {rest : List Piece}
    (notHigh : Utf16.isHigh (Hex.value [a, b, c, d]) = false)
    (notLow : Utf16.isLow (Hex.value [a, b, c, d]) = false) :
    Lexeme.paired (.unit a b c d :: rest) = Lexeme.paired rest := by
  match rest with
  | [] => simp [Lexeme.paired, notHigh, notLow]
  | .plain _ :: _ => simp [Lexeme.paired, notHigh, notLow]
  | .escape _ :: _ => simp [Lexeme.paired, notHigh, notLow]
  | .unit _ _ _ _ :: _ => simp [Lexeme.paired, notHigh, notLow]

theorem value_control :
    ∀ n < 0x20, Hex.value ['0', '0', Hex.digit (n / 16), Hex.digit (n % 16)] = n := by
  decide

theorem isDigit_control : ∀ n < 0x20,
    ['0', '0', Hex.digit (n / 16), Hex.digit (n % 16)].all Hex.isDigit = true := by
  decide

theorem encodes_control {c : Char} (control : c.toNat < 0x20)
    (same : escape c = ['\\', 'u', '0', '0', Hex.digit (c.toNat / 16), Hex.digit (c.toNat % 16)]) :
    Encodes c (.unit '0' '0' (Hex.digit (c.toNat / 16)) (Hex.digit (c.toNat % 16))) := by
  have value := value_control c.toNat control
  obtain ⟨notHigh, notLow⟩ := Utf16.not_surrogate c
  rw [← value] at notHigh notLow
  refine ⟨isDigit_control c.toNat control, same.symm, rfl, ?_, fun _ => paired_unit notHigh notLow⟩
  intro rest
  rw [Piece.text_unit, value, Utf16.lone_toNat]
  rw [notHigh]
  intro wrong
  cases wrong

theorem exists_piece (c : Char) : ∃ p, Encodes c p := by
  rcases escape_cases c with
    ⟨l, named, same⟩ | ⟨control, same⟩ | ⟨notQuote, notBackslash, shown, same⟩
  · obtain ⟨escapable, unescape⟩ := Symbol.unescape_of_named named
    refine ⟨.escape l, escapable, same.symm, rfl, ?_, fun _ => rfl⟩
    intro rest
    rw [Piece.text, unescape]
  · exact ⟨_, encodes_control control same⟩
  · exact ⟨.plain c, ⟨notQuote, notBackslash⟩, same.symm, decide_eq_true shown,
      fun _ => rfl, fun _ => rfl⟩

theorem exists_pieces (s : List Char) :
    ∃ ps : List Piece, (∀ p ∈ ps, p.Fits .double) ∧ ps.flatMap Piece.spelling = s.flatMap escape ∧
      ps.all Lexeme.isRaw = true ∧ Piece.text ps = s ∧ Lexeme.paired ps = true := by
  induction s with
  | nil => exact ⟨[], by simp, rfl, rfl, rfl, rfl⟩
  | cons c s ih =>
    obtain ⟨ps, fits, spelling, raw, text, paired⟩ := ih
    obtain ⟨p, first⟩ := exists_piece c
    refine ⟨p :: ps, List.forall_mem_cons.2 ⟨first.fits, fits⟩, ?_, ?_, ?_, ?_⟩
    · rw [List.flatMap_cons, first.spelling, spelling, List.flatMap_cons]
    · rw [List.all_cons, first.raw, raw, Bool.and_self]
    · rw [first.text, text]
    · rw [first.paired, paired]

/-- A quoted string is read back, whatever stands behind it. -/
theorem readString?_quote (s : String) (rest : List Char) :
    Lexeme.readString? (quote s ++ rest) = some (s, rest) := by
  obtain ⟨ps, fits, spelling, raw, text, paired⟩ := exists_pieces s.toList
  have wellFormed : Literal.WellFormed ⟨.double, ps⟩ := fits
  have read := Literal.read?_spelling wellFormed rest
  rw [Literal.spelling, spelling] at read
  have said : Literal.text ⟨.double, ps⟩ = s.toList := text
  have whole : quote s = Quote.double.char :: (s.toList.flatMap escape ++ [Quote.double.char]) :=
    rfl
  rw [whole, Lexeme.readString?, read, Option.bind_some]
  dsimp only
  rw [if_pos ⟨rfl, raw, paired⟩, said, String.ofList_toList]

/-! ## Lexemes -/

namespace Lexeme

/-- The characters that could belong to a number in front of them. -/
def extendsNumber (c : Char) : Bool := c.isDigit || c = '.' || c = 'e' || c = 'E'

/-- What follows is no part of a number in front of it. -/
def Delimits (rest : List Char) : Prop := Text.Stops extendsNumber rest

theorem Delimits.append {s rest : List Char} (hs : Delimits s) (h : Delimits rest) :
    Delimits (s ++ rest) := by
  cases s with
  | nil => exact h
  | cons c s => exact Text.stops_cons.2 (Text.stops_cons.1 hs)

theorem skipFraction?_of_delimits {rest : List Char} (h : Delimits rest) :
    skipFraction? rest = some rest := by
  unfold skipFraction?
  split
  · cases Text.stops_cons.1 h
  · rfl

theorem skipExponent?_of_delimits {rest : List Char} (h : Delimits rest) :
    skipExponent? rest = some rest := by
  unfold skipExponent?
  split
  · rename_i c rest
    rw [if_neg]
    rintro (rfl | rfl) <;> cases Text.stops_cons.1 h
  · rfl

theorem readNumber?_render (n : Int) {rest : List Char} (h : Delimits rest) :
    readNumber? (Decimal.render n ++ rest) = some (.int n, rest) := by
  have stops : Text.Stops Char.isDigit rest := by
    intro c first
    have outside := h c first
    simp only [extendsNumber, Bool.or_eq_false_iff] at outside
    exact outside.1.1.1
  have read := Decimal.readInt?_eq_some_iff.2 ((Decimal.integer_render n).opens stops)
  simp [readNumber?, read, skipFraction?_of_delimits h, skipExponent?_of_delimits h]

/-- No other lexeme begins with a quote. -/
theorem read?_string {s rest : List Char} {text : String} (h : readString? s = some (text, rest)) :
    read? s = some (scalar (string text), rest) := by
  unfold read?
  split
  case h_10 => rw [h]
  all_goals cases h

/-- A number begins with a sign or a digit, and so does no other lexeme. -/
theorem read?_number {c : Char} (number : c = '-' ∨ c.isDigit = true) (s : List Char) :
    read? (c :: s) = (readNumber? (c :: s)).map fun (v, rest) => (scalar v, rest) := by
  have noString : readString? (c :: s) = none := by
    have plain : Quote.ofChar? c = none := by
      unfold Quote.ofChar?
      rw [if_neg, if_neg]
      all_goals
        rintro rfl
        rcases number with wrong | wrong <;> cases wrong
    simp [readString?, Literal.read?, plain]
  unfold read?
  split
  case h_10 => rw [noString]
  all_goals
    rename_i same
    obtain ⟨rfl, _⟩ := List.cons.inj same
    rcases number with wrong | wrong <;> cases wrong

theorem render_head (n : Int) :
    ∃ c s, Decimal.render n = c :: s ∧ (c = '-' ∨ c.isDigit = true) := by
  have opens : Decimal.Opens (Decimal.render n ++ []) n [] :=
    (Decimal.integer_render n).opens (Text.stops_nil _)
  rw [List.append_nil] at opens
  exact opens.head

theorem isSpace_number {c : Char} (number : c = '-' ∨ c.isDigit = true) : isSpace c = false := by
  rw [Bool.eq_false_iff]
  intro space
  simp only [isSpace, Bool.or_eq_true, decide_eq_true_eq] at space
  rcases space with ((rfl | rfl) | rfl) | rfl <;> rcases number with wrong | wrong <;> cases wrong

theorem readAll_space {c : Char} (h : isSpace c = true) (s : List Char) :
    readAll (c :: s) = readAll s := by
  rw [readAll, if_pos h]

theorem readAll_spaces {blank : List Char} (h : ∀ c ∈ blank, isSpace c = true) (s : List Char) :
    readAll (blank ++ s) = readAll s := by
  induction blank with
  | nil => rfl
  | cons c blank ih =>
    obtain ⟨first, others⟩ := List.forall_mem_cons.1 h
    rw [List.cons_append, readAll_space first, ih others]

theorem readAll_read {c : Char} {s after : List Char} {x : Lexeme} {xs : List Lexeme}
    (notSpace : isSpace c = false) (read : read? (c :: s) = some (x, after))
    (others : readAll after = some xs) : readAll (c :: s) = some (x :: xs) := by
  rw [readAll, if_neg (by simp [notSpace])]
  split <;> rename_i found <;> rw [read] at found <;> cases found
  rw [others]
  rfl

theorem readAll_quote (s : String) {rest : List Char} {xs : List Lexeme}
    (others : readAll rest = some xs) :
    readAll (quote s ++ rest) = some (scalar (string s) :: xs) := by
  have read := read?_string (readString?_quote s rest)
  rw [quote, List.cons_append] at read ⊢
  exact readAll_read rfl read others

theorem readAll_render (n : Int) {rest : List Char} {xs : List Lexeme} (h : Delimits rest)
    (others : readAll rest = some xs) :
    readAll (Decimal.render n ++ rest) = some (scalar (int n) :: xs) := by
  have number := readNumber?_render n h
  obtain ⟨c, s, same, first⟩ := render_head n
  rw [same, List.cons_append] at number ⊢
  refine readAll_read (isSpace_number first) ?_ others
  rw [read?_number first, number]
  rfl

end Lexeme

open Lexeme

mutual

/-- The lexemes of a value, without white space between them. -/
def lexemes : Json → List Lexeme
  | array [] => [openArray, closeArray]
  | array (v :: vs) => openArray :: (lexemes v ++ itemLexemes vs ++ [closeArray])
  | object [] => [openObject, closeObject]
  | object ((key, v) :: fields) =>
    openObject :: scalar (string key) :: colon ::
      (lexemes v ++ fieldLexemes fields ++ [closeObject])
  | v => [scalar v]

/-- The lexemes of items with a comma before each. -/
def itemLexemes : List Json → List Lexeme
  | [] => []
  | v :: vs => comma :: (lexemes v ++ itemLexemes vs)

def fieldLexemes : List (String × Json) → List Lexeme
  | [] => []
  | (key, v) :: fields =>
    comma :: scalar (string key) :: colon :: (lexemes v ++ fieldLexemes fields)

end

theorem isSpace_line (layout : Layout) (depth : Nat) :
    ∀ c ∈ layout.line depth, isSpace c = true := by
  cases layout with
  | compact => simp [Layout.line]
  | indented =>
    refine List.forall_mem_cons.2 ⟨rfl, ?_⟩
    intro c hc
    rw [(List.mem_replicate.1 hc).2]
    rfl

theorem delimits_line (layout : Layout) (depth : Nat) : Delimits (layout.line depth) := by
  cases layout with
  | compact => exact Text.stops_nil _
  | indented => exact Text.stops_cons.2 rfl

theorem readAll_colon (layout : Layout) {rest : List Char} {xs : List Lexeme}
    (others : readAll rest = some xs) : readAll (layout.colon ++ rest) = some (colon :: xs) := by
  cases layout with
  | compact => exact readAll_read rfl rfl others
  | indented =>
    rw [← readAll_space (c := ' ') rfl rest] at others
    exact readAll_read rfl rfl others

/-- A text that is read as lexemes wherever no number goes on behind it. -/
def ReadAs (s : List Char) (xs : List Lexeme) : Prop :=
  ∀ rest ys, Delimits rest → readAll rest = some ys → readAll (s ++ rest) = some (xs ++ ys)

theorem readAs_printItems {layout : Layout} {depth : Nat} {vs : List Json}
    (each : ∀ v ∈ vs, ReadAs (print layout depth v) (lexemes v)) :
    ReadAs (printItems layout depth vs) (itemLexemes vs) ∧
      Delimits (printItems layout depth vs) := by
  induction vs with
  | nil => exact ⟨fun _ _ _ others => others, Text.stops_nil _⟩
  | cons v vs ih =>
    obtain ⟨first, others⟩ := List.forall_mem_cons.1 each
    obtain ⟨items, delimits⟩ := ih others
    refine ⟨?_, Text.stops_cons.2 rfl⟩
    intro rest ys ends read
    have behind := first _ _ (delimits.append ends) (items rest ys ends read)
    rw [← readAll_spaces (isSpace_line layout depth)] at behind
    have all := readAll_read (c := ',') rfl rfl behind
    simpa [printItems, itemLexemes] using all

theorem readAs_printFields {layout : Layout} {depth : Nat} {fields : List (String × Json)}
    (each : ∀ f ∈ fields, ReadAs (print layout depth f.2) (lexemes f.2)) :
    ReadAs (printFields layout depth fields) (fieldLexemes fields) ∧
      Delimits (printFields layout depth fields) := by
  induction fields with
  | nil => exact ⟨fun _ _ _ others => others, Text.stops_nil _⟩
  | cons f fields ih =>
    obtain ⟨key, v⟩ := f
    obtain ⟨first, others⟩ := List.forall_mem_cons.1 each
    obtain ⟨items, delimits⟩ := ih others
    refine ⟨?_, Text.stops_cons.2 rfl⟩
    intro rest ys ends read
    have behind := first _ _ (delimits.append ends) (items rest ys ends read)
    have named := readAll_quote key (readAll_colon layout behind)
    rw [← readAll_spaces (isSpace_line layout depth)] at named
    have all := readAll_read (c := ',') rfl rfl named
    simpa [printFields, fieldLexemes] using all

/-- A closing bracket on a line of its own, or on the same line in a compact text. -/
theorem readAll_close {layout : Layout} {depth : Nat} {c : Char} {x : Lexeme} {rest : List Char}
    {ys : List Lexeme} (notSpace : isSpace c = false)
    (close : Lexeme.read? (c :: rest) = some (x, rest)) (read : readAll rest = some ys) :
    readAll (layout.line depth ++ c :: rest) = some (x :: ys) := by
  rw [readAll_spaces (isSpace_line layout depth)]
  exact readAll_read notSpace close read

/-- **What is printed falls into the lexemes of the value**, in every layout and at every depth. -/
theorem readAs_print {v : Json} (h : Integral v) (layout : Layout) (depth : Nat) :
    ReadAs (print layout depth v) (lexemes v) := by
  induction h generalizing depth with
  | null => exact fun rest ys _ read => readAll_read rfl rfl read
  | bool b => cases b <;> exact fun rest ys _ read => readAll_read rfl rfl read
  | int n => exact fun rest ys ends read => readAll_render n ends read
  | string s => exact fun rest ys _ read => readAll_quote s read
  | @array vs _ ih =>
    intro rest ys ends read
    cases vs with
    | nil => exact readAll_read rfl rfl (readAll_read rfl rfl read)
    | cons v vs =>
      obtain ⟨first, others⟩ := List.forall_mem_cons.1 ih
      obtain ⟨items, delimits⟩ := readAs_printItems fun w hw => others w hw (depth + 1)
      have close := @readAll_close layout depth ']' _ _ _ rfl rfl read
      have closes : Delimits (layout.line depth ++ ']' :: rest) :=
        (delimits_line layout depth).append (Text.stops_cons.2 rfl)
      have inside := first (depth + 1) _ _ (delimits.append closes) (items _ _ closes close)
      rw [← readAll_spaces (isSpace_line layout (depth + 1))] at inside
      have all := readAll_read (c := '[') rfl rfl inside
      simpa [print, lexemes] using all
  | @object fields _ ih =>
    intro rest ys ends read
    cases fields with
    | nil => exact readAll_read rfl rfl (readAll_read rfl rfl read)
    | cons f fields =>
      obtain ⟨key, v⟩ := f
      obtain ⟨first, others⟩ := List.forall_mem_cons.1 ih
      obtain ⟨items, delimits⟩ := readAs_printFields fun w hw => others w hw (depth + 1)
      have close := @readAll_close layout depth '}' _ _ _ rfl rfl read
      have closes : Delimits (layout.line depth ++ '}' :: rest) :=
        (delimits_line layout depth).append (Text.stops_cons.2 rfl)
      have inside := first (depth + 1) _ _ (delimits.append closes) (items _ _ closes close)
      have named := readAll_quote key (readAll_colon layout inside)
      rw [← readAll_spaces (isSpace_line layout (depth + 1))] at named
      have all := readAll_read (c := '{') rfl rfl named
      simpa [print, lexemes] using all

/-! ## Values -/

/-- Where an array was opened, its first item is read as a value. -/
theorem step?_item (v : Json) (frames : List Frame) :
    ∃ x xs, lexemes v = x :: xs ∧
      Reading.step? ⟨frames, .item⟩ x = Reading.step? ⟨.items [] :: frames, .value⟩ x := by
  cases v with
  | array vs => cases vs <;> exact ⟨_, _, rfl, rfl⟩
  | object fields => cases fields <;> exact ⟨_, _, rfl, rfl⟩
  | _ => exact ⟨_, _, rfl, rfl⟩

/-- The lexemes `xs` complete the value `v` wherever a value must come. -/
def Completes (xs : List Lexeme) (v : Json) : Prop :=
  ∀ frames rest, (xs ++ rest).foldlM Reading.step? ⟨frames, .value⟩ =
    rest.foldlM Reading.step? ⟨frames, .after v⟩

theorem foldlM_itemLexemes {vs : List Json} (each : ∀ v ∈ vs, Completes (lexemes v) v)
    (frames : List Frame) (done : List Json) (v : Json) (rest : List Lexeme) :
    (itemLexemes vs ++ closeArray :: rest).foldlM Reading.step? ⟨.items done :: frames, .after v⟩ =
      rest.foldlM Reading.step? ⟨frames, .after (.array ((v :: done).reverse ++ vs))⟩ := by
  induction vs generalizing done v with
  | nil =>
    rw [List.append_nil]
    rfl
  | cons w vs ih =>
    obtain ⟨first, others⟩ := List.forall_mem_cons.1 each
    have comma : (itemLexemes (w :: vs) ++ closeArray :: rest).foldlM Reading.step?
          ⟨.items done :: frames, .after v⟩ =
        (lexemes w ++ (itemLexemes vs ++ closeArray :: rest)).foldlM Reading.step?
          ⟨.items (v :: done) :: frames, .value⟩ := by
      rw [itemLexemes, List.cons_append, List.append_assoc]
      rfl
    rw [comma, first, ih others]
    simp

theorem foldlM_fieldLexemes {fields : List (String × Json)}
    (each : ∀ f ∈ fields, Completes (lexemes f.2) f.2) (frames : List Frame)
    (done : List (String × Json)) (key : String) (v : Json) (rest : List Lexeme) :
    (fieldLexemes fields ++ closeObject :: rest).foldlM Reading.step?
        ⟨.fields done key :: frames, .after v⟩ =
      rest.foldlM Reading.step?
        ⟨frames, .after (.object (((key, v) :: done).reverse ++ fields))⟩ := by
  induction fields generalizing done key v with
  | nil =>
    rw [List.append_nil]
    rfl
  | cons f fields ih =>
    obtain ⟨name, w⟩ := f
    obtain ⟨first, others⟩ := List.forall_mem_cons.1 each
    have named : (fieldLexemes ((name, w) :: fields) ++ closeObject :: rest).foldlM Reading.step?
          ⟨.fields done key :: frames, .after v⟩ =
        (lexemes w ++ (fieldLexemes fields ++ closeObject :: rest)).foldlM Reading.step?
          ⟨.fields ((key, v) :: done) name :: frames, .value⟩ := by
      simp only [fieldLexemes, List.cons_append, List.append_assoc]
      rfl
    rw [named, first, ih others]
    simp

theorem completes_lexemes {v : Json} (h : Integral v) : Completes (lexemes v) v := by
  induction h with
  | null => exact fun _ _ => rfl
  | bool b => exact fun _ _ => rfl
  | int n => exact fun _ _ => rfl
  | string s => exact fun _ _ => rfl
  | @array vs _ ih =>
    intro frames rest
    cases vs with
    | nil => rfl
    | cons v vs =>
      obtain ⟨first, others⟩ := List.forall_mem_cons.1 ih
      have opened : (lexemes (array (v :: vs)) ++ rest).foldlM Reading.step? ⟨frames, .value⟩ =
          (lexemes v ++ (itemLexemes vs ++ closeArray :: rest)).foldlM Reading.step?
            ⟨.items [] :: frames, .value⟩ := by
        obtain ⟨x, xs, same, step⟩ := step?_item v frames
        simp only [lexemes, same, List.cons_append, List.append_assoc, List.foldlM_cons, ← step]
        rfl
      rw [opened, first, foldlM_itemLexemes others]
      rfl
  | @object fields _ ih =>
    intro frames rest
    cases fields with
    | nil => rfl
    | cons f fields =>
      obtain ⟨key, v⟩ := f
      obtain ⟨first, others⟩ := List.forall_mem_cons.1 ih
      have opened :
          (lexemes (object ((key, v) :: fields)) ++ rest).foldlM Reading.step? ⟨frames, .value⟩ =
          (lexemes v ++ (fieldLexemes fields ++ closeObject :: rest)).foldlM Reading.step?
            ⟨.fields [] key :: frames, .value⟩ := by
        simp only [lexemes, List.cons_append, List.append_assoc]
        rfl
      rw [opened, first, foldlM_fieldLexemes others]
      rfl

/-- **What is printed is read as the same value**, in every layout. -/
theorem read?_render {v : Json} (h : Integral v) (layout : Layout) :
    read? (render layout v) = some v := by
  have finished : readAll [] = some [] := by rw [readAll]
  have lexed := readAs_print h layout 0 [] [] (Text.stops_nil _) finished
  have completed := completes_lexemes h [] []
  simp only [List.append_nil] at lexed completed
  rw [render, read?, lexed]
  simp only [Option.bind_eq_bind, Option.bind_some, Reading.start, completed]
  rfl

/-! ## Line breaks -/

theorem not_lineBreak_escape (c : Char) : '\n' ∉ escape c := by
  rcases escape_cases c with ⟨l, named, same⟩ | ⟨control, same⟩ | ⟨_, _, shown, same⟩
  · rw [same]
    have notBreak : ∀ p ∈ Symbol.letters .double, p.2 ≠ '\n' := by decide
    simpa using (notBreak _ named).symm
  · have digits : ∀ n < 0x20,
        '\n' ∉ ['\\', 'u', '0', '0', Hex.digit (n / 16), Hex.digit (n % 16)] := by
      decide
    rw [same]
    exact digits c.toNat control
  · rw [same, List.mem_singleton]
    rintro rfl
    exact absurd shown (by decide)

theorem not_lineBreak_quote (s : String) : '\n' ∉ quote s := by
  intro inside
  rcases List.mem_cons.1 inside with wrong | inside
  · cases wrong
  · rcases List.mem_append.1 inside with inside | wrong
    · obtain ⟨c, _, inside⟩ := List.mem_flatMap.1 inside
      exact not_lineBreak_escape c inside
    · cases List.mem_singleton.1 wrong

theorem not_lineBreak_render (n : Int) : '\n' ∉ Decimal.render n := by
  have digit : ∀ t, Decimal.Numeral t → '\n' ∉ t := by
    intro t numeral inside
    cases numeral.isDigit _ inside
  have integer := Decimal.integer_render n
  generalize Decimal.render n = t at integer
  intro inside
  cases integer with
  | unsigned numeral => exact digit _ numeral inside
  | negative numeral =>
    rcases List.mem_cons.1 inside with wrong | inside
    · cases wrong
    · exact digit _ numeral inside

theorem not_lineBreak_printItems {depth : Nat} {vs : List Json}
    (each : ∀ v ∈ vs, '\n' ∉ print .compact depth v) : '\n' ∉ printItems .compact depth vs := by
  induction vs with
  | nil => simp [printItems]
  | cons v vs ih =>
    obtain ⟨first, others⟩ := List.forall_mem_cons.1 each
    simp [printItems, Layout.line, first, ih others]

theorem not_lineBreak_printFields {depth : Nat} {fields : List (String × Json)}
    (each : ∀ f ∈ fields, '\n' ∉ print .compact depth f.2) :
    '\n' ∉ printFields .compact depth fields := by
  induction fields with
  | nil => simp [printFields]
  | cons f fields ih =>
    obtain ⟨key, v⟩ := f
    obtain ⟨first, others⟩ := List.forall_mem_cons.1 each
    simp [printFields, Layout.line, Layout.colon, not_lineBreak_quote key, first, ih others]

/-- **A compact text is one line**, whatever its strings hold. -/
theorem not_lineBreak_print {v : Json} (h : Integral v) (depth : Nat) :
    '\n' ∉ print .compact depth v := by
  induction h generalizing depth with
  | null => simp [print]
  | bool b => cases b <;> simp [print]
  | int n => exact not_lineBreak_render n
  | string s => exact not_lineBreak_quote s
  | @array vs _ ih =>
    cases vs with
    | nil => simp [print]
    | cons v vs =>
      obtain ⟨first, others⟩ := List.forall_mem_cons.1 ih
      have items := not_lineBreak_printItems fun w hw => others w hw (depth + 1)
      simp [print, Layout.line, first, items]
  | @object fields _ ih =>
    cases fields with
    | nil => simp [print]
    | cons f fields =>
      obtain ⟨key, v⟩ := f
      obtain ⟨first, others⟩ := List.forall_mem_cons.1 ih
      have items := not_lineBreak_printFields fun w hw => others w hw (depth + 1)
      simp [print, Layout.line, Layout.colon, not_lineBreak_quote key, first, items]

end JsonPath.Json
