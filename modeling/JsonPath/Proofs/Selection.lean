import JsonPath.Proofs.Literal
import JsonPath.Proofs.Numeral
import JsonPath.Selection.Read

/-!
Selections and lists of them, told without a reader. `Spelled` says which texts a selection
has, whatever stands around them; `Opens` says with which selection a longer text opens, and
there numerals and identifiers take all they can. The reader follows `Opens`, and before a
comma or the end the two agree.
-/

namespace JsonPath

namespace Slice

/-- The text of a bound, which may be left out. -/
inductive Bound : List Char → Option Index → Prop
  | absent : Bound [] none
  | present {t : List Char} {i : Index} (spelled : Index.Spelled t i) : Bound t (some i)

/-- The texts of a slice. A part left out has a default, and a part that is there is kept as it is.
-/
inductive Spelled : List Char → Slice → Prop
  | two {a b : List Char} {start stop : Option Index} (first : Bound a start)
      (second : Bound b stop) : Spelled (a ++ ':' :: b) ⟨start.getD 0, stop, 1⟩
  | three {a b c : List Char} {start stop step : Option Index} (first : Bound a start)
      (second : Bound b stop) (third : Bound c step) :
      Spelled (a ++ ':' :: (b ++ ':' :: c)) ⟨start.getD 0, stop, step.getD 1⟩

/-- A bound is taken where the text opens with an index. Where it opens with none the bound is left
out, also when there are digits. -/
inductive OpensBound : List Char → Option Index → List Char → Prop
  | present {s rest : List Char} {i : Index} (opens : Index.Opens s i rest) :
      OpensBound s (some i) rest
  | absent {s : List Char} (nothing : ∀ i rest, ¬ Index.Opens s i rest) : OpensBound s none s

inductive Opens : List Char → Slice → List Char → Prop
  | two {s afterStart rest : List Char} {start stop : Option Index}
      (first : OpensBound s start (':' :: afterStart)) (second : OpensBound afterStart stop rest)
      (ends : ∀ after, rest ≠ ':' :: after) : Opens s ⟨start.getD 0, stop, 1⟩ rest
  | three {s afterStart afterStop rest : List Char} {start stop step : Option Index}
      (first : OpensBound s start (':' :: afterStart))
      (second : OpensBound afterStart stop (':' :: afterStop))
      (third : OpensBound afterStop step rest) : Opens s ⟨start.getD 0, stop, step.getD 1⟩ rest

theorem readBound_eq_iff {s rest : List Char} {bound : Option Index} :
    readBound s = (bound, rest) ↔ OpensBound s bound rest := by
  unfold readBound
  constructor
  · intro h
    split at h
    · rename_i read
      cases h
      exact .present (Index.read?_eq_some_iff.1 read)
    · rename_i unread
      cases h
      exact .absent (Index.read?_eq_none_iff.1 unread)
  · intro h
    cases h with
    | present opens => rw [Index.read?_eq_some_iff.2 opens]
    | absent nothing => rw [Index.read?_eq_none_iff.2 nothing]

theorem read?_eq_some_iff {s rest : List Char} {slice : Slice} :
    read? s = some (slice, rest) ↔ Opens s slice rest := by
  constructor
  · intro h
    unfold read? at h
    split at h
    · rename_i start afterStart readStart
      have first := readBound_eq_iff.1 readStart
      split at h
      · rename_i stop afterStop readStop
        cases h
        exact .three first (readBound_eq_iff.1 readStop) (readBound_eq_iff.1 rfl)
      · rename_i stop after noColon readStop
        cases h
        exact .two first (readBound_eq_iff.1 readStop) noColon
    · cases h
  · intro h
    cases h with
    | two first second ends =>
      simp only [read?, readBound_eq_iff.2 first, readBound_eq_iff.2 second]
    | three first second third =>
      simp only [read?, readBound_eq_iff.2 first, readBound_eq_iff.2 second,
        readBound_eq_iff.2 third]

theorem Opens.first {s rest : List Char} {slice : Slice} (h : Opens s slice rest) :
    ∃ start after, OpensBound s start (':' :: after) := by
  cases h with
  | two first _ _ => exact ⟨_, _, first⟩
  | three first _ _ => exact ⟨_, _, first⟩

/-- Its first colon is what makes a slice. -/
theorem read?_eq_none_iff {s : List Char} :
    read? s = none ↔ ∀ start after, ¬ OpensBound s start (':' :: after) := by
  constructor
  · intro h start after first
    simp only [read?, readBound_eq_iff.2 first] at h
    split at h <;> cases h
  · intro h
    cases found : read? s with
    | none => rfl
    | some read =>
      obtain ⟨start, after, first⟩ := (read?_eq_some_iff.1 found).first
      exact absurd first (h start after)

/-- The characters with which a slice can begin. An index begins with the same, the colon apart. -/
def Starts (c : Char) : Prop := c = '-' ∨ c.isDigit = true ∨ c = ':'

instance (c : Char) : Decidable (Starts c) :=
  inferInstanceAs (Decidable (c = '-' ∨ c.isDigit = true ∨ c = ':'))

theorem Opens.head {s rest : List Char} {slice : Slice} (h : Opens s slice rest) :
    ∃ c t, s = c :: t ∧ Starts c := by
  obtain ⟨start, after, bound⟩ := h.first
  cases bound with
  | present opens =>
    obtain ⟨c, t, rfl, sign | digit⟩ := Decimal.Opens.head opens
    · exact ⟨c, t, rfl, .inl sign⟩
    · exact ⟨c, t, rfl, .inr (.inl digit)⟩
  | absent _ => exact ⟨':', after, rfl, .inr (.inr rfl)⟩

/-- What may follow a bound in a list: a comma, a colon or the end. -/
def Follows (rest : List Char) : Prop := ∀ c, rest.head? = some c → c = ',' ∨ c = ':'

theorem Follows.stops {rest : List Char} (h : Follows rest) : Text.Stops Char.isDigit rest := by
  intro c first
  rcases h c first with rfl | rfl <;> rfl

theorem Bound.opens {t rest : List Char} {bound : Option Index} (h : Bound t bound)
    (follows : Follows rest) : OpensBound (t ++ rest) bound rest := by
  cases h with
  | absent =>
    refine .absent ?_
    rintro i after opens
    obtain ⟨c, tail, same, number⟩ := Decimal.Opens.head opens
    rw [List.nil_append] at same
    subst same
    rcases follows c rfl with rfl | rfl <;> rcases number with wrong | wrong <;> cases wrong
  | present spelled => exact .present (Decimal.Integer.opens spelled follows.stops)

theorem follows_colon (s : List Char) : Follows (':' :: s) := by
  intro c first
  cases first
  exact .inr rfl

theorem Spelled.opens {t rest : List Char} {slice : Slice} (h : Spelled t slice)
    (ends : ∀ c, rest.head? = some c → c = ',') : Opens (t ++ rest) slice rest := by
  have follows : Follows rest := fun c first => .inl (ends c first)
  cases h with
  | @two a b start stop first second =>
    rw [List.append_assoc, List.cons_append]
    refine .two (first.opens (follows_colon _)) (second.opens follows) ?_
    rintro after rfl
    cases ends ':' rfl
  | @three a b c start stop step first second third =>
    rw [List.append_assoc, List.cons_append, List.append_assoc, List.cons_append]
    exact .three (first.opens (follows_colon _)) (second.opens (follows_colon _))
      (third.opens follows)

theorem OpensBound.bound {s rest : List Char} {bound : Option Index} (h : OpensBound s bound rest) :
    ∃ t, s = t ++ rest ∧ Bound t bound := by
  cases h with
  | present opens =>
    obtain ⟨t, rfl, integer⟩ := Decimal.Opens.integer opens
    exact ⟨t, rfl, .present integer⟩
  | absent _ => exact ⟨[], rfl, .absent⟩

theorem Opens.spelled {s rest : List Char} {slice : Slice} (h : Opens s slice rest) :
    ∃ t, s = t ++ rest ∧ Spelled t slice := by
  cases h with
  | two first second _ =>
    obtain ⟨a, rfl, boundA⟩ := first.bound
    obtain ⟨b, rfl, boundB⟩ := second.bound
    exact ⟨a ++ ':' :: b, by simp, .two boundA boundB⟩
  | three first second third =>
    obtain ⟨a, rfl, boundA⟩ := first.bound
    obtain ⟨b, rfl, boundB⟩ := second.bound
    obtain ⟨c, rfl, boundC⟩ := third.bound
    exact ⟨a ++ ':' :: (b ++ ':' :: c), by simp, .three boundA boundB boundC⟩

end Slice

namespace Identifier

/-- Letters, `_` and `$`, and then letters, digits and `_`. -/
inductive Spelled : List Char → Prop
  | intro {heads tails : List Char} (nonempty : heads ≠ []) (first : ∀ c ∈ heads, isHead c = true)
      (others : ∀ c ∈ tails, isTail c = true) : Spelled (heads ++ tails)

/-- The text opens with an identifier, both parts of which are as long as they can be. -/
inductive Opens : List Char → List Char → List Char → Prop
  | intro {heads tails rest : List Char} (nonempty : heads ≠ [])
      (first : ∀ c ∈ heads, isHead c = true) (firstEnds : Text.Stops isHead (tails ++ rest))
      (others : ∀ c ∈ tails, isTail c = true) (ends : Text.Stops isTail rest) :
      Opens (heads ++ (tails ++ rest)) (heads ++ tails) rest

theorem read?_eq_some_iff {s name rest : List Char} :
    read? s = some (name, rest) ↔ Opens s name rest := by
  constructor
  · intro h
    unfold read? at h
    split at h
    · cases h
    · rename_i nonempty
      cases h
      have opens := Opens.intro nonempty (fun _ hc => Text.mem_takeWhile hc)
        (by rw [List.takeWhile_append_dropWhile]; exact Text.stops_dropWhile _ _)
        (fun _ hc => Text.mem_takeWhile hc) (Text.stops_dropWhile isTail (s.dropWhile isHead))
      rwa [List.takeWhile_append_dropWhile, List.takeWhile_append_dropWhile] at opens
  · intro h
    cases h with
    | @intro heads tails rest nonempty first firstEnds others ends =>
      simp only [read?, Text.takeWhile_run first firstEnds, Text.dropWhile_run first firstEnds,
        Text.takeWhile_run others ends, Text.dropWhile_run others ends, if_neg nonempty]

theorem Opens.spelled {s name rest : List Char} (h : Opens s name rest) :
    s = name ++ rest ∧ Spelled name := by
  cases h with
  | intro nonempty first _ others _ =>
    exact ⟨by rw [List.append_assoc], .intro nonempty first others⟩

/-- The letters at the front of the second part may as well belong to the first. -/
theorem Spelled.opens {name rest : List Char} (h : Spelled name)
    (ends : ∀ c, rest.head? = some c → c = ',') : Opens (name ++ rest) name rest := by
  have endsHead : Text.Stops isHead rest := by
    intro c first
    rw [ends c first]
    rfl
  have endsTail : Text.Stops isTail rest := by
    intro c first
    rw [ends c first]
    rfl
  cases h with
  | @intro heads tails nonempty first others =>
    have regrouped : heads ++ tails =
        (heads ++ tails.takeWhile isHead) ++ tails.dropWhile isHead := by
      rw [List.append_assoc, List.takeWhile_append_dropWhile]
    rw [regrouped, List.append_assoc]
    refine .intro ?_ ?_ ?_ ?_ endsTail
    · simp [nonempty]
    · intro c hc
      rcases List.mem_append.1 hc with hc | hc
      · exact first c hc
      · exact Text.mem_takeWhile hc
    · cases remainder : tails.dropWhile isHead with
      | nil => exact endsHead
      | cons c tail =>
        have stops := Text.stops_dropWhile isHead tails
        rw [remainder, Text.stops_cons] at stops
        exact Text.stops_cons.2 stops
    · intro c hc
      exact others c (List.dropWhile_subset _ hc)

theorem Opens.head {s name rest : List Char} (h : Opens s name rest) :
    ∃ c t, s = c :: t ∧ isHead c = true := by
  cases h with
  | @intro heads tails rest nonempty first _ _ _ =>
    obtain ⟨c, t, rfl⟩ := List.exists_cons_of_ne_nil nonempty
    exact ⟨c, _, rfl, first c List.mem_cons_self⟩

end Identifier

namespace Selection

/-- The texts of a selection. -/
inductive Spelled : List Char → Selection → Prop
  | slice {t : List Char} {s : Slice} (spelled : Slice.Spelled t s) : Spelled t (.slice s)
  | name {t : List Char} (spelled : Identifier.Spelled t) :
      Spelled t (.key (.name (String.ofList t)))
  | index {t : List Char} {i : Index} (spelled : Index.Spelled t i) : Spelled t (.key (.index i))
  | literal {l : Literal} (wellFormed : l.WellFormed) :
      Spelled l.spelling (.key (.name (String.ofList l.text)))

/-- The selection that a text opens with. An index with a colon behind it is the start of a slice.
-/
inductive Opens : List Char → Selection → List Char → Prop
  | slice {s rest : List Char} {slice : Slice} (opens : Slice.Opens s slice rest) :
      Opens s (.slice slice) rest
  | name {s name rest : List Char} (opens : Identifier.Opens s name rest) :
      Opens s (.key (.name (String.ofList name))) rest
  | index {s rest : List Char} {i : Index} (opens : Index.Opens s i rest)
      (noSlice : ∀ after, rest ≠ ':' :: after) : Opens s (.key (.index i)) rest
  | literal {l : Literal} {rest : List Char} (wellFormed : l.WellFormed) :
      Opens (l.spelling ++ rest) (.key (.name (String.ofList l.text))) rest

/-- The letters come behind the digits in the character table. -/
theorem not_isDigit_of_isAlpha {c : Char} (h : c.isAlpha = true) : c.isDigit = false := by
  have letter : 'A'.toNat ≤ c.toNat := by
    rcases Bool.or_eq_true_iff.1 h with upper | lower
    · exact UInt32.le_iff_toNat_le.1 (of_decide_eq_true upper).1
    · have least := of_decide_eq_true (Bool.and_eq_true_iff.1 lower).1
      exact Nat.le_trans (by decide) (UInt32.le_iff_toNat_le.1 least)
  cases digit : c.isDigit with
  | false => rfl
  | true =>
    have bound : c.toNat ≤ '9'.toNat := (Char.isDigit_iff_toNat.1 digit).2
    have below : '9'.toNat < 'A'.toNat := by decide
    omega

/-- No slice and no index begins like an identifier. -/
theorem not_starts_of_isHead {c : Char} (h : Identifier.isHead c = true) : ¬ Slice.Starts c := by
  rintro (rfl | digit | rfl)
  · cases h
  · simp only [Identifier.isHead, Bool.or_eq_true, decide_eq_true_eq] at h
    rcases h with (letter | rfl) | rfl
    · rw [not_isDigit_of_isAlpha letter] at digit
      cases digit
    · cases digit
    · cases digit
  · cases h

theorem no_slice_of_head {c : Char} (s : List Char) (h : ¬ Slice.Starts c) :
    Slice.read? (c :: s) = none := by
  cases found : Slice.read? (c :: s) with
  | none => rfl
  | some read =>
    obtain ⟨d, t, same, starts⟩ := (Slice.read?_eq_some_iff.1 found).head
    cases same
    exact absurd starts h

theorem no_index_of_head {c : Char} (s : List Char) (h : ¬ Slice.Starts c) :
    Index.read? (c :: s) = none := by
  refine Index.read?_eq_none_iff.2 ?_
  intro i rest opens
  obtain ⟨d, t, same, number⟩ := Decimal.Opens.head opens
  cases same
  apply h
  exact number.imp_right .inl

theorem no_identifier_of_head {c : Char} (s : List Char) (h : Identifier.isHead c = false) :
    Identifier.read? (c :: s) = none := by
  cases found : Identifier.read? (c :: s) with
  | none => rfl
  | some read =>
    obtain ⟨d, t, same, head⟩ := (Identifier.read?_eq_some_iff.1 found).head
    cases same
    rw [h] at head
    cases head

/-- An index opens a slice exactly when a colon stands behind it. -/
theorem no_slice_iff_of_index {s rest : List Char} {i : Index} (opens : Index.Opens s i rest) :
    Slice.read? s = none ↔ ∀ after, rest ≠ ':' :: after := by
  have bound : Slice.readBound s = (some i, rest) := Slice.readBound_eq_iff.2 (.present opens)
  rw [Slice.read?_eq_none_iff]
  constructor
  · rintro noSlice after rfl
    exact noSlice (some i) after (.present opens)
  · rintro noColon start after first
    rw [← Slice.readBound_eq_iff, bound] at first
    exact noColon after (Prod.mk.inj first).2

/-- The reader recognizes what the text opens with, and nothing else. -/
theorem read?_eq_some_iff {s rest : List Char} {e : Selection} :
    read? s = some (e, rest) ↔ Opens s e rest := by
  constructor
  · intro h
    unfold read? at h
    split at h
    · rename_i run after found
      cases h
      exact .slice (Slice.read?_eq_some_iff.1 found)
    · rename_i noSlice
      split at h
      · rename_i name after found
        cases h
        exact .name (Identifier.read?_eq_some_iff.1 found)
      · split at h
        · rename_i i after found
          cases h
          have opens := Index.read?_eq_some_iff.1 found
          exact .index opens ((no_slice_iff_of_index opens).1 noSlice)
        · obtain ⟨⟨l, after⟩, found, same⟩ := Option.map_eq_some_iff.1 h
          cases same
          obtain ⟨rfl, wellFormed⟩ := Literal.of_read? found
          exact .literal wellFormed
  · intro h
    cases h with
    | slice opens => simp only [read?, Slice.read?_eq_some_iff.2 opens]
    | name opens =>
      obtain ⟨c, t, rfl, head⟩ := opens.head
      have noSlice := no_slice_of_head t (not_starts_of_isHead head)
      simp only [read?, noSlice, Identifier.read?_eq_some_iff.2 opens]
    | index opens noColon =>
      have noSlice := (no_slice_iff_of_index opens).2 noColon
      obtain ⟨c, t, rfl, number⟩ := Decimal.Opens.head opens
      have notHead : Identifier.isHead c = false := by
        cases head : Identifier.isHead c with
        | false => rfl
        | true => exact absurd (number.imp_right .inl) (not_starts_of_isHead head)
      simp only [read?, noSlice, no_identifier_of_head t notHead, Index.read?_eq_some_iff.2 opens]
    | @literal l rest wellFormed =>
      have notNumber : ¬ Slice.Starts l.quote.char := by cases l.quote <;> decide
      have notHead : Identifier.isHead l.quote.char = false := by cases l.quote <;> decide
      have found := Literal.read?_spelling wellFormed rest
      simp only [Literal.spelling, List.cons_append] at found ⊢
      simp only [read?, no_slice_of_head _ notNumber, no_identifier_of_head _ notHead,
        no_index_of_head _ notNumber, found, Option.map_some]

theorem read?_eq_none_iff {s : List Char} : read? s = none ↔ ∀ e rest, ¬ Opens s e rest := by
  constructor
  · intro h e rest opens
    rw [read?_eq_some_iff.2 opens] at h
    cases h
  · intro h
    cases found : read? s with
    | none => rfl
    | some read => exact absurd (read?_eq_some_iff.1 found) (h read.1 read.2)

/-- The characters with which a selection can begin. -/
def Starts (c : Char) : Prop :=
  c = '-' ∨ c.isDigit = true ∨ c = ':' ∨ Identifier.isHead c = true ∨ c = '\'' ∨ c = '"'

theorem Opens.head {s rest : List Char} {e : Selection} (h : Opens s e rest) :
    ∃ c t, s = c :: t ∧ Starts c := by
  cases h with
  | slice opens =>
    obtain ⟨c, t, same, sign | digit | colon⟩ := opens.head
    · exact ⟨c, t, same, .inl sign⟩
    · exact ⟨c, t, same, .inr (.inl digit)⟩
    · exact ⟨c, t, same, .inr (.inr (.inl colon))⟩
  | name opens =>
    obtain ⟨c, t, same, head⟩ := opens.head
    exact ⟨c, t, same, .inr (.inr (.inr (.inl head)))⟩
  | index opens _ =>
    obtain ⟨c, t, same, sign | digit⟩ := Decimal.Opens.head opens
    · exact ⟨c, t, same, .inl sign⟩
    · exact ⟨c, t, same, .inr (.inl digit)⟩
  | @literal l rest _ =>
    refine ⟨l.quote.char, _, rfl, .inr (.inr (.inr (.inr ?_)))⟩
    cases l.quote with
    | single => exact .inl rfl
    | double => exact .inr rfl

theorem Opens.spelled {s rest : List Char} {e : Selection} (h : Opens s e rest) :
    ∃ t, s = t ++ rest ∧ Spelled t e := by
  cases h with
  | slice opens =>
    obtain ⟨t, same, spelled⟩ := opens.spelled
    exact ⟨t, same, .slice spelled⟩
  | name opens =>
    obtain ⟨same, spelled⟩ := opens.spelled
    exact ⟨_, same, .name spelled⟩
  | index opens _ =>
    obtain ⟨t, same, spelled⟩ := Decimal.Opens.integer opens
    exact ⟨t, same, .index spelled⟩
  | literal wellFormed => exact ⟨_, rfl, .literal wellFormed⟩

/-- Before a comma or the end, a text of a selection is what the text opens with. -/
theorem Spelled.opens {t rest : List Char} {e : Selection} (h : Spelled t e)
    (ends : ∀ c, rest.head? = some c → c = ',') : Opens (t ++ rest) e rest := by
  cases h with
  | slice spelled => exact .slice (spelled.opens ends)
  | name spelled => exact .name (spelled.opens ends)
  | index spelled =>
    have stops : Text.Stops Char.isDigit rest := by
      intro c first
      rw [ends c first]
      rfl
    refine .index (Decimal.Integer.opens spelled stops) ?_
    rintro after rfl
    cases ends ':' rfl
  | literal wellFormed => exact .literal wellFormed

/-! ## Lists -/

/-- Selections with one comma between neighbours. -/
inductive Listed : List Char → List Selection → Prop
  | last {t : List Char} {e : Selection} (spelled : Spelled t e) : Listed t [e]
  | cons {t s : List Char} {e : Selection} {es : List Selection} (spelled : Spelled t e)
      (others : Listed s es) : Listed (t ++ ',' :: s) (e :: es)

/-- Selections with a comma behind each. -/
inductive Leading : List Char → List Selection → Prop
  | nil : Leading [] []
  | cons {t s : List Char} {e : Selection} {es : List Selection} (spelled : Spelled t e)
      (others : Leading s es) : Leading (t ++ ',' :: s) (e :: es)

theorem readList_last {s : List Char} {e : Selection} (h : read? s = some (e, [])) :
    readList s = .ok [e] := by
  rw [readList]
  split <;> rename_i found <;> rw [h] at found <;> cases found
  rfl

theorem readList_cons {s rest : List Char} {e : Selection} (h : read? s = some (e, ',' :: rest)) :
    readList s = (readList rest).map (e :: ·) := by
  rw [readList]
  split <;> rename_i found <;> rw [h] at found <;> cases found
  rw [if_pos rfl]

theorem readList_unread {s : List Char} (h : read? s = none) :
    readList s = .error .unrecognized := by
  rw [readList]
  split <;> rename_i found <;> rw [h] at found <;> cases found

theorem readList_stray {s rest : List Char} {e : Selection} {c : Char}
    (h : read? s = some (e, c :: rest)) (notComma : c ≠ ',') :
    readList s = .error (.stray c s) := by
  rw [readList]
  split <;> rename_i found <;> rw [h] at found <;> cases found
  rw [if_neg notComma]

/-- **A list is read exactly when its text is one.** -/
theorem readList_eq_ok_iff {s : List Char} {es : List Selection} :
    readList s = .ok es ↔ Listed s es := by
  constructor
  · intro h
    fun_induction readList s generalizing es with
    | case1 => cases h
    | case2 s e read =>
      cases h
      obtain ⟨t, rfl, spelled⟩ := (read?_eq_some_iff.1 read).spelled
      rw [List.append_nil]
      exact .last spelled
    | case3 s e rest read ih =>
      cases others : readList rest with
      | error =>
        rw [others] at h
        cases h
      | ok es =>
        rw [others] at h
        cases h
        obtain ⟨t, rfl, spelled⟩ := (read?_eq_some_iff.1 read).spelled
        exact .cons spelled (ih others)
    | case4 => cases h
  · intro h
    induction h with
    | @last t e spelled =>
      have opens : Opens (t ++ []) e [] := spelled.opens (by intro c first; cases first)
      rw [List.append_nil] at opens
      exact readList_last (read?_eq_some_iff.2 opens)
    | @cons t s e es spelled _ ih =>
      have opens : Opens (t ++ ',' :: s) e (',' :: s) :=
        spelled.opens (by intro c first; cases first; rfl)
      rw [readList_cons (read?_eq_some_iff.2 opens), ih]
      rfl

/-- Reading stops where no selection stands. All before it are selections with a comma behind each.
-/
theorem of_unrecognized {s : List Char} (h : readList s = .error .unrecognized) :
    ∃ front tail es, s = front ++ tail ∧ Leading front es ∧ ∀ e rest, ¬ Opens tail e rest := by
  fun_induction readList s with
  | case1 s unread => exact ⟨[], s, [], rfl, .nil, read?_eq_none_iff.1 unread⟩
  | case2 => cases h
  | case3 s e rest read ih =>
    cases others : readList rest with
    | ok =>
      rw [others] at h
      cases h
    | error stop =>
      rw [others] at h
      cases h
      obtain ⟨t, rfl, spelled⟩ := (read?_eq_some_iff.1 read).spelled
      obtain ⟨front, tail, es, rfl, leading, nothing⟩ := ih others
      exact ⟨t ++ ',' :: front, tail, e :: es, by simp, .cons spelled leading, nothing⟩
  | case4 => cases h

/-- Or it stops at a character behind a selection, neither a comma nor the end. -/
theorem of_stray {s tail : List Char} {c : Char} (h : readList s = .error (.stray c tail)) :
    ∃ front es e rest, s = front ++ tail ∧ Leading front es ∧ Opens tail e (c :: rest) ∧
      c ≠ ',' := by
  fun_induction readList s with
  | case1 => cases h
  | case2 => cases h
  | case3 s e rest read ih =>
    cases others : readList rest with
    | ok =>
      rw [others] at h
      cases h
    | error stop =>
      rw [others] at h
      cases h
      obtain ⟨t, rfl, spelled⟩ := (read?_eq_some_iff.1 read).spelled
      obtain ⟨front, es, e', rest', rfl, leading, opens, notComma⟩ := ih others
      exact ⟨t ++ ',' :: front, e :: es, e', rest', by simp, .cons spelled leading, opens, notComma⟩
  | case4 s e c' rest read notComma =>
    cases h
    exact ⟨[], [], e, rest, rfl, .nil, read?_eq_some_iff.1 read, notComma⟩

end Selection

end JsonPath
