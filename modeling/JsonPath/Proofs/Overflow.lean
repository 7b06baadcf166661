import JsonPath.Proofs.Grammar
import JsonPath.Proofs.Listing

/-!
Lists with integers that are no indices. Where such an integer stands decides what is wrong
with the list. In front, where an entry begins, it leaves nothing to be recognized. Behind a
colon, where an index may be left out, it is left out, and its first character is one too many.
Main statement: a list that would be one if indices were unbounded is accepted exactly when all
its integers are indices.
-/

namespace JsonPath

/-- The integers of signed 64 bits. -/
def Index.Fits (n : Int) : Prop := -0x8000000000000000 ≤ n ∧ n < 0x8000000000000000

instance (n : Int) : Decidable (Index.Fits n) := inferInstanceAs (Decidable (_ ∧ _))

theorem Index.fits_iff {n : Int} : Fits n ↔ ∃ i : Index, i.toInt = n := by
  constructor
  · rintro ⟨lower, upper⟩
    exact ⟨Int64.ofInt n, Int64.toInt_ofInt_of_le lower upper⟩
  · rintro ⟨i, rfl⟩
    have lower := i.minValue_le_toInt
    have upper := i.toInt_le
    rw [Int64.toInt_minValue] at lower
    rw [Int64.toInt_maxValue] at upper
    exact ⟨lower, by omega⟩

/-- A selection in which integers may be of any size. -/
inductive Wide
  | name (name : String)
  | index (n : Int)
  | slice (start stop step : Option Int)

namespace Wide

/-- The text of a bound of any size, which may be left out. -/
inductive Bound : List Char → Option Int → Prop
  | absent : Bound [] none
  | present {t : List Char} {n : Int} (integer : Decimal.Integer t n) : Bound t (some n)

/-- The texts of a selection, the size of its integers apart. -/
inductive Spelled : List Char → Wide → Prop
  | two {a b : List Char} {start stop : Option Int} (first : Bound a start)
      (second : Bound b stop) : Spelled (a ++ ':' :: b) (.slice start stop none)
  | three {a b c : List Char} {start stop step : Option Int} (first : Bound a start)
      (second : Bound b stop) (third : Bound c step) :
      Spelled (a ++ ':' :: (b ++ ':' :: c)) (.slice start stop step)
  | name {t : List Char} (spelled : Identifier.Spelled t) : Spelled t (.name (String.ofList t))
  | index {t : List Char} {n : Int} (integer : Decimal.Integer t n) : Spelled t (.index n)
  | literal {l : Literal} (wellFormed : l.WellFormed) :
      Spelled l.spelling (.name (String.ofList l.text))

/-- Selections with one comma between neighbours. -/
inductive Listed : List Char → List Wide → Prop
  | last {t : List Char} {w : Wide} (spelled : Spelled t w) : Listed t [w]
  | cons {t s : List Char} {w : Wide} {ws : List Wide} (spelled : Spelled t w)
      (others : Listed s ws) : Listed (t ++ ',' :: s) (w :: ws)

/-- The selection has the same integers, none of which is too large. A part left out has its
default. -/
inductive Says : Wide → Selection → Prop
  | name (s : String) : Says (.name s) (.key (.name s))
  | index (i : Index) : Says (.index i.toInt) (.key (.index i))
  | slice (start stop step : Option Index) :
      Says (.slice (start.map Int64.toInt) (stop.map Int64.toInt) (step.map Int64.toInt))
        (.slice ⟨start.getD 0, stop, step.getD 1⟩)

/-- An integer is too large where the entry begins: a lone index or the start of a slice. -/
def OverflowsInFront : Wide → Prop
  | name _ => False
  | index n => ¬ Index.Fits n
  | slice start _ _ => ∃ n, start = some n ∧ ¬ Index.Fits n

/-- The first integer that is too large stands behind a colon. -/
def OverflowsBehind : Wide → Prop
  | slice start stop step => (∀ n, start = some n → Index.Fits n) ∧
      ((∃ n, stop = some n ∧ ¬ Index.Fits n) ∨ ∃ n, step = some n ∧ ¬ Index.Fits n)
  | _ => False

/-- Some integer is too large, wherever it stands. -/
def Overflows (w : Wide) : Prop := w.OverflowsInFront ∨ w.OverflowsBehind

end Wide

namespace Decimal

theorem Integer.head {t : List Char} {n : Int} (h : Integer t n) :
    ∃ c u, t = c :: u ∧ (c = '-' ∨ c.isDigit = true) := by
  have opens := h.opens (Text.stops_nil Char.isDigit)
  rw [List.append_nil] at opens
  exact opens.head

end Decimal

namespace Index

/-- An integer that is too large is no index, and no part of its digits is one. -/
theorem read?_of_overflow {t rest : List Char} {n : Int} (integer : Decimal.Integer t n)
    (large : ¬ Fits n) (stops : Text.Stops Char.isDigit rest) : read? (t ++ rest) = none := by
  have noIndex : ofInt? n = none := by
    cases found : ofInt? n with
    | none => rfl
    | some i => exact absurd (fits_iff.2 ⟨i, toInt_of_ofInt? found⟩) large
  simp only [read?, Decimal.readInt?_eq_some_iff.2 (integer.opens stops), Option.bind_some, noIndex,
    Option.map_none]

end Index

namespace Selection

/-- An integer that is too large begins no selection. -/
theorem read?_of_overflow {t rest : List Char} {n : Int} (integer : Decimal.Integer t n)
    (large : ¬ Index.Fits n) (stops : Text.Stops Char.isDigit rest) : read? (t ++ rest) = none := by
  have noIndex := Index.read?_of_overflow integer large stops
  obtain ⟨c, u, rfl, number⟩ := integer.head
  rw [List.cons_append] at noIndex ⊢
  have notColon : c ≠ ':' := by
    rintro rfl
    rcases number with wrong | wrong <;> cases wrong
  have noSlice : Slice.read? (c :: (u ++ rest)) = none := by
    refine Slice.read?_eq_none_iff.2 ?_
    intro start after bound
    cases bound with
    | present opens => exact Index.read?_eq_none_iff.1 noIndex _ _ opens
    | absent _ => exact notColon rfl
  have notHead : Identifier.isHead c = false := by
    cases head : Identifier.isHead c with
    | false => rfl
    | true => exact absurd (number.imp_right .inl) (not_starts_of_isHead head)
  have noQuote : Quote.ofChar? c = none := by
    cases found : Quote.ofChar? c with
    | none => rfl
    | some q =>
      rw [Quote.ofChar?_eq_some_iff] at found
      subst found
      cases q <;> rcases number with wrong | wrong <;> cases wrong
  simp only [read?, noSlice, no_identifier_of_head _ notHead, noIndex, Literal.read?, noQuote,
    Option.bind_none, Option.map_none]

end Selection

namespace Wide

/-- An integer that is too large opens the text. -/
def OpensLarge (s : List Char) : Prop :=
  ∃ t rest n, s = t ++ rest ∧ Decimal.Integer t n ∧ ¬ Index.Fits n

theorem OpensLarge.head {c : Char} {after : List Char} (h : OpensLarge (c :: after)) :
    c = '-' ∨ c.isDigit = true := by
  obtain ⟨t, rest, n, same, integer, _⟩ := h
  obtain ⟨d, u, rfl, number⟩ := integer.head
  cases same
  exact number

theorem OpensLarge.ne {c d : Char} {after : List Char} (h : OpensLarge (c :: after))
    (other : ¬ (d = '-' ∨ d.isDigit = true)) : c ≠ d := by
  rintro rfl
  exact other h.head

/-- What may follow an entry of a list: a comma or the end. -/
def Ends (rest : List Char) : Prop := ∀ c, rest.head? = some c → c = ','

theorem Ends.follows {rest : List Char} (h : Ends rest) : Slice.Follows rest :=
  fun c first => .inl (h c first)

theorem Bound.fits_or_overflows {t : List Char} {bound : Option Int} (h : Bound t bound) :
    (∃ i : Option Index, bound = i.map Int64.toInt ∧ Slice.Bound t i) ∨
      ∃ n, bound = some n ∧ ¬ Index.Fits n ∧ Decimal.Integer t n := by
  cases h with
  | absent => exact .inl ⟨none, rfl, .absent⟩
  | @present _ n integer =>
    by_cases fits : Index.Fits n
    · obtain ⟨i, rfl⟩ := Index.fits_iff.1 fits
      exact .inl ⟨some i, rfl, .present integer⟩
    · exact .inr ⟨n, rfl, fits, integer⟩

theorem fits_of_map {bound : Option Index} :
    ∀ n, bound.map Int64.toInt = some n → Index.Fits n := by
  intro n same
  obtain ⟨i, _, rfl⟩ := Option.map_eq_some_iff.1 same
  exact Index.fits_iff.2 ⟨i, rfl⟩

/-- A bound that is too large is left out, and its first character stands where something else must.
-/
theorem opensBound_of_overflow {t rest : List Char} {n : Int} (integer : Decimal.Integer t n)
    (large : ¬ Index.Fits n) (follows : Slice.Follows rest) :
    Slice.OpensBound (t ++ rest) none (t ++ rest) :=
  .absent (Index.read?_eq_none_iff.1 (Index.read?_of_overflow integer large follows.stops))

/-- Behind its first selection the text goes on with an integer that is too large. -/
def Strays (s : List Char) : Prop :=
  ∃ e c after, OpensLarge (c :: after) ∧ c :: after <:+ s ∧ Selection.read? s = some (e, c :: after)

theorem strays_of_opens {s t rest : List Char} {n : Int} {slice : Slice}
    (integer : Decimal.Integer t n) (large : ¬ Index.Fits n) (last : t ++ rest <:+ s)
    (opens : Slice.Opens s slice (t ++ rest)) : Strays s := by
  have opensLarge : OpensLarge (t ++ rest) := ⟨t, rest, n, rfl, integer, large⟩
  obtain ⟨c, u, rfl, _⟩ := integer.head
  exact ⟨.slice slice, c, u ++ rest, opensLarge, last, Selection.read?_eq_some_iff.2 (.slice opens)⟩

theorem strays_of_stop {a b rest : List Char} {start : Option Index} {n : Int}
    (first : Slice.Bound a start) (integer : Decimal.Integer b n) (large : ¬ Index.Fits n)
    (follows : Slice.Follows rest) : Strays (a ++ ':' :: (b ++ rest)) := by
  have second := opensBound_of_overflow integer large follows
  have noColon : ∀ after, b ++ rest ≠ ':' :: after := by
    intro after same
    exact OpensLarge.ne ⟨b, rest, n, same.symm, integer, large⟩ (by decide) rfl
  exact strays_of_opens integer large ⟨a ++ [':'], by simp⟩
    (.two (first.opens (Slice.follows_colon _)) second noColon)

theorem strays_of_step {a b c rest : List Char} {start stop : Option Index} {n : Int}
    (first : Slice.Bound a start) (second : Slice.Bound b stop) (integer : Decimal.Integer c n)
    (large : ¬ Index.Fits n) (ends : Ends rest) :
    Strays (a ++ ':' :: (b ++ ':' :: (c ++ rest))) := by
  have third := opensBound_of_overflow integer large ends.follows
  exact strays_of_opens integer large ⟨a ++ ':' :: (b ++ [':']), by simp⟩
    (.three (first.opens (Slice.follows_colon _)) (second.opens (Slice.follows_colon _)) third)

/-- How an entry is read in a list, by the first of its integers that is too large. -/
inductive Outcome (t : List Char) (w : Wide) : Prop
  | fits {e : Selection} (meaning : w.Says e) (spelled : Selection.Spelled t e)
  | front (overflows : w.OverflowsInFront)
      (nothing : ∀ rest, Ends rest → Selection.read? (t ++ rest) = none)
  | behind (overflows : w.OverflowsBehind)
      (strays : ∀ rest, Ends rest → Strays (t ++ rest))

theorem outcome_of_start {a tail : List Char} {n : Int} {stop step : Option Int}
    (integer : Decimal.Integer a n) (large : ¬ Index.Fits n) :
    Outcome (a ++ ':' :: tail) (.slice (some n) stop step) := by
  refine .front ⟨n, rfl, large⟩ ?_
  intro rest _
  rw [List.append_assoc]
  exact Selection.read?_of_overflow integer large (Text.stops_cons.2 rfl)

theorem Spelled.outcome {t : List Char} {w : Wide} (h : Spelled t w) : Outcome t w := by
  cases h with
  | name spelled => exact .fits (.name _) (.name spelled)
  | literal wellFormed => exact .fits (.name _) (.literal wellFormed)
  | @index _ n integer =>
    by_cases fits : Index.Fits n
    · obtain ⟨i, rfl⟩ := Index.fits_iff.1 fits
      exact .fits (.index i) (.index integer)
    · refine .front fits ?_
      intro rest ends
      exact Selection.read?_of_overflow integer fits ends.follows.stops
  | @two a b _ _ first second =>
    rcases first.fits_or_overflows with ⟨start, rfl, hstart⟩ | ⟨n, rfl, large, integer⟩
    · rcases second.fits_or_overflows with ⟨stop, rfl, hstop⟩ | ⟨n, rfl, large, integer⟩
      · exact .fits (.slice start stop none) (.slice (.two hstart hstop))
      · refine .behind ⟨fits_of_map, .inl ⟨n, rfl, large⟩⟩ ?_
        intro rest ends
        rw [List.append_assoc]
        exact strays_of_stop hstart integer large ends.follows
    · exact outcome_of_start integer large
  | @three a b c _ _ _ first second third =>
    rcases first.fits_or_overflows with ⟨start, rfl, hstart⟩ | ⟨n, rfl, large, integer⟩
    · rcases second.fits_or_overflows with ⟨stop, rfl, hstop⟩ | ⟨n, rfl, large, integer⟩
      · rcases third.fits_or_overflows with ⟨step, rfl, hstep⟩ | ⟨n, rfl, large, integer⟩
        · exact .fits (.slice start stop step) (.slice (.three hstart hstop hstep))
        · refine .behind ⟨fits_of_map, .inr ⟨n, rfl, large⟩⟩ ?_
          intro rest ends
          rw [List.append_assoc, List.cons_append, List.append_assoc]
          exact strays_of_step hstart hstop integer large ends
      · refine .behind ⟨fits_of_map, .inl ⟨n, rfl, large⟩⟩ ?_
        intro rest ends
        rw [List.append_assoc, List.cons_append, List.append_assoc]
        exact strays_of_stop hstart integer large (Slice.follows_colon _)
    · exact outcome_of_start integer large

theorem Says.not_overflows {w : Wide} {e : Selection} (h : w.Says e) : ¬ w.Overflows := by
  cases h with
  | name s =>
    rintro (wrong | wrong)
    · exact wrong
    · exact wrong
  | index i =>
    rintro (large | wrong)
    · exact large (Index.fits_iff.2 ⟨i, rfl⟩)
    · exact wrong
  | slice start stop step =>
    rintro (⟨n, same, large⟩ | ⟨_, ⟨n, same, large⟩ | ⟨n, same, large⟩⟩)
    · exact large (fits_of_map n same)
    · exact large (fits_of_map n same)
    · exact large (fits_of_map n same)

/-- The integer that is too large is either in front or behind, whichever comes first. -/
theorem not_behind_of_front {w : Wide} (h : w.OverflowsInFront) : ¬ w.OverflowsBehind := by
  cases w with
  | name s => exact h.elim
  | index n => exact id
  | slice start stop step =>
    rintro ⟨fits, _⟩
    obtain ⟨n, same, large⟩ := h
    exact large (fits n same)

theorem Spelled.fits {t : List Char} {w : Wide} (h : Spelled t w) (small : ¬ w.Overflows) :
    ∃ e, w.Says e ∧ Selection.Spelled t e := by
  cases h.outcome with
  | fits meaning spelled => exact ⟨_, meaning, spelled⟩
  | front overflows _ => exact absurd (.inl overflows) small
  | behind overflows _ => exact absurd (.inr overflows) small

theorem Spelled.unread {t rest : List Char} {w : Wide} (h : Spelled t w) (ends : Ends rest)
    (overflows : w.OverflowsInFront) : Selection.readList (t ++ rest) = .error .unrecognized := by
  cases h.outcome with
  | fits meaning _ => exact absurd (.inl overflows) meaning.not_overflows
  | front _ nothing => exact Selection.readList_unread (nothing rest ends)
  | behind behind _ => exact absurd behind (not_behind_of_front overflows)

theorem Spelled.strays {t rest : List Char} {w : Wide} (h : Spelled t w) (ends : Ends rest)
    (overflows : w.OverflowsBehind) : Strays (t ++ rest) := by
  cases h.outcome with
  | fits meaning _ => exact absurd (.inr overflows) meaning.not_overflows
  | front front _ => exact absurd overflows (not_behind_of_front front)
  | behind _ strays => exact strays rest ends

theorem ends_nil : Ends [] := fun _ wrong => nomatch wrong

theorem ends_comma (s : List Char) : Ends (',' :: s) := by
  intro c first
  cases first
  rfl

theorem Listed.first {s : List Char} {w : Wide} {ws : List Wide} (h : Listed s (w :: ws)) :
    ∃ t rest, s = t ++ rest ∧ Spelled t w ∧ Ends rest := by
  cases h with
  | last spelled => exact ⟨s, [], (List.append_nil s).symm, spelled, ends_nil⟩
  | cons spelled _ => exact ⟨_, _, rfl, spelled, ends_comma _⟩

theorem Listed.cons_inv {s : List Char} {w : Wide} {ws : List Wide} (h : Listed s (w :: ws))
    (more : ws ≠ []) : ∃ t s', s = t ++ ',' :: s' ∧ Spelled t w ∧ Listed s' ws := by
  cases h with
  | last _ => exact absurd rfl more
  | cons spelled others => exact ⟨_, _, rfl, spelled, others⟩

/-- Where all integers are indices the list is one. -/
theorem Listed.fits {s : List Char} {ws : List Wide} (h : Listed s ws)
    (small : ∀ w ∈ ws, ¬ w.Overflows) : ∃ es, List.Forall₂ Says ws es ∧ Selection.Listed s es := by
  induction h with
  | last spelled =>
    obtain ⟨e, meaning, spelled⟩ := spelled.fits (small _ List.mem_cons_self)
    exact ⟨[e], .cons meaning .nil, .last spelled⟩
  | cons spelled _ ih =>
    obtain ⟨first, others⟩ := List.forall_mem_cons.1 small
    obtain ⟨e, meaning, spelled⟩ := spelled.fits first
    obtain ⟨es, each, listed⟩ := ih others
    exact ⟨e :: es, .cons meaning each, .cons spelled listed⟩

/-- The list goes wrong at the beginning of an integer that is too large, behind a colon of the
first entry of `tail`. -/
structure GoesWrong (s tail : List Char) (c : Char) (ws : List Wide) : Prop where
  large : ∃ after, OpensLarge (c :: after) ∧ c :: after <:+ tail
  last : tail <:+ s
  listed : Listed tail ws

/-- Reading goes up to the first entry with an integer that is too large, and ends there. -/
theorem Listed.readList {s : List Char} {before after : List Wide} {w : Wide}
    (h : Listed s (before ++ w :: after)) (small : ∀ v ∈ before, ¬ v.Overflows) :
    (w.OverflowsInFront → Selection.readList s = .error .unrecognized) ∧
    (w.OverflowsBehind →
      ∃ c tail, GoesWrong s tail c (w :: after) ∧
        Selection.readList s = .error (.stray c tail)) := by
  induction before generalizing s with
  | nil =>
    obtain ⟨t, rest, rfl, spelled, ends⟩ := Listed.first h
    refine ⟨spelled.unread ends, ?_⟩
    intro overflows
    obtain ⟨e, c, u, large, last, read⟩ := spelled.strays ends overflows
    exact ⟨c, _, ⟨⟨u, large, last⟩, List.suffix_rfl, h⟩,
      Selection.readList_stray read (large.ne (by decide))⟩
  | cons v before ih =>
    obtain ⟨first, others⟩ := List.forall_mem_cons.1 small
    obtain ⟨t, s, rfl, spelled, listed⟩ := h.cons_inv (by simp)
    obtain ⟨e, _, spelled⟩ := spelled.fits first
    obtain ⟨front, behind⟩ := ih listed others
    rw [Selection.readList_cons (Selection.read?_eq_some_iff.2 (spelled.opens_comma s))]
    constructor
    · intro overflows
      rw [front overflows]
      rfl
    · intro overflows
      obtain ⟨c, tail, wrong, read⟩ := behind overflows
      have last := (List.suffix_cons ',' s).trans (List.suffix_append t _)
      rw [read]
      exact ⟨c, tail, { wrong with last := wrong.last.trans last }, rfl⟩

theorem exists_first_overflow {ws : List Wide} (h : ∃ w ∈ ws, w.Overflows) :
    ∃ before w after, ws = before ++ w :: after ∧ w.Overflows ∧ ∀ v ∈ before, ¬ v.Overflows := by
  induction ws with
  | nil =>
    obtain ⟨w, inside, _⟩ := h
    cases inside
  | cons v ws ih =>
    by_cases here : v.Overflows
    · exact ⟨[], v, ws, rfl, here, by simp⟩
    · obtain ⟨w, inside, overflows⟩ := h
      have later : w ∈ ws := by
        rcases List.mem_cons.1 inside with rfl | later
        · exact absurd overflows here
        · exact later
      obtain ⟨before, w, after, rfl, overflows, small⟩ := ih ⟨w, later, overflows⟩
      exact ⟨v :: before, w, after, rfl, overflows, List.forall_mem_cons.2 ⟨here, small⟩⟩

/-! ## Subscripts -/

theorem Bound.isPlain {t : List Char} {bound : Option Int} (h : Bound t bound) :
    ∀ c ∈ t, IsPlain c := by
  cases h with
  | absent => simp
  | present integer => exact Selection.isPlain_of_integer integer

theorem Spelled.balanced {t : List Char} {w : Wide} (h : Spelled t w) : Balanced t := by
  have colon : IsPlain ':' := by decide
  cases h with
  | name spelled => exact (Selection.Spelled.name spelled).balanced
  | literal wellFormed => exact .of_literal wellFormed
  | index integer => exact .of_plain (Selection.isPlain_of_integer integer)
  | two first second =>
    exact (Balanced.of_plain first.isPlain).append (.plain colon (.of_plain second.isPlain))
  | three first second third =>
    exact (Balanced.of_plain first.isPlain).append (.plain colon
      ((Balanced.of_plain second.isPlain).append (.plain colon (.of_plain third.isPlain))))

theorem Listed.balanced {s : List Char} {ws : List Wide} (h : Listed s ws) : Balanced s := by
  induction h with
  | last spelled => exact spelled.balanced
  | cons spelled _ ih => exact spelled.balanced.append (.plain (by decide) ih)

theorem Spelled.head {t : List Char} {w : Wide} (h : Spelled t w) :
    ∃ c u, t = c :: u ∧ Selection.Starts c := by
  have ofBound {a tail : List Char} {bound : Option Int} (first : Bound a bound) :
      ∃ c u, a ++ ':' :: tail = c :: u ∧ Selection.Starts c := by
    cases first with
    | absent => exact ⟨':', tail, rfl, .inr (.inr (.inl rfl))⟩
    | present integer =>
      obtain ⟨c, u, rfl, number⟩ := integer.head
      exact ⟨c, u ++ ':' :: tail, rfl, number.imp_right .inl⟩
  cases h with
  | two first _ => exact ofBound first
  | three first _ _ => exact ofBound first
  | name spelled => exact (Selection.Spelled.name spelled).opens_end.head
  | index integer =>
    obtain ⟨c, u, same, number⟩ := integer.head
    exact ⟨c, u, same, number.imp_right .inl⟩
  | literal wellFormed => exact (Selection.Spelled.literal wellFormed).opens_end.head

/-- Where a list goes wrong is at no dot. -/
theorem Listed.readList_ne_dot {s : List Char} {ws : List Wide} (h : Listed s ws)
    (tail : List Char) : Selection.readList s ≠ .error (.stray '.' tail) := by
  intro dot
  by_cases anyLarge : ∃ w ∈ ws, w.Overflows
  · obtain ⟨before, w, after, rfl, overflows, small⟩ := exists_first_overflow anyLarge
    obtain ⟨front, behind⟩ := h.readList small
    rcases overflows with overflows | overflows
    · rw [front overflows] at dot
      cases dot
    · obtain ⟨c, tail', ⟨⟨_, large, _⟩, _, _⟩, read⟩ := behind overflows
      rw [read] at dot
      cases dot
      exact large.ne (d := '.') (by decide) rfl
  · obtain ⟨es, _, listed⟩ := h.fits (by simpa using anyLarge)
    rw [Selection.readList_eq_ok_iff.2 listed] at dot
    cases dot

/-- A list is no other subscript, whatever the size of its integers. -/
theorem Listed.node {s : List Char} {ws : List Wide} (h : Listed s ws) :
    Subscript.node s = Subscript.ofList s := by
  obtain ⟨c, t, same, starts⟩ : ∃ c t, s = c :: t ∧ Selection.Starts c := by
    cases h with
    | last spelled => exact spelled.head
    | cons spelled _ =>
      obtain ⟨c, u, rfl, starts⟩ := spelled.head
      exact ⟨c, _, rfl, starts⟩
  subst same
  refine Subscript.node_eq_ofList starts ?_
  intro rest subpath
  have dot := Subscript.readList_subpath rest
  rw [← subpath] at dot
  exact h.readList_ne_dot _ dot

theorem Listed.normalize_eq {s : String} {ws : List Wide} (h : Listed s.toList ws) :
    normalize ("[" ++ s ++ "]") = (Subscript.ofList s.toList).map fun n => [n] := by
  have text : "[" ++ s ++ "]" = String.ofList ('[' :: (s.toList ++ [']'])) := by
    rw [← String.toList_inj, String.toList_ofList]
    simp
  rw [text, normalize_brackets h.balanced, h.node]

theorem Listed.normalize_ok {s : String} {ws : List Wide} (h : Listed s.toList ws)
    (small : ∀ w ∈ ws, ¬ w.Overflows) :
    ∃ es, List.Forall₂ Says ws es ∧
      normalize ("[" ++ s ++ "]") = .ok [Subscript.ofSelections es] := by
  obtain ⟨es, meaning, listed⟩ := h.fits small
  refine ⟨es, meaning, ?_⟩
  rw [h.normalize_eq, Subscript.ofList_listed listed]
  rfl

theorem Listed.normalize_error {s : String} {before after : List Wide} {w : Wide}
    (h : Listed s.toList (before ++ w :: after)) (small : ∀ v ∈ before, ¬ v.Overflows) :
    (w.OverflowsInFront → normalize ("[" ++ s ++ "]") = .error (.invalidSubscript s)) ∧
    (w.OverflowsBehind → ∃ c tail, GoesWrong s.toList tail c (w :: after) ∧
      normalize ("[" ++ s ++ "]") = .error (.invalidCharacter c (String.ofList tail))) := by
  obtain ⟨front, behind⟩ := h.readList small
  rw [h.normalize_eq, Subscript.ofList]
  constructor
  · intro overflows
    rw [front overflows, String.ofList_toList]
    rfl
  · intro overflows
    obtain ⟨c, tail, wrong, read⟩ := behind overflows
    rw [read]
    exact ⟨c, tail, wrong, rfl⟩

end Wide

/-- **No integer is taken for another one.** Of the lists that would be lists if indices were
unbounded, the path in brackets is accepted only when every integer is an index, and then it
says the same integers. The first integer that is too large makes the whole subscript invalid if
its entry begins with it; behind a colon it is a bound left out, and its first character is one
that cannot stand there. -/
theorem overflowing_list_rejected (s : String) (ws : List Wide) (listed : Wide.Listed s.toList ws) :
    ((∃ path, normalize ("[" ++ s ++ "]") = .ok path) ↔ ∀ w ∈ ws, ¬ w.Overflows) ∧
    ((∀ w ∈ ws, ¬ w.Overflows) →
      ∃ es, List.Forall₂ Wide.Says ws es ∧
        normalize ("[" ++ s ++ "]") = .ok [Subscript.ofSelections es]) ∧
    ∀ before w after, ws = before ++ w :: after → (∀ v ∈ before, ¬ v.Overflows) →
      (w.OverflowsInFront → normalize ("[" ++ s ++ "]") = .error (.invalidSubscript s)) ∧
      (w.OverflowsBehind → ∃ c tail, Wide.GoesWrong s.toList tail c (w :: after) ∧
        normalize ("[" ++ s ++ "]") = .error (.invalidCharacter c (String.ofList tail))) := by
  refine ⟨⟨?_, ?_⟩, listed.normalize_ok, ?_⟩
  · rintro ⟨path, ok⟩ w inside overflows
    obtain ⟨before, w, after, rfl, overflows, small⟩ :=
      Wide.exists_first_overflow ⟨w, inside, overflows⟩
    obtain ⟨front, behind⟩ := listed.normalize_error small
    rcases overflows with overflows | overflows
    · rw [front overflows] at ok
      cases ok
    · obtain ⟨_, _, _, error⟩ := behind overflows
      rw [error] at ok
      cases ok
  · intro small
    obtain ⟨es, _, ok⟩ := listed.normalize_ok small
    exact ⟨_, ok⟩
  · rintro before w after rfl small
    exact listed.normalize_error small

/-- One integer below all indices in front, and one above them behind a colon. -/
theorem overflowing_list_rejected_places :
    normalize "[7,-9223372036854775809:1]" = .error (.invalidSubscript "7,-9223372036854775809:1") ∧
    ∃ c tail, Wide.GoesWrong "0:99999999999999999999".toList tail c
        [.slice (some 0) (some 99999999999999999999) none] ∧
      normalize "[0:99999999999999999999]" = .error (.invalidCharacter c (String.ofList tail)) := by
  have numeral (d : Char) (ds : List Char) (first : d.isDigit = true ∧ d ≠ '0')
      (others : ds.all Char.isDigit = true) : Decimal.Numeral (d :: ds) :=
    .digits first.1 first.2 (List.all_eq_true.1 others)
  have seven : Decimal.Integer ['7'] 7 := .unsigned (numeral _ _ (by decide) (by decide))
  have one : Decimal.Integer ['1'] 1 := .unsigned (numeral _ _ (by decide) (by decide))
  have zero : Decimal.Integer ['0'] 0 := .unsigned .zero
  have below : Decimal.Integer "-9223372036854775809".toList (-9223372036854775809) :=
    .negative (numeral '9' _ (by decide) (by decide))
  have above : Decimal.Integer "99999999999999999999".toList 99999999999999999999 :=
    .unsigned (numeral '9' _ (by decide) (by decide))
  have inFront : Wide.Listed "7,-9223372036854775809:1".toList
      [.index 7, .slice (some (-9223372036854775809)) (some 1) none] :=
    .cons (.index seven) (.last (.two (.present below) (.present one)))
  have behindColon : Wide.Listed "0:99999999999999999999".toList
      [.slice (some 0) (some 99999999999999999999) none] :=
    .last (.two (.present zero) (.present above))
  have small : ∀ v ∈ [Wide.index 7], ¬ v.Overflows := by
    simp [Wide.Overflows, Wide.OverflowsInFront, Wide.OverflowsBehind, Index.Fits]
  have front := (overflowing_list_rejected _ _ inFront).2.2 [_] _ [] rfl small
  have behind := (overflowing_list_rejected _ _ behindColon).2.2 [] _ [] rfl (by simp)
  refine ⟨front.1 ⟨_, rfl, by decide⟩, behind.2 ⟨?_, .inl ⟨_, rfl, by decide⟩⟩⟩
  rintro _ ⟨⟩
  decide

/-- Behind a colon the digits are not part of an invalid subscript. -/
example : normalize "[0:99999999999999999999]" =
    .error (.invalidCharacter '9' "0:99999999999999999999") :=
  normalize_eq_error_iff.2 (by decide +kernel)

end JsonPath
