import JsonPath.Proofs.Selection
import JsonPath.Text
import Mathlib.Data.List.Forall2

/-!
Lists of selections, told by the texts of their entries. What follows an entry decides where it
ends, so a list falls into entries in one way only, and entries with a comma behind them can be
taken off the front of any text. Main statement: a list is read exactly when its text is one, and
otherwise what is left behind all entries and commas says why.
-/

namespace JsonPath.Selection

/-- The text is entries with one comma between neighbours. Their texts are `ts`, and they say `es`.
-/
structure Splits (s : List Char) (ts : List (List Char)) (es : List Selection) : Prop where
  nonempty : ts ≠ []
  spelled : List.Forall₂ Spelled ts es
  text : s = Text.join [','] ts

/-- Behind as many entries as there are with a comma behind each, `r` is left of the text. -/
structure Remains (s : List Char) (es : List Selection) (r : List Char) : Prop where
  leading : ∃ front, s = front ++ r ∧ Leading front es
  most : ∀ front r' es', s = front ++ r' → Leading front es' → es'.length ≤ es.length

theorem splits_last {t : List Char} {e : Selection} (spelled : Spelled t e) : Splits t [t] [e] :=
  ⟨by simp, .cons spelled .nil, rfl⟩

theorem Splits.cons {t s : List Char} {e : Selection} {ts : List (List Char)} {es : List Selection}
    (spelled : Spelled t e) (others : Splits s ts es) :
    Splits (t ++ ',' :: s) (t :: ts) (e :: es) := by
  obtain ⟨nonempty, each, rfl⟩ := others
  obtain ⟨u, us, rfl⟩ := List.exists_cons_of_ne_nil nonempty
  refine ⟨by simp, .cons spelled each, ?_⟩
  simp [Text.join]

/-- A list is one entry, or an entry and a comma in front of another list. -/
theorem Splits.cases {s : List Char} {ts : List (List Char)} {es : List Selection}
    (h : Splits s ts es) :
    (∃ e, Spelled s e ∧ ts = [s] ∧ es = [e]) ∨
      ∃ t s' e ts' es', Spelled t e ∧ Splits s' ts' es' ∧ s = t ++ ',' :: s' ∧
        ts = t :: ts' ∧ es = e :: es' := by
  obtain ⟨nonempty, each, rfl⟩ := h
  cases each with
  | nil => exact absurd rfl nonempty
  | @cons t e ts es spelled others =>
    cases ts with
    | nil =>
      cases others
      exact .inl ⟨e, spelled, rfl, rfl⟩
    | cons u us =>
      have list : Splits (Text.join [','] (u :: us)) (u :: us) es := ⟨by simp, others, rfl⟩
      refine .inr ⟨t, _, e, u :: us, es, spelled, list, ?_, rfl, rfl⟩
      simp [Text.join]

theorem listed_iff_splits {s : List Char} {es : List Selection} :
    Listed s es ↔ ∃ ts, Splits s ts es := by
  constructor
  · intro h
    induction h with
    | @last t e spelled => exact ⟨[t], splits_last spelled⟩
    | @cons t s e es spelled _ ih =>
      obtain ⟨ts, others⟩ := ih
      exact ⟨t :: ts, others.cons spelled⟩
  · rintro ⟨ts, h⟩
    induction ts generalizing s es with
    | nil => exact absurd rfl h.nonempty
    | cons t ts ih =>
      rcases h.cases with ⟨e, spelled, same, rfl⟩ |
        ⟨t, s', e, ts', es', spelled, others, rfl, same, rfl⟩
      · exact .last spelled
      · cases same
        exact .cons spelled (ih others)

/-! ## The front of a text -/

theorem Opens.unique {s rest rest' : List Char} {e e' : Selection} (h : Opens s e rest)
    (h' : Opens s e' rest') : e = e' ∧ rest = rest' := by
  have both := (read?_eq_some_iff.2 h).symm.trans (read?_eq_some_iff.2 h')
  cases both
  exact ⟨rfl, rfl⟩

theorem Spelled.opens_comma {t : List Char} {e : Selection} (h : Spelled t e) (rest : List Char) :
    Opens (t ++ ',' :: rest) e (',' :: rest) := by
  apply h.opens
  intro c first
  cases first
  rfl

theorem Spelled.opens_end {t : List Char} {e : Selection} (h : Spelled t e) : Opens t e [] := by
  have opens : Opens (t ++ []) e [] := h.opens (fun _ first => nomatch first)
  rwa [List.append_nil] at opens

/-- An entry and the comma behind it are the only ones with which the text begins. -/
theorem Spelled.unique {t u s s' : List Char} {e e' : Selection} (h : Spelled t e)
    (h' : Spelled u e') (same : t ++ ',' :: s = u ++ ',' :: s') : t = u ∧ e = e' ∧ s = s' := by
  have opens := h.opens_comma s
  rw [same] at opens
  obtain ⟨rfl, rest⟩ := opens.unique (h'.opens_comma s')
  cases rest
  exact ⟨List.append_cancel_right same, rfl, rfl⟩

/-- **A list has one splitting.** A comma inside a literal is no comma between entries. -/
theorem Splits.unique {s : List Char} {ts us : List (List Char)} {es es' : List Selection}
    (h : Splits s ts es) (h' : Splits s us es') : ts = us ∧ es = es' := by
  induction ts generalizing s us es es' with
  | nil => exact absurd rfl h.nonempty
  | cons t ts ih =>
    rcases h.cases with ⟨e, spelled, same, rfl⟩ |
      ⟨t, s', e, ts', es, spelled, others, rfl, same, rfl⟩
    · cases same
      rcases h'.cases with ⟨e', spelled', rfl, rfl⟩ |
        ⟨u, s', e', us, es', spelled', _, rfl, rfl, rfl⟩
      · obtain ⟨rfl, _⟩ := spelled.opens_end.unique spelled'.opens_end
        exact ⟨rfl, rfl⟩
      · cases (spelled.opens_end.unique (spelled'.opens_comma s')).2
    · cases same
      rcases h'.cases with ⟨e', spelled', rfl, rfl⟩ |
        ⟨u, s'', e', us, es', spelled', others', same, rfl, rfl⟩
      · cases (spelled'.opens_end.unique (spelled.opens_comma s')).2
      · obtain ⟨rfl, rfl, rfl⟩ := spelled.unique spelled' same
        obtain ⟨rfl, rfl⟩ := ih others others'
        exact ⟨rfl, rfl⟩

theorem Leading.concat {front t : List Char} {es : List Selection} {e : Selection}
    (h : Leading front es) (spelled : Spelled t e) :
    Leading (front ++ (t ++ [','])) (es ++ [e]) := by
  induction h with
  | nil => exact .cons spelled .nil
  | @cons t' s e' es spelled' _ ih =>
    rw [List.append_assoc, List.cons_append, List.cons_append]
    exact .cons spelled' ih

/-- Reading takes entries with a comma behind each off the front. -/
theorem Leading.readList {front : List Char} {es : List Selection} (h : Leading front es)
    (r : List Char) : Selection.readList (front ++ r) = (Selection.readList r).map (es ++ ·) := by
  induction h with
  | nil =>
    cases same : Selection.readList r <;> simp [Except.map, same]
  | @cons t s e es spelled _ ih =>
    rw [List.append_assoc, List.cons_append,
      readList_cons (read?_eq_some_iff.2 (spelled.opens_comma _)), ih]
    cases Selection.readList r <;> rfl

/-- What remains does not begin with an entry and a comma, or else there would be more of them. -/
theorem Remains.stuck {s r : List Char} {es : List Selection} (h : Remains s es r) (e : Selection)
    (rest : List Char) : ¬ Opens r e (',' :: rest) := by
  obtain ⟨⟨front, rfl, leading⟩, most⟩ := h
  intro opens
  obtain ⟨t, rfl, spelled⟩ := opens.spelled
  have more := most _ rest _ (by simp) (leading.concat spelled)
  rw [List.length_append] at more
  exact Nat.not_succ_le_self _ more

theorem remains_of_stuck {s : List Char} (stuck : ∀ e rest, ¬ Opens s e (',' :: rest)) :
    Remains s [] s := by
  refine ⟨⟨[], rfl, .nil⟩, ?_⟩
  rintro front r' es' rfl leading
  cases leading with
  | nil => exact Nat.le_refl _
  | @cons t s e es spelled _ =>
    rw [List.append_assoc] at stuck
    exact absurd (spelled.opens_comma (s ++ r')) (stuck e _)

theorem Remains.cons {s rest r : List Char} {e : Selection} {es : List Selection}
    (opens : Opens s e (',' :: rest)) (h : Remains rest es r) : Remains s (e :: es) r := by
  obtain ⟨⟨front, rfl, leading⟩, most⟩ := h
  obtain ⟨t, rfl, spelled⟩ := opens.spelled
  refine ⟨⟨t ++ ',' :: front, by simp, .cons spelled leading⟩, ?_⟩
  intro front' r' es' same leading'
  cases leading' with
  | nil => exact Nat.zero_le _
  | @cons u s' e' es' spelled' others' =>
    rw [List.append_assoc, List.cons_append] at same
    obtain ⟨_, _, rest⟩ := spelled.unique spelled' same
    exact Nat.succ_le_succ (most s' r' es' rest others')

theorem exists_remains (s : List Char) : ∃ es r, Remains s es r := by
  fun_induction Selection.readList s with
  | case1 s unread =>
    exact ⟨[], s, remains_of_stuck fun e rest => read?_eq_none_iff.1 unread e _⟩
  | case2 s e read =>
    refine ⟨[], s, remains_of_stuck ?_⟩
    intro e' rest opens
    cases (opens.unique (read?_eq_some_iff.1 read)).2
  | case3 s e rest read ih =>
    obtain ⟨es, r, remains⟩ := ih
    exact ⟨e :: es, r, remains.cons (read?_eq_some_iff.1 read)⟩
  | case4 s e c rest read notComma =>
    refine ⟨[], s, remains_of_stuck ?_⟩
    intro e' rest' opens
    have same := (opens.unique (read?_eq_some_iff.1 read)).2
    exact notComma (List.cons.inj same).1.symm

/-! ## What reading comes to -/

/-- Nothing but what remains decides how reading ends. -/
theorem Remains.readList {s r : List Char} {es : List Selection} (h : Remains s es r) :
    Selection.readList s = (Selection.readList r).map (es ++ ·) := by
  obtain ⟨⟨front, rfl, leading⟩, _⟩ := h
  exact leading.readList r

theorem map_eq_error_iff {es : List Selection} {x : Except ListError (List Selection)}
    {stop : ListError} : x.map (es ++ ·) = .error stop ↔ x = .error stop := by
  cases x <;> simp [Except.map]

theorem readList_eq_unrecognized_iff {r : List Char} (stuck : ∀ e rest, ¬ Opens r e (',' :: rest)) :
    Selection.readList r = .error .unrecognized ↔ ∀ e rest, ¬ Opens r e rest := by
  rw [Selection.readList]
  split
  · rename_i unread
    exact iff_of_true rfl (read?_eq_none_iff.1 unread)
  · rename_i e read
    exact iff_of_false (by simp) fun nothing => nothing e [] (read?_eq_some_iff.1 read)
  · rename_i e c rest read
    have opens := read?_eq_some_iff.1 read
    have notComma : c ≠ ',' := by
      rintro rfl
      exact stuck e rest opens
    rw [if_neg notComma]
    exact iff_of_false (by simp) fun nothing => nothing e _ opens

theorem readList_eq_stray_iff {r tail : List Char} {c : Char}
    (stuck : ∀ e rest, ¬ Opens r e (',' :: rest)) :
    Selection.readList r = .error (.stray c tail) ↔ tail = r ∧ ∃ e rest, Opens r e (c :: rest) := by
  rw [Selection.readList]
  split
  · rename_i unread
    refine iff_of_false (by simp) ?_
    rintro ⟨_, e, rest, opens⟩
    exact read?_eq_none_iff.1 unread e _ opens
  · rename_i e read
    refine iff_of_false (by simp) ?_
    rintro ⟨_, e', rest, opens⟩
    cases (opens.unique (read?_eq_some_iff.1 read)).2
  · rename_i e d rest read
    have opens := read?_eq_some_iff.1 read
    have notComma : d ≠ ',' := by
      rintro rfl
      exact stuck e rest opens
    rw [if_neg notComma]
    constructor
    · intro same
      cases same
      exact ⟨rfl, e, rest, opens⟩
    · rintro ⟨rfl, e', rest', opens'⟩
      cases (opens.unique opens').2
      rfl

/-- **Lists are read exactly.** A text is read as selections exactly when it splits into entries
that say them, in order, and it splits in one way only. Where it does not split, something
remains behind all entries that have a comma behind them: reading says that nothing is
recognized exactly when no selection opens what remains, and otherwise it names the character
behind the selection that does. -/
theorem readList_accepts_lists (s : List Char) :
    (∀ es, Selection.readList s = .ok es ↔ ∃ ts, Splits s ts es) ∧
    (∀ ts us es es', Splits s ts es → Splits s us es' → ts = us ∧ es = es') ∧
    (∃ es r, Remains s es r) ∧
    ∀ es r, Remains s es r →
      (Selection.readList s = .error .unrecognized ↔ ∀ e rest, ¬ Opens r e rest) ∧
      ∀ c tail, Selection.readList s = .error (.stray c tail) ↔
        tail = r ∧ ∃ e rest, Opens r e (c :: rest) := by
  refine ⟨?_, fun ts us es es' h h' => h.unique h', exists_remains s, ?_⟩
  · intro es
    rw [readList_eq_ok_iff, listed_iff_splits]
  · intro es r remains
    rw [remains.readList]
    simp only [map_eq_error_iff]
    exact ⟨readList_eq_unrecognized_iff remains.stuck, fun c tail =>
      readList_eq_stray_iff remains.stuck⟩

/-- Digits that make no index are a bound left out, and their first one is the stray character. -/
example : Selection.readList "'a,b',1:99999999999999999999".toList =
    .error (.stray '9' "1:99999999999999999999".toList) := by cbv

end JsonPath.Selection
