import JsonPath.Proofs.Nesting
import JsonPath.Proofs.Selection
import JsonPath.Subscript

/-!
Subscripts, told form by form. Every subscript has one form at most, so the order in which the forms
are tried does not show.
-/

namespace JsonPath

namespace Selection

theorem isPlain_of_class {p : Char → Bool} {c : Char} (h : p c = true)
    (excluded : p '[' = false ∧ p ']' = false ∧ p '\'' = false ∧ p '"' = false) : IsPlain c := by
  obtain ⟨notOpen, notClose, notSingle, notDouble⟩ := excluded
  refine ⟨?_, ?_, ?_, ?_⟩
  · rintro rfl
    rw [notOpen] at h
    cases h
  · rintro rfl
    rw [notClose] at h
    cases h
  · rintro rfl
    rw [notSingle] at h
    cases h
  · rintro rfl
    rw [notDouble] at h
    cases h

theorem isPlain_of_numeral {t : List Char} (h : Decimal.Numeral t) : ∀ c ∈ t, IsPlain c := by
  intro c hc
  exact isPlain_of_class (h.isDigit c hc) ⟨rfl, rfl, rfl, rfl⟩

theorem isPlain_of_integer {t : List Char} {n : Int} (h : Decimal.Integer t n) :
    ∀ c ∈ t, IsPlain c := by
  cases h with
  | unsigned numeral => exact isPlain_of_numeral numeral
  | negative numeral =>
    exact List.forall_mem_cons.2 ⟨by decide, isPlain_of_numeral numeral⟩

theorem isPlain_of_bound {t : List Char} {bound : Option Index} (h : Slice.Bound t bound) :
    ∀ c ∈ t, IsPlain c := by
  cases h with
  | absent => intro c hc; cases hc
  | present spelled => exact isPlain_of_integer spelled

theorem isPlain_of_slice {t : List Char} {slice : Slice} (h : Slice.Spelled t slice) :
    ∀ c ∈ t, IsPlain c := by
  have colon : IsPlain ':' := by decide
  cases h with
  | two first second =>
    exact List.forall_mem_append.2 ⟨isPlain_of_bound first,
      List.forall_mem_cons.2 ⟨colon, isPlain_of_bound second⟩⟩
  | three first second third =>
    exact List.forall_mem_append.2 ⟨isPlain_of_bound first,
      List.forall_mem_cons.2 ⟨colon, List.forall_mem_append.2 ⟨isPlain_of_bound second,
        List.forall_mem_cons.2 ⟨colon, isPlain_of_bound third⟩⟩⟩⟩

/-- Only literals can hold brackets and quotes, and they are whole. -/
theorem Spelled.balanced {t : List Char} {e : Selection} (h : Spelled t e) : Balanced t := by
  cases h with
  | slice spelled => exact .of_plain (isPlain_of_slice spelled)
  | name spelled =>
    cases spelled with
    | intro _ first others =>
      refine .of_plain (List.forall_mem_append.2 ⟨?_, ?_⟩)
      · intro c hc
        exact isPlain_of_class (first c hc) ⟨rfl, rfl, rfl, rfl⟩
      · intro c hc
        exact isPlain_of_class (others c hc) ⟨rfl, rfl, rfl, rfl⟩
  | index spelled => exact .of_plain (isPlain_of_integer spelled)
  | literal wellFormed => exact .of_literal wellFormed

theorem Listed.balanced {s : List Char} {es : List Selection} (h : Listed s es) : Balanced s := by
  induction h with
  | last spelled => exact spelled.balanced
  | cons spelled _ ih => exact spelled.balanced.append (.plain (by decide) ih)

theorem Listed.ne_nil {s : List Char} {es : List Selection} (h : Listed s es) : es ≠ [] := by
  cases h <;> simp

end Selection

namespace Subscript

open Selection (Listed)

/-- What the text between two brackets denotes. A list of one key is that key; every other list is a
union. -/
inductive Means : List Char → Node → Prop
  | subpath {s : List Char} : Means ('$' :: '.' :: s) (.subpath (String.ofList ('$' :: '.' :: s)))
  | filter {code : List Char} :
      Means ('?' :: '(' :: (code ++ [')'])) (.filter (String.ofList code))
  | script {code : List Char} : Means ('(' :: (code ++ [')'])) (.script (String.ofList code))
  | wildcard : Means ['*'] .wildcard
  | child {s : List Char} {key : Key} (listed : Listed s [.key key]) : Means s (.child key)
  | union {s : List Char} {es : List Selection} (listed : Listed s es)
      (notKey : ∀ key, es ≠ [.key key]) : Means s (.union es)

theorem means_ofSelections {s : List Char} {es : List Selection} (h : Listed s es) :
    Means s (ofSelections es) := by
  unfold ofSelections
  split
  · exact .child h
  · rename_i notKey
    exact .union h notKey

theorem ofList_listed {s : List Char} {es : List Selection} (h : Listed s es) :
    ofList s = .ok (ofSelections es) := by
  rw [ofList, Selection.readList_eq_ok_iff.2 h]

/-- No list opens with a character that belongs to another form. -/
theorem Listed.head {s : List Char} {es : List Selection} (h : Listed s es) :
    ∃ c t, s = c :: t ∧ Selection.Starts c := by
  have read := Selection.readList_eq_ok_iff.2 h
  rw [Selection.readList] at read
  split at read
  · cases read
  · rename_i found
    exact (Selection.read?_eq_some_iff.1 found).head
  · rename_i found
    exact (Selection.read?_eq_some_iff.1 found).head

/-- A dot behind `$` is no comma, so a subpath is no list. -/
theorem readList_subpath (s : List Char) :
    Selection.readList ('$' :: '.' :: s) = .error (.stray '.' ('$' :: '.' :: s)) := by
  have dollar : Identifier.Opens ('$' :: '.' :: s) ['$'] ('.' :: s) :=
    @Identifier.Opens.intro ['$'] [] ('.' :: s) (by simp) (List.forall_mem_singleton.2 rfl)
      (Text.stops_cons.2 rfl) (by simp) (Text.stops_cons.2 rfl)
  exact Selection.readList_stray (Selection.read?_eq_some_iff.2 (.name dollar)) (by decide)

theorem not_listed_subpath (s : List Char) (es : List Selection) :
    ¬ Listed ('$' :: '.' :: s) es := by
  intro h
  have read := Selection.readList_eq_ok_iff.2 h
  rw [readList_subpath] at read
  cases read

theorem not_starts : ∀ c ∈ ['?', '(', '*'], ¬ Selection.Starts c := by
  unfold Selection.Starts
  exact List.forall_mem_cons.2 ⟨by decide, List.forall_mem_cons.2 ⟨by decide,
    List.forall_mem_singleton.2 (by decide)⟩⟩

/-- A text that begins as a list does has none of the other forms. -/
theorem node_eq_ofList {c : Char} {s : List Char} (starts : Selection.Starts c)
    (notSubpath : ∀ rest, c :: s ≠ '$' :: '.' :: rest) : node (c :: s) = ofList (c :: s) := by
  generalize whole : c :: s = t at notSubpath ⊢
  unfold node
  split
  · cases whole
  · exact absurd rfl (notSubpath _)
  · cases whole
    exact absurd starts (not_starts _ (by simp))
  · cases whole
    exact absurd starts (not_starts _ (by simp))
  · cases whole
    exact absurd starts (not_starts _ (by simp))
  · cases whole
    exact absurd starts (not_starts _ (by simp))
  · rfl

theorem node_listed {s : List Char} {es : List Selection} (h : Listed s es) :
    node s = .ok (ofSelections es) := by
  obtain ⟨c, t, rfl, starts⟩ := Listed.head h
  have notSubpath : ∀ rest, c :: t ≠ '$' :: '.' :: rest := by
    intro rest same
    rw [same] at h
    exact not_listed_subpath rest es h
  rw [node_eq_ofList starts notSubpath, ofList_listed h]

theorem ofSelections_of_ne {es : List Selection} (notKey : ∀ key, es ≠ [.key key]) :
    ofSelections es = .union es := by
  unfold ofSelections
  split
  · exact absurd rfl (notKey _)
  · rfl

theorem stem?_concat (s ending : List Char) : Text.stem? ending (s ++ ending) = some s :=
  Text.stem?_eq_some_iff.2 rfl

/-- **A subscript is accepted exactly when it has one of the forms.** -/
theorem node_eq_ok_iff {s : List Char} {n : Node} : node s = .ok n ↔ Means s n := by
  constructor
  · intro h
    unfold node at h
    split at h
    · cases h
    · cases h
      exact .subpath
    · split at h
      · rename_i code found
        cases h
        rw [Text.stem?_eq_some_iff] at found
        subst found
        exact .filter
      · cases h
    · cases h
    · split at h
      · rename_i code found
        cases h
        rw [Text.stem?_eq_some_iff] at found
        subst found
        exact .script
      · cases h
    · cases h
      exact .wildcard
    · unfold ofList at h
      split at h
      · rename_i es read
        cases h
        exact means_ofSelections (Selection.readList_eq_ok_iff.1 read)
      · cases h
      · cases h
  · intro h
    cases h with
    | subpath => rfl
    | filter => simp only [node, stem?_concat]
    | script => simp only [node, stem?_concat]
    | wildcard => rfl
    | child listed => exact node_listed listed
    | union listed notKey => rw [node_listed listed, ofSelections_of_ne notKey]

end Subscript

end JsonPath
