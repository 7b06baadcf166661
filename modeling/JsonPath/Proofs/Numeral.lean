import JsonPath.Index
import JsonPath.Proofs.Text

/-!
Numerals and the integers that they spell. A reader takes the sign and all the digits that a numeral
can have, so a text opens with at most one integer, and only then asks whether it is an index.
-/

namespace JsonPath

namespace Decimal

/-- `0`, or digits of which the first is not `0`. -/
inductive Numeral : List Char → Prop
  | zero : Numeral ['0']
  | digits {d : Char} {ds : List Char} (first : d.isDigit = true) (nonzero : d ≠ '0')
      (others : ∀ c ∈ ds, c.isDigit = true) : Numeral (d :: ds)

/-- Nothing after the numeral could still belong to it. -/
def Complete (numeral rest : List Char) : Prop :=
  numeral = ['0'] ∨ Text.Stops Char.isDigit rest

/-- The text of an integer, with its value. -/
inductive Integer : List Char → Int → Prop
  | unsigned {t : List Char} (numeral : Numeral t) : Integer t (value t)
  | negative {t : List Char} (numeral : Numeral t) : Integer ('-' :: t) (-value t)

/-- The text opens with an integer, which takes all the digits that it can. -/
inductive Opens : List Char → Int → List Char → Prop
  | unsigned {t rest : List Char} (numeral : Numeral t) (complete : Complete t rest) :
      Opens (t ++ rest) (value t) rest
  | negative {t rest : List Char} (numeral : Numeral t) (complete : Complete t rest) :
      Opens ('-' :: (t ++ rest)) (-value t) rest

theorem Numeral.head {t : List Char} (h : Numeral t) :
    ∃ d ds, t = d :: ds ∧ d.isDigit = true := by
  cases h with
  | zero => exact ⟨'0', [], rfl, rfl⟩
  | digits first _ _ => exact ⟨_, _, rfl, first⟩

theorem Numeral.isDigit {t : List Char} (h : Numeral t) : ∀ c ∈ t, c.isDigit = true := by
  cases h with
  | zero => exact List.forall_mem_singleton.2 rfl
  | digits first _ others => exact List.forall_mem_cons.2 ⟨first, others⟩

theorem readNat?_numeral {t rest : List Char} (h : Numeral t) (complete : Complete t rest) :
    readNat? (t ++ rest) = some (value t, rest) := by
  cases h with
  | zero => rfl
  | @digits d ds first nonzero others =>
    have stops : Text.Stops Char.isDigit rest := by
      rcases complete with same | stops
      · exact absurd (List.cons.inj same).1 nonzero
      · exact stops
    rw [List.cons_append, readNat?, if_neg nonzero, if_pos first, Text.takeWhile_run others stops,
      Text.dropWhile_run others stops]

theorem readNat?_eq_some_iff {s rest : List Char} {n : Nat} :
    readNat? s = some (n, rest) ↔
      ∃ t, s = t ++ rest ∧ Numeral t ∧ Complete t rest ∧ n = value t := by
  constructor
  · intro h
    cases s with
    | nil => cases h
    | cons c s =>
      rw [readNat?] at h
      split at h
      · rename_i zero
        cases h
        subst zero
        exact ⟨['0'], rfl, .zero, .inl rfl, rfl⟩
      · rename_i nonzero
        split at h
        · rename_i digit
          cases h
          refine ⟨c :: s.takeWhile Char.isDigit, ?_, ?_, ?_, rfl⟩
          · rw [List.cons_append, List.takeWhile_append_dropWhile]
          · exact .digits digit nonzero fun d hd => Text.mem_takeWhile hd
          · exact .inr (Text.stops_dropWhile _ _)
        · cases h
  · rintro ⟨t, rfl, numeral, complete, rfl⟩
    exact readNat?_numeral numeral complete

theorem readInt?_unsigned {c : Char} (h : c ≠ '-') (s : List Char) :
    readInt? (c :: s) = (readNat? (c :: s)).map fun (n, rest) => ((n : Int), rest) := by
  simp [readInt?, h]

theorem readInt?_eq_some_iff {s rest : List Char} {n : Int} :
    readInt? s = some (n, rest) ↔ Opens s n rest := by
  constructor
  · intro h
    unfold readInt? at h
    split at h
    all_goals
      obtain ⟨⟨m, after⟩, read, same⟩ := Option.map_eq_some_iff.1 h
      cases same
      obtain ⟨t, rfl, numeral, complete, rfl⟩ := readNat?_eq_some_iff.1 read
    · exact .negative numeral complete
    · exact .unsigned numeral complete
  · intro h
    cases h with
    | @unsigned t rest numeral complete =>
      obtain ⟨d, ds, rfl, digit⟩ := numeral.head
      have notSign : d ≠ '-' := by
        rintro rfl
        cases digit
      rw [List.cons_append, readInt?_unsigned notSign, ← List.cons_append,
        readNat?_numeral numeral complete]
      rfl
    | negative numeral complete =>
      rw [readInt?, readNat?_numeral numeral complete]
      rfl

/-- An integer that is read is an integer's text with nothing left out at its end. -/
theorem Opens.integer {s rest : List Char} {n : Int} (h : Opens s n rest) :
    ∃ t, s = t ++ rest ∧ Integer t n := by
  cases h with
  | unsigned numeral _ => exact ⟨_, rfl, .unsigned numeral⟩
  | negative numeral _ => exact ⟨_, rfl, .negative numeral⟩

theorem Integer.opens {t rest : List Char} {n : Int} (h : Integer t n)
    (stops : Text.Stops Char.isDigit rest) : Opens (t ++ rest) n rest := by
  cases h with
  | unsigned numeral => exact .unsigned numeral (.inr stops)
  | negative numeral => exact .negative numeral (.inr stops)

/-- Where neither a sign nor a digit comes next there is no integer. -/
theorem Opens.head {s rest : List Char} {n : Int} (h : Opens s n rest) :
    ∃ c t, s = c :: t ∧ (c = '-' ∨ c.isDigit = true) := by
  cases h with
  | unsigned numeral _ =>
    obtain ⟨d, ds, rfl, digit⟩ := numeral.head
    exact ⟨d, _, rfl, .inr digit⟩
  | negative _ _ => exact ⟨'-', _, rfl, .inl rfl⟩

/-! ## Writing -/

theorem isDigit_digitChar : ∀ d < 10, (digitChar d).isDigit = true := by decide

theorem digitValue_digitChar : ∀ d < 10, digitValue (digitChar d) = d := by decide

theorem digitChar_ne_zero : ∀ d < 10, d ≠ 0 → digitChar d ≠ '0' := by decide

theorem value_digits (n : Nat) : value (digits n) = n := by
  fun_induction digits n with
  | case1 n small => simp [value, digitValue_digitChar n small]
  | case2 n large ih =>
    have last := digitValue_digitChar (n % 10) (by omega)
    simp only [value, List.foldl_append, List.foldl_cons, List.foldl_nil] at ih ⊢
    rw [ih, last]
    omega

theorem digits_head (n : Nat) (nonzero : n ≠ 0) :
    ∃ d ds, digits n = d :: ds ∧ d.isDigit = true ∧ d ≠ '0' ∧ ∀ c ∈ ds, c.isDigit = true := by
  fun_induction digits n with
  | case1 n small =>
    exact ⟨_, [], rfl, isDigit_digitChar n small, digitChar_ne_zero n small nonzero, by simp⟩
  | case2 n large ih =>
    obtain ⟨d, ds, same, digit, first, others⟩ := ih (by omega)
    refine ⟨d, ds ++ [digitChar (n % 10)], by simp [same], digit, first, ?_⟩
    intro c hc
    rcases List.mem_append.1 hc with hc | hc
    · exact others c hc
    · rw [List.mem_singleton.1 hc]
      exact isDigit_digitChar _ (by omega)

theorem numeral_digits (n : Nat) : Numeral (digits n) := by
  by_cases zero : n = 0
  · subst zero
    rw [digits]
    exact .zero
  · obtain ⟨d, ds, same, digit, first, others⟩ := digits_head n zero
    rw [same]
    exact .digits digit first others

theorem integer_render (n : Int) : Integer (render n) n := by
  cases n with
  | ofNat n =>
    have written := Integer.unsigned (numeral_digits n)
    rwa [value_digits] at written
  | negSucc n =>
    have written := Integer.negative (numeral_digits (n + 1))
    rwa [value_digits] at written

end Decimal

namespace Index

/-- The text of an index. Only numbers of signed 64 bits have one. -/
def Spelled (t : List Char) (i : Index) : Prop := Decimal.Integer t i.toInt

/-- The text opens with an integer that is an index. Where the digits make a larger number it opens
with none, although fewer digits would do. -/
def Opens (s : List Char) (i : Index) (rest : List Char) : Prop := Decimal.Opens s i.toInt rest

theorem read?_eq_some_iff {s rest : List Char} {i : Index} :
    read? s = some (i, rest) ↔ Opens s i rest := by
  simp only [read?, Option.bind_eq_some_iff, Option.map_eq_some_iff, Prod.mk.injEq, Prod.exists]
  constructor
  · rintro ⟨n, after, read, j, inRange, rfl, rfl⟩
    rw [Opens, toInt_of_ofInt? inRange]
    exact Decimal.readInt?_eq_some_iff.1 read
  · intro h
    exact ⟨i.toInt, rest, Decimal.readInt?_eq_some_iff.2 h, i, ofInt?_toInt i, rfl, rfl⟩

theorem read?_eq_none_iff {s : List Char} : read? s = none ↔ ∀ i rest, ¬ Opens s i rest := by
  constructor
  · intro h i rest opens
    rw [read?_eq_some_iff.2 opens] at h
    cases h
  · intro h
    cases found : read? s with
    | none => rfl
    | some read => exact absurd (read?_eq_some_iff.1 found) (h read.1 read.2)

theorem spelled_render (i : Index) : Spelled i.render i := Decimal.integer_render i.toInt

end Index

end JsonPath
