import JsonPath.Proofs.Wire

/-!
The forms that a reader of the wire takes. A node is an object that names its kind, or its kind and
its payload in a list. Fields come in any order, among others that do not count. Main statement: a
value is read as a path exactly when it is a list of such forms, and they say which path it is.
-/

namespace JsonPath

namespace Json

/-- What an object has under a name, if anything. Of several fields of one name the last one counts.
-/
inductive Has (fields : List (String × Json)) (name : String) : Option Json → Prop
  | field {front back : List (String × Json)} {v : Json}
      (whole : fields = front ++ (name, v) :: back) (isLast : ∀ f ∈ back, f.1 ≠ name) :
      Has fields name (some v)
  | absent (nothing : ∀ f ∈ fields, f.1 ≠ name) : Has fields name none

theorem find?_eq_none_iff {fields : List (String × Json)} {name : String} :
    find? name fields = none ↔ ∀ f ∈ fields, f.1 ≠ name := by
  induction fields with
  | nil => simp [find?]
  | cons f fields ih =>
    obtain ⟨key, v⟩ := f
    rw [List.forall_mem_cons, ← ih, find?]
    cases find? name fields with
    | none => simp
    | some w => simp

theorem find?_append_of_last {front back : List (String × Json)} {name : String} {v : Json}
    (isLast : ∀ f ∈ back, f.1 ≠ name) : find? name (front ++ (name, v) :: back) = some v := by
  induction front with
  | nil => simp [find?, find?_eq_none_iff.2 isLast]
  | cons f front ih =>
    obtain ⟨key, w⟩ := f
    rw [List.cons_append, find?, ih]

/-- A look-up finds what the object has. -/
theorem find?_eq_iff {fields : List (String × Json)} {name : String} {found : Option Json} :
    find? name fields = found ↔ Has fields name found := by
  constructor
  · rintro rfl
    induction fields with
    | nil => exact .absent (by simp)
    | cons f fields ih =>
      obtain ⟨key, v⟩ := f
      rw [find?]
      cases later : find? name fields with
      | some w =>
        rw [later] at ih
        obtain ⟨rfl, isLast⟩ | _ := ih
        exact @Has.field _ _ ((key, v) :: _) _ _ rfl isLast
      | none =>
        have nothing := find?_eq_none_iff.1 later
        by_cases same : key = name
        · subst same
          rw [if_pos rfl]
          exact @Has.field _ _ [] _ _ rfl nothing
        · rw [if_neg same]
          exact .absent (List.forall_mem_cons.2 ⟨same, nothing⟩)
  · intro h
    cases h with
    | field whole isLast =>
      rw [whole]
      exact find?_append_of_last isLast
    | absent nothing => exact find?_eq_none_iff.2 nothing

theorem exists_has (fields : List (String × Json)) (name : String) :
    ∃ found, Has fields name found :=
  ⟨_, find?_eq_iff.1 rfl⟩

/-- What an object does not have reads as null. -/
theorem Has.get_eq {fields : List (String × Json)} {name : String} {found : Option Json}
    (h : Has fields name found) : get fields name = found.getD .null := by
  rw [get, find?_eq_iff.2 h]

/-- A field that must not be null must be there. -/
theorem exists_field {P : Json → Prop} {fields : List (String × Json)} {name : String}
    (notNull : ¬ P .null) (h : P (get fields name)) : ∃ v, Has fields name (some v) ∧ P v := by
  obtain ⟨found, has⟩ := exists_has fields name
  rw [has.get_eq] at h
  cases found with
  | none => exact absurd h notNull
  | some v => exact ⟨v, has, h⟩

/-- The items of a list have a form each, and so the list has one as a whole. -/
theorem exists_forall₂_iff {α : Type} {Form : Json → α → Prop} {ws : List Json} :
    (∃ xs, List.Forall₂ Form ws xs) ↔ ∀ w ∈ ws, ∃ x, Form w x := by
  induction ws with
  | nil => simp
  | cons w ws ih =>
    rw [List.forall_mem_cons, ← ih]
    constructor
    · rintro ⟨_, each⟩
      cases each with
      | cons first others => exact ⟨⟨_, first⟩, _, others⟩
    · rintro ⟨⟨x, first⟩, xs, others⟩
      exact ⟨x :: xs, .cons first others⟩

end Json

/-! ## Payloads -/

/-- An integer of signed 64 bits. -/
inductive Index.Form : Json → Index → Prop
  | int (i : Index) : Form (.int i.toInt) i

theorem Index.ofJson?_eq_some_iff {v : Json} {i : Index} :
    Index.ofJson? v = some i ↔ Index.Form v i := by
  constructor
  · intro h
    unfold Index.ofJson? at h
    split at h
    · rw [← Index.toInt_of_ofInt? h]
      exact .int _
    · cases h
  · intro h
    cases h
    exact Index.ofJson?_int i

/-- A name is a string and an index an integer. -/
inductive Key.Form : Json → Key → Prop
  | name (s : String) : Form (.string s) (.name s)
  | index {v : Json} {i : Index} (integer : Index.Form v i) : Form v (.index i)

theorem Key.ofJson?_eq_some_iff {v : Json} {k : Key} : Key.ofJson? v = some k ↔ Key.Form v k := by
  constructor
  · intro h
    unfold Key.ofJson? at h
    split at h
    · cases h
      exact .name _
    · obtain ⟨i, read, rfl⟩ := Option.map_eq_some_iff.1 h
      exact .index (Index.ofJson?_eq_some_iff.1 read)
  · intro h
    cases h with
    | name s => rfl
    | @index v i integer =>
      cases integer
      exact Key.ofJson?_toJson (.index i)

namespace Slice

/-- The bound of a slice may be null or left out, and then there is none. -/
inductive StopForm : Option Json → Option Index → Prop
  | absent : StopForm none none
  | null : StopForm (some .null) none
  | integer {v : Json} {i : Index} (integer : Index.Form v i) : StopForm (some v) (some i)

/-- An object with its parts, or a list of exactly them. Only a field can be left out. -/
inductive Form : Json → Slice → Prop
  | object {fields : List (String × Json)} {a c : Json} {b : Option Json} {start step : Index}
      {stop : Option Index} (hasStart : Json.Has fields "start" (some a))
      (hasStop : Json.Has fields "end" b) (hasStep : Json.Has fields "step" (some c))
      (first : Index.Form a start) (second : StopForm b stop) (third : Index.Form c step) :
      Form (.object fields) ⟨start, stop, step⟩
  | list {a b c : Json} {start step : Index} {stop : Option Index} (first : Index.Form a start)
      (second : StopForm (some b) stop) (third : Index.Form c step) :
      Form (.array [a, b, c]) ⟨start, stop, step⟩

/-- A bound that is left out reads as null. -/
theorem stopOfJson?_eq_some_iff {b : Option Json} {stop : Option Index} :
    stopOfJson? (b.getD .null) = some stop ↔ StopForm b stop := by
  constructor
  · intro h
    cases b with
    | none =>
      cases h
      exact .absent
    | some v =>
      rw [Option.getD_some] at h
      unfold stopOfJson? at h
      split at h
      · cases h
        exact .null
      · obtain ⟨i, read, rfl⟩ := Option.map_eq_some_iff.1 h
        exact .integer (Index.ofJson?_eq_some_iff.1 read)
  · intro h
    cases h with
    | absent => rfl
    | null => rfl
    | integer integer =>
      cases integer
      simp [stopOfJson?]

theorem ofBounds?_eq_some_iff {a b c : Json} {s : Slice} :
    ofBounds? a b c = some s ↔
      Index.Form a s.start ∧ stopOfJson? b = some s.stop ∧ Index.Form c s.step := by
  simp only [ofBounds?, Option.bind_eq_some_iff, Option.map_eq_some_iff, Index.ofJson?_eq_some_iff]
  constructor
  · rintro ⟨start, first, stop, second, step, third, rfl⟩
    exact ⟨first, second, third⟩
  · rintro ⟨first, second, third⟩
    exact ⟨_, first, _, second, _, third, rfl⟩

theorem ofJson?_eq_some_iff {v : Json} {s : Slice} : Slice.ofJson? v = some s ↔ Form v s := by
  have notNull : ∀ i, ¬ Index.Form .null i := by rintro i ⟨⟩
  constructor
  · intro h
    unfold Slice.ofJson? at h
    split at h
    · rename_i fields
      obtain ⟨first, second, third⟩ := ofBounds?_eq_some_iff.1 h
      obtain ⟨a, hasStart, first⟩ :=
        Json.exists_field (P := (Index.Form · s.start)) (notNull _) first
      obtain ⟨c, hasStep, third⟩ := Json.exists_field (P := (Index.Form · s.step)) (notNull _) third
      obtain ⟨b, hasStop⟩ := Json.exists_has fields "end"
      rw [hasStop.get_eq, stopOfJson?_eq_some_iff] at second
      exact .object hasStart hasStop hasStep first second third
    · obtain ⟨first, second, third⟩ := ofBounds?_eq_some_iff.1 h
      exact .list first (stopOfJson?_eq_some_iff.1 second) third
    · cases h
  · intro h
    cases h with
    | object hasStart hasStop hasStep first second third =>
      rw [Slice.ofJson?, ofBounds?_eq_some_iff, hasStart.get_eq, hasStop.get_eq, hasStep.get_eq]
      exact ⟨first, stopOfJson?_eq_some_iff.2 second, third⟩
    | list first second third =>
      rw [Slice.ofJson?, ofBounds?_eq_some_iff]
      exact ⟨first, stopOfJson?_eq_some_iff.2 second, third⟩

end Slice

inductive Selection.Form : Json → Selection → Prop
  | key {v : Json} {k : Key} (form : Key.Form v k) : Form v (.key k)
  | slice {v : Json} {s : Slice} (form : Slice.Form v s) : Form v (.slice s)

/-- No form of a slice is a form of a key. -/
theorem Key.not_form_of_slice {v : Json} {s : Slice} (h : Slice.Form v s) :
    Key.ofJson? v = none := by
  cases h with
  | object => rfl
  | list => rfl

theorem Selection.ofJson?_eq_some_iff {v : Json} {e : Selection} :
    Selection.ofJson? v = some e ↔ Selection.Form v e := by
  constructor
  · intro h
    unfold Selection.ofJson? at h
    split at h
    · rename_i k read
      cases h
      exact .key (Key.ofJson?_eq_some_iff.1 read)
    · obtain ⟨s, read, rfl⟩ := Option.map_eq_some_iff.1 h
      exact .slice (Slice.ofJson?_eq_some_iff.1 read)
  · intro h
    unfold Selection.ofJson?
    cases h with
    | key form => rw [Key.ofJson?_eq_some_iff.2 form]
    | slice form =>
      rw [Key.not_form_of_slice form, Slice.ofJson?_eq_some_iff.2 form, Option.map_some]

/-! ## Nodes -/

namespace Node

/-- The parameter of a kind without payload. -/
def NoPayload (p : Option Json) : Prop := p = none ∨ p = some .null

/-- The kinds by name, with the parameters that each of them takes. -/
inductive PartsForm : String → Option Json → Node → Prop
  | root {p : Option Json} (nothing : NoPayload p) : PartsForm "root" p root
  | wildcard {p : Option Json} (nothing : NoPayload p) : PartsForm "wildcard" p wildcard
  | descent {p : Option Json} (nothing : NoPayload p) : PartsForm "recursive_descent" p descent
  | parent {p : Option Json} (nothing : NoPayload p) : PartsForm "parent" p parent
  | child {v : Json} {k : Key} (form : Key.Form v k) : PartsForm "property" (some v) (child k)
  | union {vs : List Json} {es : List Selection} (nonempty : vs ≠ [])
      (each : List.Forall₂ Selection.Form vs es) :
      PartsForm "properties" (some (.array vs)) (union es)
  | script (code : String) : PartsForm "script" (some (.string code)) (script code)
  | filter (code : String) : PartsForm "filter_script" (some (.string code)) (filter code)
  | subpath (path : String) : PartsForm "subpath" (some (.string path)) (subpath path)
  | call (f : String) : PartsForm "fn" (some (.string f)) (call f)

/-- An object with a kind and perhaps a parameter, or a list of exactly these two. -/
inductive Form : Json → Node → Prop
  | object {fields : List (String × Json)} {tag : String} {p : Option Json} {n : Node}
      (hasType : Json.Has fields "type" (some (.string tag)))
      (hasParameter : Json.Has fields "parameter" p) (parts : PartsForm tag p n) :
      Form (.object fields) n
  | list {tag : String} {p : Json} {n : Node} (parts : PartsForm tag (some p) n) :
      Form (.array [.string tag, p]) n

theorem mapM_selections_iff {vs : List Json} {es : List Selection} :
    vs.mapM Selection.ofJson? = some es ↔ List.Forall₂ Selection.Form vs es := by
  simp only [Json.mapM_eq_some_iff, Selection.ofJson?_eq_some_iff]

theorem ofParts?_eq_some_iff {tag : String} {p : Option Json} {n : Node} :
    ofParts? tag (p.getD .null) = some n ↔ PartsForm tag p n := by
  constructor
  · intro h
    generalize read : p.getD .null = v at h
    have nothing : v = .null → NoPayload p := by
      rintro rfl
      cases p with
      | none => exact .inl rfl
      | some w => exact .inr (congrArg some read)
    have something : v ≠ .null → p = some v := by
      intro notNull
      cases p with
      | none => exact absurd read.symm notNull
      | some w => exact congrArg some read
    unfold ofParts? at h
    split at h
    · cases h
      exact .root (nothing rfl)
    · cases h
      exact .wildcard (nothing rfl)
    · cases h
      exact .descent (nothing rfl)
    · cases h
      exact .parent (nothing rfl)
    · obtain ⟨k, form, rfl⟩ := Option.map_eq_some_iff.1 h
      have form := Key.ofJson?_eq_some_iff.1 form
      rw [something (by rintro rfl; cases form; rename_i wrong; cases wrong)]
      exact .child form
    · obtain ⟨es, each, rfl⟩ := Option.map_eq_some_iff.1 h
      rw [something (by simp)]
      exact .union (List.cons_ne_nil _ _) (mapM_selections_iff.1 each)
    · cases h
      rw [something (by simp)]
      exact .script _
    · cases h
      rw [something (by simp)]
      exact .filter _
    · cases h
      rw [something (by simp)]
      exact .subpath _
    · cases h
      rw [something (by simp)]
      exact .call _
    · cases h
  · intro h
    have null : ∀ {p}, NoPayload p → p.getD .null = .null := by rintro p (rfl | rfl) <;> rfl
    cases h with
    | root nothing => rw [null nothing]; rfl
    | wildcard nothing => rw [null nothing]; rfl
    | descent nothing => rw [null nothing]; rfl
    | parent nothing => rw [null nothing]; rfl
    | child form =>
      change (Key.ofJson? _).map child = _
      rw [Option.getD_some, Key.ofJson?_eq_some_iff.2 form, Option.map_some]
    | @union vs es nonempty each =>
      obtain ⟨v, vs, rfl⟩ := List.exists_cons_of_ne_nil nonempty
      change ((v :: vs).mapM Selection.ofJson?).map union = _
      rw [mapM_selections_iff.2 each, Option.map_some]
    | script code => rfl
    | filter code => rfl
    | subpath path => rfl
    | call f => rfl

theorem ofTagged?_eq_some_iff {t : Json} {p : Option Json} {n : Node} :
    ofTagged? t (p.getD .null) = some n ↔ ∃ tag, t = .string tag ∧ PartsForm tag p n := by
  rw [← exists_congr fun tag => and_congr_right' ofParts?_eq_some_iff]
  constructor
  · intro h
    unfold ofTagged? at h
    split at h
    · exact ⟨_, rfl, h⟩
    · cases h
  · rintro ⟨tag, rfl, h⟩
    exact h

theorem ofJson?_eq_some_iff {w : Json} {n : Node} : ofJson? w = some n ↔ Form w n := by
  constructor
  · intro h
    unfold ofJson? at h
    split at h
    · rename_i fields
      obtain ⟨p, hasParameter⟩ := Json.exists_has fields "parameter"
      rw [hasParameter.get_eq, ofTagged?_eq_some_iff] at h
      obtain ⟨tag, typed, parts⟩ := h
      obtain ⟨v, hasType, rfl⟩ := Json.exists_field (P := (· = .string tag)) (by simp) typed
      exact .object hasType hasParameter parts
    · rename_i t p
      change ofTagged? t ((some p).getD .null) = some n at h
      obtain ⟨tag, rfl, parts⟩ := ofTagged?_eq_some_iff.1 h
      exact .list parts
    · cases h
  · intro h
    cases h with
    | object hasType hasParameter parts =>
      rw [ofJson?, hasType.get_eq, hasParameter.get_eq]
      exact ofTagged?_eq_some_iff.2 ⟨_, rfl, parts⟩
    | list parts => exact ofTagged?_eq_some_iff.2 ⟨_, rfl, parts⟩

end Node

/-- **A reader takes exactly the wire forms.** A value is read as a path if and only if it is a
list in which every item is the form of a node, and the path then consists of the nodes of
these forms, in order. -/
theorem reader_takes_wire_forms (w : Json) :
    ((∃ path, Path.ofJson? w = some path) ↔ ∃ ws, w = .array ws ∧ ∀ v ∈ ws, ∃ n, Node.Form v n) ∧
    ∀ path, Path.ofJson? w = some path ↔ ∃ ws, w = .array ws ∧ List.Forall₂ Node.Form ws path := by
  simp only [Path.ofJson?_eq_some_iff, Node.ofJson?_eq_some_iff, implies_true, and_true]
  constructor
  · rintro ⟨path, ws, whole, each⟩
    exact ⟨ws, whole, Json.exists_forall₂_iff.1 ⟨path, each⟩⟩
  · rintro ⟨ws, whole, each⟩
    obtain ⟨path, each⟩ := Json.exists_forall₂_iff.2 each
    exact ⟨path, ws, whole, each⟩

end JsonPath
