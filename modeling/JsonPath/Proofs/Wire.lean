import JsonPath.Proofs.Spelling
import JsonPath.Wire.Read
import Mathlib.Data.List.Forall2

/-!
The wire form read back. Names, indices and slices have no tags and are told apart by the kind of
JSON that they are. Main statement: a path is read back as it was written exactly when none of its
unions is empty, and whatever else a reader takes has a written form that it takes too.
-/

namespace JsonPath

namespace Json

/-- The items of a list are read one by one, and one that cannot be read spoils the list. -/
theorem mapM_eq_some_iff {α β : Type} {read : α → Option β} {items : List α} {values : List β} :
    items.mapM read = some values ↔ List.Forall₂ (fun v x => read v = some x) items values := by
  induction items generalizing values with
  | nil => simp [eq_comm]
  | cons v items ih =>
    rw [List.mapM_cons, List.forall₂_cons_left_iff]
    simp only [Option.bind_eq_bind, Option.bind_eq_some_iff, ih, Option.pure_def, Option.some.injEq]
    constructor
    · rintro ⟨x, first, values, others, rfl⟩
      exact ⟨x, values, first, others, rfl⟩
    · rintro ⟨x, values, first, others, rfl⟩
      exact ⟨x, first, values, others, rfl⟩

end Json

@[simp] theorem Index.ofJson?_int (i : Index) : Index.ofJson? (.int i.toInt) = some i :=
  Index.ofInt?_toInt i

@[simp] theorem Key.ofJson?_toJson (k : Key) : Key.ofJson? k.toJson = some k := by
  cases k with
  | name s => rfl
  | index i => simp [Key.toJson, Key.ofJson?]

namespace Slice

/-- An unbounded slice is written with a null, which no index is. -/
@[simp] theorem ofJson?_toJson (s : Slice) : Slice.ofJson? s.toJson = some s := by
  obtain ⟨start, stop, step⟩ := s
  cases stop with
  | none => simp [toJson, ofJson?, ofBounds?, stopOfJson?, Json.get, Json.find?]
  | some i => simp [toJson, ofJson?, ofBounds?, stopOfJson?, Json.get, Json.find?]

end Slice

namespace Selection

@[simp] theorem ofJson?_toJson (e : Selection) : Selection.ofJson? e.toJson = some e := by
  cases e with
  | key k => simp [toJson, ofJson?]
  | slice s =>
    have notKey : Key.ofJson? s.toJson = none := rfl
    simp [toJson, ofJson?, notKey]

theorem mapM_toJson (es : List Selection) : (es.map toJson).mapM Selection.ofJson? = some es := by
  rw [Json.mapM_eq_some_iff, List.forall₂_map_left_iff, List.forall₂_same]
  intro e _
  exact ofJson?_toJson e

end Selection

namespace Node

/-- A node without payload has no parameter, which reads as null. -/
theorem ofJson?_toJson (n : Node) :
    ofJson? n.toJson = ofParts? n.tag (n.parameter?.getD .null) := by
  unfold toJson
  cases n.parameter? with
  | none => rfl
  | some p => rfl

theorem ofJson?_union (es : List Selection) :
    ofJson? (union es).toJson = if es = [] then none else some (union es) := by
  cases es with
  | nil => rfl
  | cons e es =>
    have read : ofJson? (union (e :: es)).toJson =
        (((e :: es).map Selection.toJson).mapM Selection.ofJson?).map union := ofJson?_toJson _
    rw [read, Selection.mapM_toJson]
    rfl

/-- Only the union of nothing is written and not read. -/
theorem ofJson?_toJson_eq_some_iff {n m : Node} :
    ofJson? n.toJson = some m ↔ n ≠ union [] ∧ n = m := by
  cases n with
  | union es =>
    rw [ofJson?_union]
    split
    · simp_all
    · simp_all
  | child k =>
    have read : ofJson? (child k).toJson = (Key.ofJson? k.toJson).map child := ofJson?_toJson _
    simp [read]
  | _ => simp [ofJson?_toJson, tag, parameter?, ofParts?]

theorem ofParts?_ne_empty {tag : String} {p : Json} {n : Node} (h : ofParts? tag p = some n) :
    n ≠ union [] := by
  rintro rfl
  unfold ofParts? at h
  split at h
  all_goals
    simp only [Option.map_eq_some_iff, Option.some.injEq, reduceCtorEq, and_false,
      exists_false] at h
  -- A payload of unions is left, of which the reader has seen the first selection.
  obtain ⟨es, read, same⟩ := h
  cases same
  cases Json.mapM_eq_some_iff.1 read

theorem ofTagged?_ne_empty {tag p : Json} {n : Node} (h : ofTagged? tag p = some n) :
    n ≠ union [] := by
  unfold ofTagged? at h
  split at h
  · exact ofParts?_ne_empty h
  · cases h

/-- What is read is never the union of nothing, in either form of a node. -/
theorem ofJson?_ne_empty {w : Json} {n : Node} (h : ofJson? w = some n) : n ≠ union [] := by
  unfold ofJson? at h
  split at h
  · exact ofTagged?_ne_empty h
  · exact ofTagged?_ne_empty h
  · cases h

end Node

namespace Path

theorem ofJson?_eq_some_iff {w : Json} {path : Path} :
    ofJson? w = some path ↔
      ∃ ws, w = .array ws ∧ List.Forall₂ (fun w n => Node.ofJson? w = some n) ws path := by
  constructor
  · intro h
    unfold ofJson? at h
    split at h
    · exact ⟨_, rfl, Json.mapM_eq_some_iff.1 h⟩
    · cases h
  · rintro ⟨ws, rfl, each⟩
    exact Json.mapM_eq_some_iff.2 each

/-- Lists in the place of objects, and the least index there is. -/
example : ofJson? (.array [.array [.string "properties",
    .array [.int 3, .array [.int (-9223372036854775808), .null, .int 1], .string ""]]]) =
    some [.union [.key (.index 3), .slice ⟨Int64.minValue, none, 1⟩, .key (.name "")]] := by decide

theorem ofJson?_toJson_eq_some_iff {path read : Path} :
    ofJson? path.toJson = some read ↔ .union [] ∉ path ∧ path = read := by
  have items : ofJson? path.toJson = (path.map Node.toJson).mapM Node.ofJson? := rfl
  rw [items, Json.mapM_eq_some_iff, List.forall₂_map_left_iff]
  simp only [Node.ofJson?_toJson_eq_some_iff]
  rw [List.forall₂_and_left, List.forall₂_eq_eq_eq]
  refine and_congr_left' ?_
  constructor
  · intro each inside
    exact each _ inside rfl
  · rintro absent n inside rfl
    exact absent inside

theorem no_empty_of_ofJson? {w : Json} {path : Path} (h : ofJson? w = some path) :
    .union [] ∉ path := by
  obtain ⟨ws, -, each⟩ := ofJson?_eq_some_iff.1 h
  clear h
  intro inside
  induction each with
  | nil => cases inside
  | cons first _ ih =>
    rcases List.mem_cons.1 inside with same | inside
    · exact Node.ofJson?_ne_empty first same.symm
    · exact ih inside

theorem no_empty_of_normalize {p : String} {path : Path} (h : normalize p = .ok path) :
    .union [] ∉ path := by
  obtain ⟨ts, cut, rfl⟩ := normalize_eq_ok_iff.1 h
  intro inside
  have spellable : (Node.union []).Spellable := (Scan.spellable_of_pathCut cut).each _ inside
  exact spellable.1 rfl

end Path

/-- **Round trip over the wire.** What is written for a path is read as that path, unless one of its
unions is empty: then it is not read at all. So normalized paths are read back, and paths without an
empty union differ in what is written for them. Whatever is read as a path, in one form or another,
is a path that is written and read the same from then on. -/
theorem wire_round_trip :
    (∀ path : Path,
      (Path.ofJson? path.toJson = some path ↔ .union [] ∉ path) ∧
      (.union [] ∈ path → Path.ofJson? path.toJson = none)) ∧
    (∀ p path, normalize p = .ok path → Path.ofJson? path.toJson = some path) ∧
    (∀ a b : Path, .union [] ∉ a → .union [] ∉ b → a.toJson = b.toJson → a = b) ∧
    ∀ w path, Path.ofJson? w = some path →
      .union [] ∉ path ∧ Path.ofJson? path.toJson = some path ∧
      (Path.ofJson? path.toJson).map Path.toJson = some path.toJson := by
  have back : ∀ path : Path, .union [] ∉ path → Path.ofJson? path.toJson = some path :=
    fun path absent => Path.ofJson?_toJson_eq_some_iff.2 ⟨absent, rfl⟩
  refine ⟨?_, ?_, ?_, ?_⟩
  · intro path
    refine ⟨⟨fun h => (Path.ofJson?_toJson_eq_some_iff.1 h).1, back path⟩, ?_⟩
    intro inside
    cases read : Path.ofJson? path.toJson with
    | none => rfl
    | some other => exact absurd inside (Path.ofJson?_toJson_eq_some_iff.1 read).1
  · intro p path h
    exact back path (Path.no_empty_of_normalize h)
  · intro a b ha hb same
    have read := back a ha
    rw [same, back b hb] at read
    cases read
    rfl
  · intro w path h
    have absent := Path.no_empty_of_ofJson? h
    refine ⟨absent, back path absent, ?_⟩
    rw [back path absent]
    rfl

end JsonPath
