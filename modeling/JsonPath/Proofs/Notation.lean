import JsonPath.Proofs.Numeral
import JsonPath.Wire

/-!
Token notation told apart. Names and scripts are shown as they are, so their own quotes and
parentheses look like those around them. Main statement: where no text holds the character that ends
it, each token shows where it ends, and a path is known by its notation.
-/

namespace JsonPath

namespace Text

/-- The text up to a character that it does not hold ends where that character comes first. -/
theorem append_cons_inj {d : Char} {s s' rest rest' : List Char} (absent : d ∉ s) (absent' : d ∉ s')
    (same : s ++ d :: rest = s' ++ d :: rest') : s = s' ∧ rest = rest' := by
  have others : ∀ {t : List Char}, d ∉ t → ∀ c ∈ t, (c != d) = true := by
    rintro t absent c inside
    rw [bne_iff_ne]
    rintro rfl
    exact absent inside
  have stops : ∀ t : List Char, Stops (· != d) (d :: t) := fun t => stops_cons.2 (by simp)
  obtain ⟨front, back⟩ := append_run_inj (others absent) (others absent') (stops _) (stops _) same
  exact ⟨front, (List.cons.inj back).2⟩

/-! ## Lists -/

/-- What follows an item of a list in token notation: a comma or the closing bracket. -/
def EndsItem (rest : List Char) : Prop := ∃ c more, rest = c :: more ∧ (c = ',' ∨ c = ']')

/-- What stands behind the first item of a list: the other items, the closing bracket and the rest.
-/
def listTail : List (List Char) → List Char → List Char
  | [], rest => ']' :: rest
  | s :: items, rest => ',' :: ' ' :: (s ++ listTail items rest)

theorem join_cons_append (s : List Char) (items : List (List Char)) (rest : List Char) :
    join [',', ' '] (s :: items) ++ ']' :: rest = s ++ listTail items rest := by
  induction items generalizing s with
  | nil => rfl
  | cons t items ih =>
    rw [join, List.append_assoc, ih t, List.append_assoc]
    · rfl
    · exact List.cons_ne_nil t items

theorem endsItem_listTail (items : List (List Char)) (rest : List Char) :
    EndsItem (listTail items rest) := by
  cases items with
  | nil => exact ⟨']', rest, rfl, .inr rfl⟩
  | cons s items => exact ⟨',', _, rfl, .inl rfl⟩

section

variable {α : Type} {render : α → List Char} {P : α → Prop}

/-- An item ends where it does, whatever follows it in a list. -/
def SelfDelimiting (render : α → List Char) (P : α → Prop) : Prop :=
  ∀ {x y : α} {u v : List Char}, P x → P y → EndsItem u → EndsItem v →
    render x ++ u = render y ++ v → x = y ∧ u = v

theorem listTail_inj (items : SelfDelimiting render P) {xs ys : List α} {u v : List Char}
    (hx : ∀ x ∈ xs, P x) (hy : ∀ y ∈ ys, P y)
    (same : listTail (xs.map render) u = listTail (ys.map render) v) : xs = ys ∧ u = v := by
  induction xs generalizing ys with
  | nil =>
    cases ys with
    | nil => exact ⟨rfl, (List.cons.inj same).2⟩
    | cons y ys => simp [listTail] at same
  | cons x xs ih =>
    cases ys with
    | nil => simp [listTail] at same
    | cons y ys =>
      obtain ⟨first, others⟩ := List.forall_mem_cons.1 hx
      obtain ⟨first', others'⟩ := List.forall_mem_cons.1 hy
      simp only [List.map_cons, listTail, List.cons.injEq, true_and] at same
      obtain ⟨rfl, tails⟩ := items first first' (endsItem_listTail _ _) (endsItem_listTail _ _) same
      obtain ⟨rfl, rest⟩ := ih others others' tails
      exact ⟨rfl, rest⟩

/-- Items that show where they end make a list that shows where it ends. An empty list is told by
its closing bracket, with which no item begins. -/
theorem join_inj (items : SelfDelimiting render P)
    (opens : ∀ x rest more, render x ++ rest ≠ ']' :: more) {xs ys : List α} {u v : List Char}
    (hx : ∀ x ∈ xs, P x) (hy : ∀ y ∈ ys, P y)
    (same : join [',', ' '] (xs.map render) ++ ']' :: u =
      join [',', ' '] (ys.map render) ++ ']' :: v) :
    xs = ys ∧ u = v := by
  cases xs with
  | nil =>
    cases ys with
    | nil => exact ⟨rfl, (List.cons.inj same).2⟩
    | cons y ys =>
      rw [List.map_cons, join_cons_append] at same
      exact absurd same.symm (opens y _ u)
  | cons x xs =>
    cases ys with
    | nil =>
      rw [List.map_cons, join_cons_append] at same
      exact absurd same (opens x _ v)
    | cons y ys =>
      rw [List.map_cons, List.map_cons, join_cons_append, join_cons_append] at same
      obtain ⟨first, others⟩ := List.forall_mem_cons.1 hx
      obtain ⟨first', others'⟩ := List.forall_mem_cons.1 hy
      obtain ⟨rfl, tails⟩ := items first first' (endsItem_listTail _ _) (endsItem_listTail _ _) same
      obtain ⟨rfl, rest⟩ := listTail_inj items others others' tails
      exact ⟨rfl, rest⟩

end

theorem EndsItem.stops {rest : List Char} (h : EndsItem rest) : Stops Char.isDigit rest := by
  obtain ⟨c, more, rfl, rfl | rfl⟩ := h <;> exact stops_cons.2 rfl

end Text

/-! ## Selections -/

namespace Index

theorem render_head (i : Index) : ∃ c t, i.render = c :: t ∧ (c = '-' ∨ c.isDigit = true) := by
  have opens := Decimal.Integer.opens (spelled_render i) (Text.stops_nil _)
  rw [List.append_nil] at opens
  exact Decimal.Opens.head opens

/-- A character that begins no number begins no index. -/
theorem render_append_ne {c : Char} (notSign : c ≠ '-') (notDigit : c.isDigit = false) (i : Index)
    (rest more : List Char) : i.render ++ rest ≠ c :: more := by
  obtain ⟨d, t, shown, number⟩ := i.render_head
  rw [shown, List.cons_append]
  intro same
  obtain ⟨rfl, _⟩ := List.cons.inj same
  rcases number with sign | digit
  · exact notSign sign
  · rw [digit] at notDigit
    cases notDigit

theorem render_inj {i j : Index} {u v : List Char} (hu : Text.Stops Char.isDigit u)
    (hv : Text.Stops Char.isDigit v) (same : i.render ++ u = j.render ++ v) : i = j ∧ u = v := by
  have first := read?_eq_some_iff.2 (Decimal.Integer.opens (spelled_render i) hu)
  have second := read?_eq_some_iff.2 (Decimal.Integer.opens (spelled_render j) hv)
  rw [same, second] at first
  cases first
  exact ⟨rfl, rfl⟩

end Index

namespace Slice

/-- A bound that is left out leaves the colon behind it in its place. -/
theorem stop_inj {a b : Option Index} {u v : List Char}
    (same : (a.map Index.render).getD [] ++ ':' :: u = (b.map Index.render).getD [] ++ ':' :: v) :
    a = b ∧ u = v := by
  have colon : ∀ t, Text.Stops Char.isDigit (':' :: t) := fun t => Text.stops_cons.2 rfl
  cases a with
  | none =>
    cases b with
    | none => exact ⟨rfl, (List.cons.inj same).2⟩
    | some j => exact absurd same.symm (j.render_append_ne (by decide) rfl _ u)
  | some i =>
    cases b with
    | none => exact absurd same (i.render_append_ne (by decide) rfl _ v)
    | some j =>
      obtain ⟨rfl, rest⟩ := Index.render_inj (colon u) (colon v) same
      exact ⟨rfl, (List.cons.inj rest).2⟩

/-- What stands behind the bounds of a slice, which are shown between colons. -/
theorem bounds_append (s : Slice) (u : List Char) :
    (':' :: ((s.stop.map Index.render).getD [] ++ ':' :: (s.step.render ++ [')']))) ++ u =
      ':' :: ((s.stop.map Index.render).getD [] ++ ':' :: (s.step.render ++ ')' :: u)) := by
  simp

theorem render_append (s : Slice) (u : List Char) :
    s.render ++ u = "range(".toList ++
      (s.start.render ++ ':' :: ((s.stop.map Index.render).getD [] ++
      ':' :: (s.step.render ++ ')' :: u))) := by
  rw [← bounds_append, ← List.append_assoc, ← List.append_assoc]
  rfl

theorem render_inj {s t : Slice} {u v : List Char} (same : s.render ++ u = t.render ++ v) :
    s = t ∧ u = v := by
  rw [render_append, render_append] at same
  have same := List.append_cancel_left same
  obtain ⟨start, same⟩ := Index.render_inj (Text.stops_cons.2 rfl) (Text.stops_cons.2 rfl) same
  obtain ⟨stop, same⟩ := stop_inj (List.cons.inj same).2
  obtain ⟨step, same⟩ := Index.render_inj (Text.stops_cons.2 rfl) (Text.stops_cons.2 rfl) same
  refine ⟨?_, (List.cons.inj same).2⟩
  cases s
  cases t
  rw [Slice.mk.injEq]
  exact ⟨start, stop, step⟩

end Slice

namespace Key

/-- A name that does not hold the quote behind it. -/
def Legible : Key → Prop
  | name s => '\'' ∉ s.toList
  | index _ => True

instance (k : Key) : Decidable k.Legible :=
  match k with
  | name s => inferInstanceAs (Decidable ('\'' ∉ s.toList))
  | index _ => inferInstanceAs (Decidable True)

theorem render_name (s : String) (u : List Char) :
    (name s).render ++ u = '\'' :: (s.toList ++ '\'' :: u) := by
  simp [render]

/-- Names are quoted, and no index is. -/
theorem render_inj {k l : Key} {u v : List Char} (hk : k.Legible) (hl : l.Legible)
    (hu : Text.Stops Char.isDigit u) (hv : Text.Stops Char.isDigit v)
    (same : k.render ++ u = l.render ++ v) : k = l ∧ u = v := by
  cases k with
  | name s =>
    rw [render_name] at same
    cases l with
    | name t =>
      rw [render_name] at same
      obtain ⟨text, rest⟩ := Text.append_cons_inj hk hl (List.cons.inj same).2
      exact ⟨congrArg name (String.toList_inj.1 text), rest⟩
    | index j => exact absurd same.symm (j.render_append_ne (by decide) rfl _ _)
  | index i =>
    cases l with
    | name t =>
      rw [render_name] at same
      exact absurd same (i.render_append_ne (by decide) rfl _ _)
    | index j =>
      obtain ⟨rfl, rest⟩ := Index.render_inj hu hv same
      exact ⟨rfl, rest⟩

theorem render_append_ne {c : Char} (notQuote : c ≠ '\'') (notSign : c ≠ '-')
    (notDigit : c.isDigit = false) (k : Key) (rest more : List Char) :
    k.render ++ rest ≠ c :: more := by
  cases k with
  | name s =>
    rw [render_name]
    intro same
    exact notQuote (List.cons.inj same).1.symm
  | index i => exact i.render_append_ne notSign notDigit rest more

end Key

namespace Selection

def Legible : Selection → Prop
  | key k => k.Legible
  | slice _ => True

instance (e : Selection) : Decidable e.Legible :=
  match e with
  | key k => inferInstanceAs (Decidable k.Legible)
  | slice _ => inferInstanceAs (Decidable True)

theorem selfDelimiting_render : Text.SelfDelimiting render Legible := by
  intro e f u v he hf hu hv same
  cases e with
  | key k =>
    cases f with
    | key l =>
      obtain ⟨rfl, rest⟩ := Key.render_inj he hf hu.stops hv.stops same
      exact ⟨rfl, rest⟩
    | slice t => exact absurd same (k.render_append_ne (by decide) (by decide) rfl _ _)
  | slice s =>
    cases f with
    | key l => exact absurd same.symm (l.render_append_ne (by decide) (by decide) rfl _ _)
    | slice t =>
      obtain ⟨rfl, rest⟩ := Slice.render_inj same
      exact ⟨rfl, rest⟩

theorem render_append_ne (e : Selection) (rest more : List Char) :
    e.render ++ rest ≠ ']' :: more := by
  cases e with
  | key k => exact k.render_append_ne (by decide) (by decide) rfl rest more
  | slice s =>
    intro same
    cases same

end Selection

/-! ## Nodes -/

namespace Node

/-- No name holds a quote and no other text a closing parenthesis. -/
def Legible : Node → Prop
  | child k => k.Legible
  | union es => ∀ e ∈ es, e.Legible
  | script code => ')' ∉ code.toList
  | filter code => ')' ∉ code.toList
  | subpath path => ')' ∉ path.toList
  | call f => '\'' ∉ f.toList
  | _ => True

instance (n : Node) : Decidable n.Legible :=
  match n with
  | child k => inferInstanceAs (Decidable k.Legible)
  | union es => inferInstanceAs (Decidable (∀ e ∈ es, e.Legible))
  | script code => inferInstanceAs (Decidable (')' ∉ code.toList))
  | filter code => inferInstanceAs (Decidable (')' ∉ code.toList))
  | subpath path => inferInstanceAs (Decidable (')' ∉ path.toList))
  | call f => inferInstanceAs (Decidable ('\'' ∉ f.toList))
  | root => inferInstanceAs (Decidable True)
  | wildcard => inferInstanceAs (Decidable True)
  | descent => inferInstanceAs (Decidable True)
  | parent => inferInstanceAs (Decidable True)

/-- What a token shows behind the name of its kind. -/
def arguments : Node → List Char
  | child k => '(' :: (k.render ++ [')'])
  | union es => '(' :: '[' :: (Text.join [',', ' '] (es.map Selection.render) ++ [']', ')'])
  | script code => '(' :: (code.toList ++ [')'])
  | filter code => '(' :: (code.toList ++ [')'])
  | subpath path => '(' :: (path.toList ++ [')'])
  | call f => '(' :: '\'' :: (f.toList ++ ['\'', ')'])
  | _ => []

theorem append_of_opened {word name opening s : List Char} (opened : word = name ++ opening) :
    word ++ s = name ++ (opening ++ s) := by
  rw [opened, List.append_assoc]

/-- A token begins with the name of its kind, as on the wire. -/
theorem render_eq (n : Node) : n.render = n.tag.toList ++ n.arguments := by
  cases n with
  | child k =>
    have opened : "property(".toList = "property".toList ++ ['('] := by decide
    exact (List.append_assoc ..).trans (append_of_opened opened)
  | union es =>
    have opened : "properties([".toList = "properties".toList ++ ['(', '['] := by decide
    exact (List.append_assoc ..).trans (append_of_opened opened)
  | script code =>
    have opened : "script(".toList = "script".toList ++ ['('] := by decide
    exact (List.append_assoc ..).trans (append_of_opened opened)
  | filter code =>
    have opened : "filter_script(".toList = "filter_script".toList ++ ['('] := by decide
    exact (List.append_assoc ..).trans (append_of_opened opened)
  | subpath path =>
    have opened : "subpath(".toList = "subpath".toList ++ ['('] := by decide
    exact (List.append_assoc ..).trans (append_of_opened opened)
  | call f =>
    have opened : "fn('".toList = "fn".toList ++ ['(', '\''] := by decide
    exact (List.append_assoc ..).trans (append_of_opened opened)
  | _ => exact (List.append_nil _).symm

/-- The names of the kinds. -/
def tags : List String :=
  ["root", "wildcard", "recursive_descent", "parent", "property", "properties", "script",
    "filter_script", "subpath", "fn"]

theorem tag_mem (n : Node) : n.tag ∈ tags := by
  cases n <;> simp only [tag, tags, List.mem_cons, true_or, or_true]

/-- The characters of which they consist. -/
def isTag (c : Char) : Bool := c.isAlpha || c = '_'

theorem isTag_of_mem (n : Node) : ∀ c ∈ n.tag.toList, isTag c = true := by
  have each : ∀ t ∈ tags, t.toList.all isTag = true := by decide
  exact List.all_eq_true.1 (each n.tag n.tag_mem)

theorem tag_ne_nil (n : Node) : n.tag.toList ≠ [] := by
  have each : ∀ t ∈ tags, t.toList ≠ [] := by decide
  exact each n.tag n.tag_mem

/-- Behind its name a token goes on with a parenthesis, if at all. -/
theorem stops_arguments (n : Node) {u : List Char} (hu : Text.EndsItem u) :
    Text.Stops isTag (n.arguments ++ u) := by
  have ends : Text.Stops isTag u := by
    obtain ⟨c, more, rfl, rfl | rfl⟩ := hu <;> exact Text.stops_cons.2 rfl
  cases n with
  | root => exact ends
  | wildcard => exact ends
  | descent => exact ends
  | parent => exact ends
  | _ => exact Text.stops_cons.2 rfl

/-- What a token shows in parentheses, up to the closing one. -/
theorem parenthesis_inj {s t u v : List Char} (hs : ')' ∉ s) (ht : ')' ∉ t)
    (same : '(' :: (s ++ [')']) ++ u = '(' :: (t ++ [')']) ++ v) : s = t ∧ u = v := by
  apply Text.append_cons_inj hs ht
  simpa using same

/-- Tokens of one kind differ in what they show behind its name. -/
theorem selfDelimiting_render : Text.SelfDelimiting render Legible := by
  intro n m u v hn hm hu hv same
  rw [render_eq, render_eq, List.append_assoc, List.append_assoc] at same
  obtain ⟨tags, same⟩ := Text.append_run_inj n.isTag_of_mem m.isTag_of_mem (n.stops_arguments hu)
    (m.stops_arguments hv) same
  have tags := String.toList_inj.1 tags
  cases n <;> cases m <;> simp only [tag, String.reduceEq] at tags
  case child.child k l =>
    simp only [arguments, List.cons_append, List.append_assoc, List.cons.injEq, true_and] at same
    obtain ⟨rfl, rest⟩ := Key.render_inj hn hm (Text.stops_cons.2 rfl) (Text.stops_cons.2 rfl) same
    exact ⟨rfl, (List.cons.inj rest).2⟩
  case union.union es fs =>
    simp only [arguments, List.cons_append, List.append_assoc, List.cons.injEq, true_and] at same
    obtain ⟨rfl, rest⟩ :=
      Text.join_inj Selection.selfDelimiting_render Selection.render_append_ne hn hm same
    exact ⟨rfl, (List.cons.inj rest).2⟩
  case script.script code code' =>
    obtain ⟨text, rest⟩ := parenthesis_inj hn hm same
    exact ⟨congrArg script (String.toList_inj.1 text), rest⟩
  case filter.filter code code' =>
    obtain ⟨text, rest⟩ := parenthesis_inj hn hm same
    exact ⟨congrArg filter (String.toList_inj.1 text), rest⟩
  case subpath.subpath path path' =>
    obtain ⟨text, rest⟩ := parenthesis_inj hn hm same
    exact ⟨congrArg subpath (String.toList_inj.1 text), rest⟩
  case call.call f g =>
    simp only [arguments, List.cons_append, List.append_assoc, List.cons.injEq, true_and] at same
    obtain ⟨text, rest⟩ := Text.append_cons_inj hn hm same
    exact ⟨congrArg call (String.toList_inj.1 text), (List.cons.inj rest).2⟩
  all_goals exact ⟨rfl, same⟩

/-- A token begins with a character of a name, and so with no bracket. -/
theorem render_append_ne (n : Node) (rest more : List Char) : n.render ++ rest ≠ ']' :: more := by
  obtain ⟨c, s, name⟩ := List.exists_cons_of_ne_nil n.tag_ne_nil
  have inside : isTag c = true := n.isTag_of_mem c (by simp [name])
  rw [render_eq, name]
  intro same
  obtain ⟨rfl, _⟩ := List.cons.inj same
  cases inside

end Node

namespace Path

def Legible (path : Path) : Prop := ∀ n ∈ path, n.Legible

instance (path : Path) : Decidable path.Legible :=
  inferInstanceAs (Decidable (∀ n ∈ path, n.Legible))

end Path

/-- **Token notation identifies the path.** Paths in which no name holds a quote, and no script,
filter or subpath a closing parenthesis, are the same if they look the same. -/
theorem token_notation_identifies (a b : Path) (ha : a.Legible) (hb : b.Legible) :
    a.render = b.render ↔ a = b := by
  constructor
  · intro same
    have items := (List.cons.inj same).2
    exact (Text.join_inj Node.selfDelimiting_render Node.render_append_ne ha hb items).1
  · rintro rfl
    rfl

/-- A name that looks like an item and a bound, against the item and the bound. -/
theorem token_notation_identifies_union :
    Path.Legible [.union [.key (.name "1, range(0::1)"), .slice ⟨0, none, 1⟩]] ∧
      Path.Legible [.union [.key (.index 1), .slice ⟨0, some 1, 1⟩, .slice ⟨0, none, 1⟩]] ∧
      Path.render [.union [.key (.name "1, range(0::1)"), .slice ⟨0, none, 1⟩]] ≠
        Path.render [.union [.key (.index 1), .slice ⟨0, some 1, 1⟩, .slice ⟨0, none, 1⟩]] := by
  have first : Path.Legible [.union [.key (.name "1, range(0::1)"), .slice ⟨0, none, 1⟩]] := by
    decide
  have second : Path.Legible
      [.union [.key (.index 1), .slice ⟨0, some 1, 1⟩, .slice ⟨0, none, 1⟩]] := by decide
  refine ⟨first, second, ?_⟩
  intro same
  have equal := (token_notation_identifies _ _ first second).1 same
  revert equal
  decide

/-- A quote inside a name is not told from the quote behind it. -/
example : Path.render [.child (.name "a'), property('b")] =
    Path.render [.child (.name "a"), .child (.name "b")] := by decide

end JsonPath
