import JsonPath.Json.Lexeme

/-!
Reading JSON. The lexemes are taken one by one; what is still open around the current place is kept
in frames, innermost first.
-/

namespace JsonPath.Json

/-- An array or object of which a value is being read. What was read before is kept newest first. -/
inductive Frame
  | items (done : List Json)
  | fields (done : List (String × Json)) (key : String)
  deriving Repr

inductive Stage
  /-- A value must come. -/
  | value
  /-- An array was opened: its first item or its end must come. -/
  | item
  /-- An object was opened: its first key or its end must come. -/
  | firstKey
  /-- A key must come. -/
  | key (done : List (String × Json))
  | colon (done : List (String × Json)) (key : String)
  /-- A value is complete: a comma or the end of what is around it must come. -/
  | after (v : Json)
  deriving Repr

structure Reading where
  frames : List Frame
  stage : Stage
  deriving Repr

namespace Reading

def start : Reading := ⟨[], .value⟩

def begin? (frames : List Frame) : Lexeme → Option Reading
  | .openArray => some ⟨frames, .item⟩
  | .openObject => some ⟨frames, .firstKey⟩
  | .scalar v => some ⟨frames, .after v⟩
  | _ => none

def step? : Reading → Lexeme → Option Reading
  | ⟨frames, .value⟩, x => begin? frames x
  | ⟨frames, .item⟩, .closeArray => some ⟨frames, .after (.array [])⟩
  | ⟨frames, .item⟩, x => begin? (.items [] :: frames) x
  | ⟨frames, .firstKey⟩, .closeObject => some ⟨frames, .after (.object [])⟩
  | ⟨frames, .firstKey⟩, .scalar (.string k) => some ⟨frames, .colon [] k⟩
  | ⟨frames, .key done⟩, .scalar (.string k) => some ⟨frames, .colon done k⟩
  | ⟨frames, .colon done k⟩, .colon => some ⟨.fields done k :: frames, .value⟩
  | ⟨.items done :: frames, .after v⟩, .comma => some ⟨.items (v :: done) :: frames, .value⟩
  | ⟨.items done :: frames, .after v⟩, .closeArray =>
    some ⟨frames, .after (.array (v :: done).reverse)⟩
  | ⟨.fields done k :: frames, .after v⟩, .comma => some ⟨frames, .key ((k, v) :: done)⟩
  | ⟨.fields done k :: frames, .after v⟩, .closeObject =>
    some ⟨frames, .after (.object ((k, v) :: done).reverse)⟩
  | _, _ => none

def value? : Reading → Option Json
  | ⟨[], .after v⟩ => some v
  | _ => none

end Reading

/-- The value that a text is, white space around it aside. -/
def read? (s : List Char) : Option Json := do
  let lexemes ← Lexeme.readAll s
  let last ← lexemes.foldlM Reading.step? Reading.start
  last.value?

end JsonPath.Json
