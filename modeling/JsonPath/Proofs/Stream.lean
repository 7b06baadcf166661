import JsonPath.Proofs.Json
import JsonPath.Proofs.Offset
import JsonPath.Proofs.Run
import JsonPath.Proofs.Wire

/-!
The output of the command as a stream of JSON values. Nothing that a record holds can break the line
that it is written on, so a reader finds the records between the line feeds and reads each of them
back. Main statement: the compact stream is one record for each expression, with all that
normalization says about it, and the indented stream is a sequence of the same values.
-/

namespace JsonPath

/-! ## Numbers on the wire -/

theorem Key.integral_toJson (k : Key) : k.toJson.Integral := by
  cases k with
  | name s => exact .string s
  | index i => exact .int _

theorem Slice.integral_toJson (s : Slice) : s.toJson.Integral := by
  obtain ⟨start, stop, step⟩ := s
  refine .object (List.forall_mem_cons.2 ⟨.int _, List.forall_mem_cons.2 ⟨?_, ?_⟩⟩)
  · cases stop with
    | none => exact .null
    | some i => exact .int _
  · exact List.forall_mem_singleton.2 (.int _)

theorem Selection.integral_toJson (e : Selection) : e.toJson.Integral := by
  cases e with
  | key k => exact k.integral_toJson
  | slice s => exact s.integral_toJson

theorem Node.integral_parameter {n : Node} {p : Json} (h : n.parameter? = some p) : p.Integral := by
  cases n <;> cases h
  case child k => exact k.integral_toJson
  case union es => exact .array (List.forall_mem_map.2 fun e _ => e.integral_toJson)
  all_goals exact .string _

theorem Node.integral_toJson (n : Node) : n.toJson.Integral := by
  unfold Node.toJson
  cases found : n.parameter? with
  | none => exact .object (List.forall_mem_singleton.2 (.string _))
  | some p =>
    have payload := Node.integral_parameter found
    exact .object (List.forall_mem_cons.2 ⟨.string _, List.forall_mem_singleton.2 payload⟩)

theorem Path.integral_toJson (path : Path) : path.toJson.Integral :=
  .array (List.forall_mem_map.2 fun n _ => n.integral_toJson)

namespace Json

/-- A text that falls into values with white space behind each of them, and nothing else. -/
inductive Sequence : List Char → List Json → Prop
  | nil : Sequence [] []
  | cons {text blank rest : List Char} {v : Json} {vs : List Json} (read : read? text = some v)
      (apart : blank ≠ []) (space : ∀ c ∈ blank, Lexeme.isSpace c = true)
      (others : Sequence rest vs) : Sequence (text ++ blank ++ rest) (v :: vs)

theorem sequence_render {vs : List Json} (each : ∀ v ∈ vs, v.Integral) (layout : Layout) :
    Sequence (vs.flatMap fun v => v.render layout ++ ['\n']) vs := by
  induction vs with
  | nil => exact .nil
  | cons v vs ih =>
    obtain ⟨first, others⟩ := List.forall_mem_cons.1 each
    exact .cons (read?_render first layout) (List.cons_ne_nil _ _) (List.forall_mem_singleton.2 rfl)
      (ih others)

end Json

namespace Command

/-! ## Bytes of lines -/

namespace Input

theorem encode_ofList (s : List Char) :
    encode (String.ofList s) = s.flatMap String.utf8EncodeChar := by
  rw [encode, String.toUTF8_eq_toByteArray, String.toByteArray_ofList, List.utf8Encode,
    List.toList_data_toByteArray]

/-- Only the line feed has the byte of a line feed in its encoding. -/
theorem lineFeed_mem_utf8EncodeChar {c : Char} (h : lineFeed ∈ String.utf8EncodeChar c) :
    c = '\n' := by
  have value := Text.toNat_of_mem_utf8EncodeChar h (by decide)
  exact Char.ext (UInt32.toNat_inj.1 value)

theorem lineFeed_not_mem_encode {s : List Char} (h : '\n' ∉ s) :
    lineFeed ∉ encode (String.ofList s) := by
  rw [encode_ofList]
  intro inside
  obtain ⟨c, hc, byte⟩ := List.mem_flatMap.1 inside
  rw [lineFeed_mem_utf8EncodeChar byte] at hc
  exact h hc

theorem count_lineFeed {lines : List String} (inside : ∀ l ∈ lines, lineFeed ∉ encode l) :
    (lines.flatMap fun l => encode l ++ [lineFeed]).count lineFeed = lines.length := by
  induction lines with
  | nil => rfl
  | cons l lines ih =>
    obtain ⟨first, others⟩ := List.forall_mem_cons.1 inside
    have noFeed := List.count_eq_zero.2 first
    rw [List.flatMap_cons, List.count_append, List.count_append, noFeed, ih others,
      List.length_cons]
    simp [Nat.add_comm]

end Input

/-! ## Records -/

theorem integral_errorJson (e : PathError) : (errorJson e).Integral :=
  .object (List.forall_mem_cons.2 ⟨.string _, List.forall_mem_singleton.2 (.string _)⟩)

/-- What a record must tell a reader about an expression: the expression itself, and either nodes
that are read as its path or the code and the message of its error. -/
inductive Tells (x : String) : Json → Prop
  | accepted {fields : List (String × Json)} {path : Path} {nodes : Json}
      (outcome : normalize x = .ok path) (keys : fields.map Prod.fst = ["expression", "nodes"])
      (expression : Json.find? "expression" fields = some (.string x))
      (found : Json.find? "nodes" fields = some nodes) (read : Path.ofJson? nodes = some path) :
      Tells x (.object fields)
  | rejected {fields : List (String × Json)} {e : PathError} (outcome : normalize x = .error e)
      (keys : fields.map Prod.fst = ["expression", "error"])
      (expression : Json.find? "expression" fields = some (.string x))
      (found : Json.find? "error" fields =
        some (.object [("code", .string e.code), ("message", .string e.message)])) :
      Tells x (.object fields)

/-- The record that the command writes about an expression. -/
def recordOf (x : String) : Json := recordJson x (normalize x)

theorem integral_recordOf (x : String) : (recordOf x).Integral := by
  unfold recordOf
  cases normalize x with
  | ok path =>
    have nodes := path.integral_toJson
    exact .object (List.forall_mem_cons.2 ⟨.string x, List.forall_mem_singleton.2 nodes⟩)
  | error e =>
    have error := integral_errorJson e
    exact .object (List.forall_mem_cons.2 ⟨.string x, List.forall_mem_singleton.2 error⟩)

theorem tells_recordOf (x : String) : Tells x (recordOf x) := by
  unfold recordOf
  cases outcome : normalize x with
  | ok path =>
    have whole := Path.no_empty_of_normalize outcome
    exact .accepted outcome rfl rfl rfl (Path.ofJson?_toJson_eq_some_iff.2 ⟨whole, rfl⟩)
  | error e => exact .rejected outcome rfl rfl rfl

/-- The line on which the compact record of an expression stands. -/
def recordLine (x : String) : String := String.ofList ((recordOf x).render .compact)

theorem lineFeed_not_mem_recordLine (x : String) : Input.lineFeed ∉ Input.encode (recordLine x) :=
  Input.lineFeed_not_mem_encode (Json.not_lineBreak_print (integral_recordOf x) 0)

theorem read?_recordLine (x : String) : Json.read? (recordLine x).toList = some (recordOf x) := by
  rw [recordLine, String.toList_ofList]
  exact Json.read?_render (integral_recordOf x) .compact

/-- Encoding goes character by character, so the bytes of the records are those of one text. -/
theorem flatMap_recordBytes_pretty (xs : List String) :
    xs.flatMap (recordBytes .pretty) =
      Input.encode (String.ofList
        ((xs.map recordOf).flatMap fun v => v.render .indented ++ ['\n'])) := by
  have lineBreak : String.utf8EncodeChar '\n' = [Input.lineFeed] := rfl
  rw [Input.encode_ofList, List.flatMap_assoc, List.flatMap_map]
  refine List.flatMap_congr fun x _ => ?_
  rw [recordBytes, Input.encode_ofList, List.flatMap_append, List.flatMap_singleton, lineBreak]
  rfl

/-- **The JSON output is a stream of records that loses nothing.** The compact output is one
line for each expression, in order, and no line feed stands in it but those that end a record.
Each line is read as an object that tells its expression and either the path or the error that
normalization gives. The indented output is a sequence of the same values with nothing but
white space between them. -/
theorem json_stream_lossless (o : Options) (stdin : List UInt8) :
    (∃ xs broken, Given o.expressions stdin xs broken) ∧
    (o.expressions ≠ [] → Given o.expressions stdin o.expressions false) ∧
    ∀ xs broken, Given o.expressions stdin xs broken →
      let output := fun format => (run { o with format, failFast := false } stdin none).written
      ∃ (lines : List String) (vs : List Json) (pretty : String),
        output .json = lines.flatMap (fun l => Input.encode l ++ [Input.lineFeed]) ∧
        (∀ l ∈ lines, Input.lineFeed ∉ Input.encode l) ∧
        (output .json).count Input.lineFeed = xs.length ∧
        List.Forall₂ (fun l v => Json.read? l.toList = some v) lines vs ∧
        List.Forall₂ Tells xs vs ∧
        output .pretty = Input.encode pretty ∧
        Json.Sequence pretty.toList vs := by
  refine ⟨exists_given _ _, .arguments, ?_⟩
  intro xs broken given output
  have written : ∀ format, output format = xs.flatMap (recordBytes format) := by
    intro format
    have same : Given { o with format, failFast := false }.expressions stdin xs broken := given
    exact (run_handled same fun wrong => nomatch wrong).2
  have compact : output .json = (xs.map recordLine).flatMap fun l =>
      Input.encode l ++ [Input.lineFeed] := by
    rw [written, List.flatMap_map]
    rfl
  have inside : ∀ l ∈ xs.map recordLine, Input.lineFeed ∉ Input.encode l :=
    List.forall_mem_map.2 fun x _ => lineFeed_not_mem_recordLine x
  refine ⟨xs.map recordLine, xs.map recordOf, _, compact, inside, ?_, ?_, ?_,
    (written .pretty).trans (flatMap_recordBytes_pretty xs), ?_⟩
  · rw [compact, Input.count_lineFeed inside, List.length_map]
  · rw [List.forall₂_map_left_iff, List.forall₂_map_right_iff, List.forall₂_same]
    exact fun x _ => read?_recordLine x
  · rw [List.forall₂_map_right_iff, List.forall₂_same]
    exact fun x _ => tells_recordOf x
  · rw [String.toList_ofList]
    exact Json.sequence_render (List.forall_mem_map.2 fun x _ => integral_recordOf x) .indented

end Command

end JsonPath
