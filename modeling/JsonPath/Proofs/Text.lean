import JsonPath.Text

/-!
Runs of characters of one class, which take all they can, and the bytes of a text.
-/

namespace JsonPath.Text

/-- No character of the class comes next, so a run of them ends here. -/
def Stops (p : Char → Bool) (rest : List Char) : Prop := ∀ c, rest.head? = some c → p c = false

theorem stops_nil (p : Char → Bool) : Stops p [] := by
  intro c wrong
  cases wrong

theorem stops_cons {p : Char → Bool} {c : Char} {s : List Char} :
    Stops p (c :: s) ↔ p c = false := by
  constructor
  · intro h
    exact h c rfl
  · rintro h d first
    cases first
    exact h

theorem stops_dropWhile (p : Char → Bool) (s : List Char) : Stops p (s.dropWhile p) := by
  intro c first
  have stopped := List.head?_dropWhile_not p s
  rw [first] at stopped
  exact stopped

theorem takeWhile_of_stops {p : Char → Bool} {rest : List Char} (h : Stops p rest) :
    rest.takeWhile p = [] := by
  cases rest with
  | nil => rfl
  | cons c s => simp [stops_cons.1 h]

theorem dropWhile_of_stops {p : Char → Bool} {rest : List Char} (h : Stops p rest) :
    rest.dropWhile p = rest := by
  cases rest with
  | nil => rfl
  | cons c s => simp [stops_cons.1 h]

theorem takeWhile_run {p : Char → Bool} {run rest : List Char} (inside : ∀ c ∈ run, p c = true)
    (h : Stops p rest) : (run ++ rest).takeWhile p = run := by
  rw [List.takeWhile_append_of_pos inside, takeWhile_of_stops h, List.append_nil]

theorem dropWhile_run {p : Char → Bool} {run rest : List Char} (inside : ∀ c ∈ run, p c = true)
    (h : Stops p rest) : (run ++ rest).dropWhile p = rest := by
  rw [List.dropWhile_append_of_pos inside, dropWhile_of_stops h]

/-- Where a run of one class ends is seen from the text alone. -/
theorem append_run_inj {p : Char → Bool} {run run' rest rest' : List Char}
    (inside : ∀ c ∈ run, p c = true) (inside' : ∀ c ∈ run', p c = true) (h : Stops p rest)
    (h' : Stops p rest') (same : run ++ rest = run' ++ rest') : run = run' ∧ rest = rest' := by
  constructor
  · rw [← takeWhile_run inside h, same, takeWhile_run inside' h']
  · rw [← dropWhile_run inside h, same, dropWhile_run inside' h']

theorem mem_takeWhile {p : Char → Bool} {s : List Char} {c : Char} (h : c ∈ s.takeWhile p) :
    p c = true :=
  List.all_eq_true.1 (List.all_takeWhile ..) c h

theorem utf8ByteSize_ofList (s : List Char) : (String.ofList s).utf8ByteSize = size s := by
  induction s with
  | nil => rfl
  | cons c s ih =>
    rw [String.ofList_cons, String.utf8ByteSize_append, String.utf8ByteSize_singleton, ih,
      size_cons]

/-- The bytes that offsets count are those of the text's encoding. -/
theorem size_toList (s : String) : size s.toList = s.utf8ByteSize := by
  rw [← utf8ByteSize_ofList, String.ofList_toList]

end JsonPath.Text
