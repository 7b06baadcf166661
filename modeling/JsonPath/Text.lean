/-!
Texts are lists of characters. Offsets into them count bytes of UTF-8.
-/

namespace JsonPath.Text

/-- The number of bytes that a text takes in UTF-8. -/
def size (s : List Char) : Nat := s.foldl (fun n c => n + c.utf8Size) 0

private theorem foldl_size (s : List Char) (n : Nat) :
    s.foldl (fun n c => n + c.utf8Size) n = n + size s := by
  induction s generalizing n with
  | nil => rfl
  | cons c s ih =>
    simp only [size, List.foldl_cons]
    rw [ih, ih (0 + c.utf8Size)]
    omega

@[simp] theorem size_nil : size [] = 0 := rfl

@[simp] theorem size_cons (c : Char) (s : List Char) : size (c :: s) = c.utf8Size + size s := by
  rw [size, List.foldl_cons, foldl_size, Nat.zero_add]

@[simp] theorem size_append (s t : List Char) : size (s ++ t) = size s + size t := by
  rw [size, List.foldl_append, foldl_size t, ← size]

/-- The part of a text before its ending, when it has that ending. -/
def stem? (ending s : List Char) : Option (List Char) :=
  if ending <:+ s then some (s.take (s.length - ending.length)) else none

theorem stem?_eq_some_iff {ending s t : List Char} : stem? ending s = some t ↔ s = t ++ ending := by
  constructor
  · intro h
    unfold stem? at h
    split at h
    · rename_i found
      obtain ⟨front, rfl⟩ := found
      simp_all
    · cases h
  · rintro rfl
    simp [stem?]

theorem stem?_eq_none_iff {ending s : List Char} : stem? ending s = none ↔ ¬ ending <:+ s := by
  simp [stem?]

/-- The texts one after another, with a separator between neighbours. -/
def join (separator : List Char) : List (List Char) → List Char
  | [] => []
  | [s] => s
  | s :: rest => s ++ separator ++ join separator rest

end JsonPath.Text
