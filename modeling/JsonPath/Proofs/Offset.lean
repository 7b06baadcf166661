import JsonPath.Proofs.Text
import Mathlib.Tactic.SplitIfs

/-!
Texts cut at offsets. Offsets count bytes, so there are some at which no character begins, and there
a text cannot be cut. A byte below 128 is a character of its own, wherever it stands.
-/

namespace JsonPath.Text

/-- The two parts of a text at an offset. There are none past the end, nor inside a character. -/
def cut? : List Char → Nat → Option (List Char × List Char)
  | s, 0 => some ([], s)
  | [], _ + 1 => none
  | c :: s, n + 1 =>
    if c.utf8Size ≤ n + 1 then
      (cut? s (n + 1 - c.utf8Size)).map fun (front, back) => (c :: front, back)
    else none

theorem cut?_cons (c : Char) (s : List Char) {n : Nat} (positive : 0 < n) :
    cut? (c :: s) n =
      if c.utf8Size ≤ n then
        (cut? s (n - c.utf8Size)).map fun (front, back) => (c :: front, back)
      else none := by
  cases n with
  | zero => exact absurd positive (Nat.lt_irrefl 0)
  | succ n => rfl

theorem cut?_append (front back : List Char) :
    cut? (front ++ back) (size front) = some (front, back) := by
  induction front with
  | nil =>
    cases back with
    | nil => rfl
    | cons c back => rfl
  | cons c front ih =>
    have positive := c.utf8Size_pos
    rw [List.cons_append, size_cons, cut?_cons c _ (by omega), if_pos (Nat.le_add_right ..),
      Nat.add_sub_cancel_left, ih]
    rfl

theorem cut?_eq_some_iff {s front back : List Char} {n : Nat} :
    cut? s n = some (front, back) ↔ s = front ++ back ∧ n = size front := by
  constructor
  · intro h
    fun_induction cut? s n generalizing front back with
    | case1 =>
      cases h
      exact ⟨rfl, rfl⟩
    | case2 => cases h
    | case3 c s n fits ih =>
      obtain ⟨⟨front, back⟩, found, same⟩ := Option.map_eq_some_iff.1 h
      cases same
      obtain ⟨rfl, rest⟩ := ih found
      refine ⟨rfl, ?_⟩
      rw [size_cons]
      omega
    | case4 => cases h
  · rintro ⟨rfl, rfl⟩
    exact cut?_append front back

/-- The text behind an offset. -/
def after? (s : List Char) (n : Nat) : Option (List Char) := (cut? s n).map Prod.snd

/-- The text between two offsets. -/
def between? (s : List Char) (a b : Nat) : Option (List Char) :=
  (cut? s b).bind fun (front, _) => after? front a

/-- The character that begins at an offset. -/
def at? (s : List Char) (n : Nat) : Option Char := (after? s n).bind List.head?

theorem after?_eq_some_iff {s back : List Char} {n : Nat} :
    after? s n = some back ↔ ∃ front, s = front ++ back ∧ n = size front := by
  simp [after?, Option.map_eq_some_iff, cut?_eq_some_iff]

theorem between?_eq_some_iff {s t : List Char} {a b : Nat} :
    between? s a b = some t ↔
      ∃ front back, s = front ++ t ++ back ∧ a = size front ∧ b = size (front ++ t) := by
  simp only [between?, Option.bind_eq_some_iff, after?_eq_some_iff, Prod.exists, cut?_eq_some_iff]
  constructor
  · rintro ⟨_, back, ⟨rfl, rfl⟩, front, rfl, rfl⟩
    exact ⟨front, back, rfl, rfl, rfl⟩
  · rintro ⟨front, back, rfl, rfl, rfl⟩
    exact ⟨_, back, ⟨rfl, rfl⟩, front, rfl, rfl⟩

theorem at?_eq_some_iff {s : List Char} {c : Char} {n : Nat} :
    at? s n = some c ↔ ∃ front back, s = front ++ c :: back ∧ n = size front := by
  simp only [at?, Option.bind_eq_some_iff, after?_eq_some_iff, List.head?_eq_some_iff]
  constructor
  · rintro ⟨_, ⟨front, rfl, rfl⟩, back, rfl⟩
    exact ⟨front, back, rfl, rfl⟩
  · rintro ⟨front, back, rfl, rfl⟩
    exact ⟨_, ⟨front, rfl, rfl⟩, back, rfl⟩

@[simp] theorem after?_append (front back : List Char) :
    after? (front ++ back) (size front) = some back :=
  after?_eq_some_iff.2 ⟨front, rfl, rfl⟩

/-- A character is looked up by what stands in front of it. -/
theorem at?_append (front back : List Char) : at? (front ++ back) (size front) = back.head? := by
  rw [at?, after?_append, Option.bind_some]

theorem at?_cons (c : Char) (s : List Char) {n : Nat} (positive : 0 < n) :
    at? (c :: s) n = if c.utf8Size ≤ n then at? s (n - c.utf8Size) else none := by
  rw [at?, after?, cut?_cons c s positive]
  split
  · rw [at?, after?, Option.map_map]
    rfl
  · rfl

/-- The offsets at which a text can be cut are those that stand between its characters. -/
theorem isValid_iff {p : String} {n : Nat} :
    (⟨n⟩ : String.Pos.Raw).IsValid p ↔ ∃ front back, p.toList = front ++ back ∧ n = size front := by
  rw [String.Pos.Raw.isValid_iff_exists_append]
  constructor
  · rintro ⟨front, back, rfl, offset⟩
    refine ⟨front.toList, back.toList, String.toList_append, ?_⟩
    rw [size_toList]
    exact congrArg String.Pos.Raw.byteIdx offset
  · rintro ⟨front, back, whole, rfl⟩
    refine ⟨String.ofList front, String.ofList back, ?_, ?_⟩
    · rw [← String.ofList_append, ← whole, String.ofList_toList]
    · rw [← utf8ByteSize_ofList]
      rfl

/-! ## Bytes -/

/-- The bytes of a text in UTF-8. -/
def bytes (s : List Char) : List UInt8 := s.flatMap String.utf8EncodeChar

theorem utf8EncodeChar_ascii {c : Char} (h : c.toNat < 128) :
    String.utf8EncodeChar c = [UInt8.ofNat c.toNat] := by
  unfold String.utf8EncodeChar
  exact if_pos (Nat.le_of_lt_succ h)

/-- Only an ASCII character has a byte below 128 in its encoding. -/
theorem toNat_of_mem_utf8EncodeChar {c : Char} {b : UInt8} (h : b ∈ String.utf8EncodeChar c)
    (ascii : b < 128) : c.toNat = b.toNat := by
  have byte : b.toNat ∈ (String.utf8EncodeChar c).map UInt8.toNat := List.mem_map_of_mem h
  have small : b.toNat < 128 := UInt8.lt_iff_toNat_lt.1 ascii
  change c.val.toNat = b.toNat
  unfold String.utf8EncodeChar at byte
  dsimp only at byte
  -- An encoding of several bytes has none below 128.
  split_ifs at byte
  all_goals
    simp only [List.map_cons, List.map_nil, List.mem_cons, List.not_mem_nil, or_false,
      UInt8.toNat_ofNat'] at byte
    omega

theorem utf8Size_ascii {c : Char} (h : c.toNat < 128) : c.utf8Size = 1 := by
  rw [← String.length_utf8EncodeChar, utf8EncodeChar_ascii h]
  rfl

/-- The ASCII character at an offset, read off the one byte that stands there. -/
def ascii? (s : List Char) (n : Nat) : Option Char :=
  (bytes s)[n]?.bind fun b => if b < 128 then some (Char.ofNat b.toNat) else none

/-- Inside the encoding of a character there is no ASCII character. -/
theorem ascii?_cons_of_lt {c : Char} {s : List Char} {n : Nat} (inside : n < c.utf8Size) :
    ascii? (c :: s) n = if c.toNat < 128 then some c else none := by
  have here : (bytes (c :: s))[n]? = (String.utf8EncodeChar c)[n]? := by
    rw [bytes, List.flatMap_cons, List.getElem?_append_left]
    rw [String.length_utf8EncodeChar]
    exact inside
  rw [ascii?, here]
  by_cases ascii : c.toNat < 128
  · obtain rfl : n = 0 := by
      rw [utf8Size_ascii ascii] at inside
      omega
    have byte : (UInt8.ofNat c.toNat).toNat = c.toNat := by
      rw [UInt8.toNat_ofNat']
      omega
    have small : UInt8.ofNat c.toNat < 128 := by
      rw [UInt8.lt_iff_toNat_lt, byte]
      exact ascii
    rw [utf8EncodeChar_ascii ascii, List.getElem?_cons_zero, Option.bind_some, if_pos small, byte,
      Char.ofNat_toNat, if_pos ascii]
  · rw [if_neg ascii, Option.bind_eq_none_iff]
    intro b found
    have mem := List.mem_of_getElem? found
    refine if_neg fun small => ascii ?_
    rw [toNat_of_mem_utf8EncodeChar mem small]
    exact UInt8.lt_iff_toNat_lt.1 small

theorem ascii?_cons_of_le {c : Char} {s : List Char} {n : Nat} (behind : c.utf8Size ≤ n) :
    ascii? (c :: s) n = ascii? s (n - c.utf8Size) := by
  rw [ascii?, ascii?, bytes, bytes, List.flatMap_cons, List.getElem?_append_right,
    String.length_utf8EncodeChar]
  rw [String.length_utf8EncodeChar]
  exact behind

/-- Looking at one byte is enough to know an ASCII character, wherever the byte stands. -/
theorem ascii?_eq_some_iff {s : List Char} {n : Nat} {d : Char} :
    ascii? s n = some d ↔ at? s n = some d ∧ d.toNat < 128 := by
  induction s generalizing n with
  | nil => cases n <;> simp [ascii?, bytes, at?, after?, cut?]
  | cons c s ih =>
    have positive := c.utf8Size_pos
    by_cases behind : c.utf8Size ≤ n
    · rw [ascii?_cons_of_le behind, at?_cons c s (by omega), if_pos behind, ih]
    · rw [ascii?_cons_of_lt (by omega)]
      by_cases first : n = 0
      · subst n
        have here : at? (c :: s) 0 = some c := rfl
        rw [here]
        constructor
        · intro found
          obtain ⟨ascii, same⟩ := Option.ite_none_right_eq_some.1 found
          cases same
          exact ⟨rfl, ascii⟩
        · rintro ⟨same, ascii⟩
          cases same
          exact if_pos ascii
      · have notAscii : ¬ c.toNat < 128 := fun ascii => by
          have one := utf8Size_ascii ascii
          omega
        rw [at?_cons c s (by omega), if_neg behind, if_neg notAscii]
        simp

theorem lt_size_of_ascii? {s : List Char} {n : Nat} {d : Char} (h : ascii? s n = some d) :
    n < size s := by
  obtain ⟨front, back, rfl, rfl⟩ := at?_eq_some_iff.1 (ascii?_eq_some_iff.1 h).1
  have positive := d.utf8Size_pos
  rw [size_append, size_cons]
  omega

/-- What stands behind a character of one byte. -/
theorem ascii?_next (front : List Char) {after : List Char} {c d : Char} (one : c.utf8Size = 1)
    (small : d.toNat < 128) :
    ascii? (front ++ c :: after) (size front + 1) = some d ↔ after.head? = some d := by
  have whole : front ++ c :: after = (front ++ [c]) ++ after := by
    rw [List.append_assoc]
    rfl
  have offset : size front + 1 = size (front ++ [c]) := by simp [one]
  rw [whole, offset, ascii?_eq_some_iff, at?_append]
  exact and_iff_left small

theorem size_le_next_iff (front : List Char) {after : List Char} {c : Char} (one : c.utf8Size = 1) :
    size (front ++ c :: after) ≤ size front + 1 ↔ after = [] := by
  rw [size_append, size_cons, one]
  cases after with
  | nil => simp
  | cons d after =>
    have positive := d.utf8Size_pos
    rw [size_cons]
    constructor
    · intro short
      omega
    · intro wrong
      cases wrong

/-! ## Cursors -/

/-- Where a cursor is that moves by bytes, has passed over `front` and comes to `rest`: between the
two, or inside the character with which `rest` begins. -/
inductive Stands (front : List Char) : List Char → Nat → Prop
  | between {rest : List Char} : Stands front rest (size front)
  | inside {c : Char} {rest : List Char} {n : Nat} (begun : size front < n)
      (unfinished : n < size front + c.utf8Size) : Stands front (c :: rest) n

namespace Stands

variable {front rest : List Char} {c : Char} {n : Nat}

theorem at_end (h : Stands front [] n) : n = size front := by
  cases h
  rfl

theorem of_ascii (h : Stands front (c :: rest) n) (ascii : c.toNat < 128) : n = size front := by
  cases h with
  | between => rfl
  | inside begun unfinished =>
    rw [utf8Size_ascii ascii] at unfinished
    omega

theorem front_le (h : Stands front rest n) : size front ≤ n := by
  cases h with
  | between => exact Nat.le_refl _
  | inside begun _ => exact Nat.le_of_lt begun

theorem lt_next (h : Stands front (c :: rest) n) : n < size front + c.utf8Size := by
  cases h with
  | between => exact Nat.lt_add_of_pos_right c.utf8Size_pos
  | inside _ unfinished => exact unfinished

theorem lt_size (h : Stands front (c :: rest) n) : n < size (front ++ c :: rest) := by
  have unfinished := h.lt_next
  rw [size_append, size_cons]
  omega

theorem le_size (h : Stands front rest n) : n ≤ size (front ++ rest) := by
  cases rest with
  | nil => exact Nat.le_of_eq (by rw [h.at_end, List.append_nil])
  | cons c rest => exact Nat.le_of_lt h.lt_size

/-- No character begins inside another. -/
theorem at?_inside (begun : size front < n) (unfinished : n < size front + c.utf8Size) :
    at? (front ++ c :: rest) n = none := by
  rw [Option.eq_none_iff_forall_ne_some]
  intro d found
  obtain ⟨before, back, whole, rfl⟩ := at?_eq_some_iff.1 found
  obtain ⟨more, rfl, tail⟩ | ⟨more, rfl, tail⟩ := List.append_eq_append_iff.1 whole
  · cases more with
    | nil => simp at begun
    | cons e more =>
      obtain ⟨rfl, _⟩ := List.cons.inj tail
      rw [size_append, size_cons] at unfinished
      omega
  · rw [size_append] at begun
    omega

theorem ascii?_inside (begun : size front < n) (unfinished : n < size front + c.utf8Size) :
    ascii? (front ++ c :: rest) n = none := by
  rw [Option.eq_none_iff_forall_ne_some]
  intro d found
  have here := (ascii?_eq_some_iff.1 found).1
  rw [at?_inside begun unfinished] at here
  cases here

/-- What a cursor sees of the character that it comes to. -/
theorem ascii?_eq (h : Stands front (c :: rest) n) :
    ascii? (front ++ c :: rest) n = if c.toNat < 128 then some c else none := by
  by_cases ascii : c.toNat < 128
  · rw [if_pos ascii, h.of_ascii ascii]
    exact ascii?_eq_some_iff.2 ⟨at?_append front (c :: rest), ascii⟩
  · rw [if_neg ascii]
    cases h with
    | between =>
      rw [Option.eq_none_iff_forall_ne_some]
      intro d found
      obtain ⟨here, small⟩ := ascii?_eq_some_iff.1 found
      rw [at?_append] at here
      cases here
      exact ascii small
    | inside begun unfinished => exact ascii?_inside begun unfinished

/-- A cursor that moves on has passed over a character or is still inside it. -/
theorem move (h : Stands front (c :: rest) n) :
    Stands front (c :: rest) (n + 1) ∨ Stands (front ++ [c]) rest (n + 1) := by
  have begun := h.front_le
  have unfinished := h.lt_next
  by_cases last : n + 1 = size front + c.utf8Size
  · have passed : n + 1 = size (front ++ [c]) := by simp [last]
    rw [passed]
    exact .inr .between
  · exact .inl (.inside (by omega) (by omega))

/-- A cursor inside a character comes to no ASCII character. -/
theorem of_not_isValid {p : String} (whole : p.toList = front ++ rest) (h : Stands front rest n)
    (inside : ¬ (⟨n⟩ : String.Pos.Raw).IsValid p) :
    n < size p.toList ∧ ascii? p.toList n = none := by
  cases h with
  | between => exact absurd (isValid_iff.2 ⟨front, rest, whole, rfl⟩) inside
  | inside begun unfinished =>
    rw [whole]
    exact ⟨lt_size (.inside begun unfinished), ascii?_inside begun unfinished⟩

/-- A cursor between two characters stands in front of the rest. -/
theorem of_isValid {p : String} (whole : p.toList = front ++ rest) (h : Stands front rest n)
    (valid : (⟨n⟩ : String.Pos.Raw).IsValid p) : n = size front := by
  cases h with
  | between => rfl
  | @inside c rest _ begun unfinished =>
    obtain ⟨before, back, split, rfl⟩ := isValid_iff.1 valid
    have nothing : back.head? = none := by
      rw [← at?_append before back, ← split, whole, at?_inside begun unfinished]
    rw [List.head?_eq_none_iff.1 nothing, List.append_nil] at split
    rw [← split, whole, size_append, size_cons] at unfinished
    omega

end Stands

end JsonPath.Text
