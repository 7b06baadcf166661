import JsonPath.Proofs.Closing
import JsonPath.Proofs.Loop

/-!
The search for a closing bracket as a loop over offsets: it counts the open brackets and looks at
one byte at a time, and only a quote makes it cut the text. Main statement: whatever the text, its
turns agree with the search through characters.
-/

namespace JsonPath

/-- Where the search is: how many brackets are open, and the offset that it looks at next. -/
structure Seeker where
  depth : Nat
  index : Nat

namespace Seeker

/-- Passes over what neither opens nor closes anything. -/
def move (k : Seeker) : Seeker := { k with index := k.index + 1 }

/-- Passes over the literal that begins where the search is. -/
def literal (s : List Char) (q : Quote) (k : Seeker) : Turn Seeker (Except PathError Nat) :=
  match Text.after? s k.index with
  | none => .broken
  | some rest =>
    match Literal.read? rest with
    | none => .done (.error (.unmatchedQuote q k.index))
    | some (l, _) => .next { k with index := k.index + Text.size l.spelling }

def turn (s : List Char) (opened : Nat) (k : Seeker) : Turn Seeker (Except PathError Nat) :=
  if Text.size s ≤ k.index then .done (.error (.unmatchedBracket opened))
  else
    match Text.ascii? s k.index with
    | none => .next k.move
    | some c =>
      if c = '[' then .next ⟨k.depth + 1, k.index + 1⟩
      else if c = ']' then
        match k.depth with
        | 0 => .broken
        | 1 => .done (.ok k.index)
        | depth + 2 => .next ⟨depth + 1, k.index + 1⟩
      else
        match Quote.ofChar? c with
        | none => .next k.move
        | some q => k.literal s q

theorem advances_literal {s : List Char} {q : Quote} {k k' : Seeker}
    (h : k.literal s q = .next k') : k.index < k'.index ∧ k'.index ≤ Text.size s := by
  unfold literal at h
  split at h
  · cases h
  · rename_i rest cut
    split at h
    · cases h
    · rename_i l after read
      cases h
      obtain ⟨front, rfl, offset⟩ := Text.after?_eq_some_iff.1 cut
      obtain ⟨rfl, _⟩ := Literal.of_read? read
      have positive := l.quote.char.utf8Size_pos
      simp only [offset, Literal.spelling, Text.size_append, Text.size_cons]
      omega

theorem advances {s : List Char} {opened : Nat} {k k' : Seeker}
    (h : k.turn s opened = .next k') : k.index < k'.index ∧ k'.index ≤ Text.size s := by
  unfold turn at h
  split at h
  · cases h
  · rename_i before
    have before := Nat.lt_of_not_le before
    repeat' split at h
    all_goals first
      | exact advances_literal h
      | cases h
    all_goals exact ⟨Nat.lt_succ_self _, before⟩

theorem literal_ne_ok {s : List Char} {q : Quote} {k : Seeker} {n : Nat} :
    k.literal s q ≠ .done (.ok n) := by
  intro h
  unfold literal at h
  split at h
  · cases h
  · split at h <;> cases h

/-- The search ends well only at a bracket. -/
theorem of_done {s : List Char} {opened n : Nat} {k : Seeker}
    (h : k.turn s opened = .done (.ok n)) : k.index = n ∧ n < Text.size s := by
  unfold turn at h
  split at h
  · cases h
  · rename_i before
    repeat' split at h
    all_goals first
      | exact absurd h literal_ne_ok
      | cases h
    exact ⟨rfl, Nat.lt_of_not_le before⟩

/-- The search for the bracket that closes the one at `opened`, in the whole text around it. -/
def loop (s : List Char) (opened : Nat) : Loop Seeker (Except PathError Nat) where
  turn := turn s opened
  cursor := index
  limit := Text.size s
  advances := advances

/-! ## What the loop keeps -/

/-- Behind `front` stands the open bracket. What the search has passed over since is what the search
through characters passes over. -/
inductive Tracks (front s : List Char) : Seeker → Prop
  | intro (passed : List Char) {rest : List Char} {inner index : Nat} (whole : s = passed ++ rest)
      (stands : Text.Stands (front ++ '[' :: passed) rest index)
      (found : Closing.find 0 s = (Closing.find inner rest).prepend passed) :
      Tracks front s ⟨inner + 1, index⟩

section

variable {front passed rest : List Char} {c : Char} {inner index : Nat}

theorem find_prepend {s : List Char} (piece : List Char) {inner' : Nat}
    (found : Closing.find 0 s = (Closing.find inner (piece ++ rest)).prepend passed)
    (step : Closing.find inner (piece ++ rest) = (Closing.find inner' rest).prepend piece) :
    Closing.find 0 s = (Closing.find inner' rest).prepend (passed ++ piece) := by
  rw [found, step, Closing.prepend_prepend]

/-- The search goes on behind what it passes over from a place between two characters. -/
theorem tracks_pass {s : List Char} (piece : List Char) {inner' : Nat}
    (whole : s = passed ++ (piece ++ rest))
    (found : Closing.find 0 s = (Closing.find inner (piece ++ rest)).prepend passed)
    (step : Closing.find inner (piece ++ rest) = (Closing.find inner' rest).prepend piece) :
    Tracks front s ⟨inner' + 1, Text.size (front ++ '[' :: passed) + Text.size piece⟩ := by
  refine .intro (passed ++ piece) (by rw [whole, List.append_assoc]) ?_
    (find_prepend piece found step)
  rw [← Text.size_append, List.append_assoc, List.cons_append]
  exact .between

/-- So it does where it moves on over plain text. -/
theorem tracks_move {s : List Char} (whole : s = passed ++ c :: rest)
    (stands : Text.Stands (front ++ '[' :: passed) (c :: rest) index)
    (found : Closing.find 0 s = (Closing.find inner (c :: rest)).prepend passed)
    (plain : IsPlain c) : Tracks front s (move ⟨inner + 1, index⟩) := by
  rcases stands.move with inside | behind
  · exact .intro passed whole inside found
  · refine .intro (passed ++ [c]) (by rw [whole, List.append_assoc]; rfl) ?_
      (find_prepend [c] found (Closing.find_plain plain inner rest))
    rwa [List.append_assoc, List.cons_append] at behind

/-- A quote is passed over with its literal, or ends the search. -/
theorem keeps_literal {s : List Char} (q : Quote) (whole : s = passed ++ q.char :: rest)
    (found : Closing.find 0 s = (Closing.find inner (q.char :: rest)).prepend passed) :
    (literal (front ++ '[' :: s) q ⟨inner + 1, Text.size (front ++ '[' :: passed)⟩).Keeps
      (Tracks front s) (· = (Closing.find 0 s).report (Text.size front)) := by
  have text : front ++ '[' :: s = (front ++ '[' :: passed) ++ q.char :: rest := by
    rw [whole, List.append_assoc, List.cons_append]
  have step := Closing.find_quote q inner rest
  simp only [literal, text, Text.after?_append]
  cases read : Literal.read? (q.char :: rest) with
  | none =>
    rw [read] at step
    simp only [Turn.Keeps, found, step, Closing.prepend, Closing.report, List.append_nil,
      Text.size_behind_bracket]
  | some pair =>
    obtain ⟨l, after⟩ := pair
    rw [read] at step
    have taken := (Literal.of_read? read).1
    rw [taken] at whole found step
    exact tracks_pass l.spelling whole found step

/-- Every turn agrees with the search through characters. -/
theorem turn_keeps (front s : List Char) (k : Seeker) (h : Tracks front s k) :
    (k.turn (front ++ '[' :: s) (Text.size front)).Keeps (Tracks front s)
      (· = (Closing.find 0 s).report (Text.size front)) := by
  obtain ⟨passed, whole, stands, found⟩ := h
  rename_i rest inner index
  have text : front ++ '[' :: s = (front ++ '[' :: passed) ++ rest := by
    rw [whole, List.append_assoc, List.cons_append]
  cases rest with
  | nil =>
    have ends : Text.size (front ++ '[' :: s) ≤ index :=
      Nat.le_of_eq (by rw [text, stands.at_end, List.append_nil])
    have unclosed : Closing.find inner [] = .unclosed := by rw [Closing.find]
    rw [turn, if_pos ends, found, unclosed]
    rfl
  | cons c rest =>
    have before := stands.lt_size
    rw [← text] at before
    have seen := stands.ascii?_eq
    rw [← text] at seen
    rw [turn, if_neg (Nat.not_le_of_lt before), seen]
    by_cases ascii : c.toNat < 128
    · obtain rfl := stands.of_ascii ascii
      rw [if_pos ascii]
      dsimp only
      split
      case isTrue bracket =>
        subst c
        exact tracks_pass ['['] whole found (Closing.find_open inner rest)
      case isFalse notOpen =>
        split
        case isTrue bracket =>
          subst c
          cases inner with
          | zero =>
            rw [Closing.find_last] at found
            simp only [Turn.Keeps, found, Closing.prepend, Closing.report, List.append_nil,
              Text.size_behind_bracket]
          | succ inner => exact tracks_pass [']'] whole found (Closing.find_close inner rest)
        case isFalse notClose =>
          split
          case h_1 notQuote =>
            refine tracks_move whole stands found ⟨notOpen, notClose, ?_, ?_⟩
            · rintro rfl
              cases notQuote
            · rintro rfl
              cases notQuote
          case h_2 q quote =>
            obtain rfl := Quote.ofChar?_eq_some_iff.1 quote
            exact keeps_literal q whole found
    · rw [if_neg ascii]
      refine tracks_move whole stands found ⟨?_, ?_, ?_, ?_⟩
      all_goals
        rintro rfl
        exact ascii (by decide)

end

/-- A search begins behind the bracket that it is about. -/
def start (opened : Nat) : Seeker := ⟨1, opened + 1⟩

theorem tracks_start (front s : List Char) : Tracks front s (start (Text.size front)) := by
  have offset : Text.size front + 1 = Text.size (front ++ ['[']) := by
    rw [Text.size_append]
    rfl
  refine .intro [] rfl ?_ (Closing.prepend_nil _).symm
  rw [offset]
  exact .between

/-- The loop says of a bracket what the search through characters says of it. -/
theorem run_eq (front s : List Char) :
    (loop (front ++ '[' :: s) (Text.size front)).run (start (Text.size front)) =
      some ((Closing.find 0 s).report (Text.size front)) := by
  obtain ⟨r, run, rfl⟩ := Loop.run_of_keeps (l := loop (front ++ '[' :: s) (Text.size front))
    (turn_keeps front s) (tracks_start front s)
  exact run

/-- Where the search ends well, what the brackets enclose can be cut out. -/
theorem between?_of_closed (front : List Char) {s body rest : List Char}
    (h : Closing.find 0 s = .closed body rest) :
    Text.between? (front ++ '[' :: s) (Text.size front + 1) (Text.size front + 1 + Text.size body) =
      some body := by
  have begins : Text.size front + 1 = Text.size (front ++ ['[']) := by
    rw [Text.size_append]
    rfl
  refine Text.between?_eq_some_iff.2 ⟨front ++ ['['], ']' :: rest, ?_, begins, ?_⟩
  · rw [Closing.append_of_find h]
    simp
  · rw [begins, ← Text.size_append]

/-- What holds at each turn of the search for the bracket that closes the one at `opened`. -/
structure Sound (p : String) (opened : Nat) (k : Seeker) : Prop
    extends (loop p.toList opened).Safe p k where
  /-- A closing bracket never meets a count of zero. -/
  positive : 1 ≤ k.depth
  behind : opened < k.index
  /-- Between two characters the text from there on can be cut out. -/
  cut : (⟨k.index⟩ : String.Pos.Raw).IsValid p → ∃ rest, Text.after? p.toList k.index = some rest
  /-- Inside a character there is nothing to stop at, and the search goes on to the next byte. -/
  inside : ¬ (⟨k.index⟩ : String.Pos.Raw).IsValid p →
    Text.ascii? p.toList k.index = none ∧ k.turn p.toList opened = .next k.move

theorem Tracks.sound {p : String} {front s : List Char} {k : Seeker}
    (whole : p.toList = front ++ '[' :: s) (h : Tracks front s k) :
    k.Sound p (Text.size front) := by
  have kept := turn_keeps front s k h
  rw [← whole] at kept
  obtain ⟨passed, rfl, stands, found⟩ := h
  rename_i rest inner index
  have text : p.toList = (front ++ '[' :: passed) ++ rest := by
    rw [whole, List.append_assoc, List.cons_append]
  refine { Loop.safe_of_stands text stands rfl kept with
    positive := Nat.le_add_left .., behind := ?behind, cut := ?cut, inside := ?inside }
  case behind =>
    have ahead := stands.front_le
    rw [Text.size_behind_bracket] at ahead
    change Text.size front < index
    omega
  case cut =>
    intro valid
    exact ⟨rest, Text.after?_eq_some_iff.2 ⟨_, text, stands.of_isValid text valid⟩⟩
  case inside =>
    intro inside
    obtain ⟨before, seen⟩ := stands.of_not_isValid text inside
    exact ⟨seen, by rw [turn, if_neg (Nat.not_le_of_lt before), seen]⟩

end Seeker

end JsonPath
