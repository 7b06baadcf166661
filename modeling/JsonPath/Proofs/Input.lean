import JsonPath.Command.Run
import Mathlib.Data.List.TakeWhile

/-!
What the command is given. Lines are told by how they lie in the bytes, not by a search for line
feeds; a line is an expression when it is the UTF-8 of a text that is not blank. Main statement: a
run sees the expressions so told, in order, up to the first line that is no text.
-/

namespace JsonPath

namespace Text

/-- A text without the white space at its two ends. -/
def trim (s : List Char) : List Char := ((s.dropWhile isSpace).reverse.dropWhile isSpace).reverse

theorem isBlank_iff {s : List Char} : isBlank s = true ↔ trim s = [] := by
  unfold trim isBlank
  rw [List.reverse_eq_nil_iff, List.dropWhile_eq_nil_iff, List.all_eq_true]
  constructor
  · intro blank c hc
    exact blank c ((List.dropWhile_suffix _).subset (List.mem_reverse.1 hc))
  · intro behind c hc
    rw [← List.takeWhile_append_dropWhile (p := isSpace) (l := s)] at hc
    rcases List.mem_append.1 hc with hc | hc
    · exact List.mem_takeWhile_imp hc
    · exact behind c (List.mem_reverse.2 hc)

end Text

namespace Command

namespace Input

/-- How bytes are cut into lines: behind each line feed, with one carriage return in front of it
left out. Bytes after the last line feed are a line as they are, if there are any. -/
inductive Cuts : List UInt8 → List (List UInt8) → Prop
  | nil : Cuts [] []
  | unended {line : List UInt8} (nonempty : line ≠ []) (inside : lineFeed ∉ line) : Cuts line [line]
  | feed {line more : List UInt8} {ls : List (List UInt8)} (inside : lineFeed ∉ line)
      (noReturn : line.getLast? ≠ some carriageReturn) (others : Cuts more ls) :
      Cuts (line ++ lineFeed :: more) (line :: ls)
  | returnFeed {line more : List UInt8} {ls : List (List UInt8)} (inside : lineFeed ∉ line)
      (others : Cuts more ls) : Cuts (line ++ carriageReturn :: lineFeed :: more) (line :: ls)

theorem lines_unended {line : List UInt8} (nonempty : line ≠ []) (inside : lineFeed ∉ line) :
    lines line = [line] := by
  have noFeed : line.dropWhile (· ≠ lineFeed) = [] := by
    rw [List.dropWhile_eq_nil_iff]
    intro b hb
    simp only [decide_eq_true_eq]
    rintro rfl
    exact inside hb
  obtain ⟨b, more, rfl⟩ := List.exists_cons_of_ne_nil nonempty
  rw [lines]
  split
  · rfl
  · rename_i found
    rw [noFeed] at found
    cases found

theorem lines_feed {line : List UInt8} (inside : lineFeed ∉ line) (more : List UInt8) :
    lines (line ++ lineFeed :: more) = withoutReturn line :: lines more := by
  have each : ∀ b ∈ line, decide (b ≠ lineFeed) = true := by
    intro b hb
    rw [decide_eq_true_eq]
    rintro rfl
    exact inside hb
  have front : (line ++ lineFeed :: more).takeWhile (· ≠ lineFeed) = line := by
    rw [List.takeWhile_append_of_pos each]
    simp
  have back : (line ++ lineFeed :: more).dropWhile (· ≠ lineFeed) = lineFeed :: more := by
    rw [List.dropWhile_append_of_pos each]
    simp
  generalize line ++ lineFeed :: more = bytes at front back ⊢
  cases bytes with
  | nil => cases back
  | cons b bytes =>
    rw [lines]
    split <;> rename_i found <;> rw [back] at found <;> cases found
    rw [front]

theorem lines_of_cuts {bytes : List UInt8} {ls : List (List UInt8)} (h : Cuts bytes ls) :
    lines bytes = ls := by
  induction h with
  | nil => rw [lines]
  | unended nonempty inside => exact lines_unended nonempty inside
  | feed inside noReturn _ ih => rw [lines_feed inside, ih, withoutReturn, if_neg noReturn]
  | @returnFeed line more ls inside _ ih =>
    have ended : lineFeed ∉ line ++ [carriageReturn] := by
      simpa using ⟨inside, by decide⟩
    have regrouped : line ++ carriageReturn :: lineFeed :: more =
        (line ++ [carriageReturn]) ++ lineFeed :: more := by simp
    rw [regrouped, lines_feed ended, ih, withoutReturn, if_pos (by simp), List.dropLast_concat]

/-- The end of a line decides how it is told. -/
theorem cuts_feed {line more : List UInt8} {ls : List (List UInt8)} (inside : lineFeed ∉ line)
    (others : Cuts more ls) : Cuts (line ++ lineFeed :: more) (withoutReturn line :: ls) := by
  rw [withoutReturn]
  split
  · rename_i isReturn
    obtain ⟨front, rfl⟩ := List.getLast?_eq_some_iff.1 isReturn
    rw [List.dropLast_concat, List.append_assoc]
    exact .returnFeed (fun hb => inside (List.mem_append_left _ hb)) others
  · rename_i noReturn
    exact .feed inside noReturn others

theorem cuts_lines (bytes : List UInt8) : Cuts bytes (lines bytes) := by
  have free : ∀ bytes : List UInt8, lineFeed ∉ bytes.takeWhile (· ≠ lineFeed) := by
    intro bytes hb
    simpa using List.mem_takeWhile_imp hb
  fun_induction lines bytes with
  | case1 => exact .nil
  | case2 b more bytes cut =>
    have whole := List.takeWhile_append_dropWhile (p := (· ≠ lineFeed)) (l := bytes)
    rw [cut, List.append_nil] at whole
    have inside : lineFeed ∉ bytes := by
      rw [← whole]
      exact free bytes
    exact .unended (List.cons_ne_nil b more) inside
  | case3 b more bytes c rest cut ih =>
    have first := List.head?_dropWhile_not (· ≠ lineFeed) bytes
    have whole := List.takeWhile_append_dropWhile (p := (· ≠ lineFeed)) (l := bytes)
    rw [cut] at first whole
    -- What is dropped down to is the first byte that is no part of the line.
    obtain rfl : c = lineFeed := by simpa using first
    have line := cuts_feed (free bytes) ih
    rwa [whole] at line

/-- The carriage return at the end has no line feed behind it. -/
example : lines [97, 13, 10, 10, 98, 13] = [[97], [], [98, 13]] := by cbv

/-- The bytes of a text. -/
def encode (text : String) : List UInt8 := text.toUTF8.data.toList

theorem fromUTF8?_toUTF8 (text : String) : String.fromUTF8? text.toUTF8 = some text :=
  dif_pos text.isValidUTF8

theorem fromUTF8?_eq_some_iff {line : List UInt8} {text : String} :
    String.fromUTF8? ⟨line.toArray⟩ = some text ↔ encode text = line := by
  constructor
  · intro h
    unfold String.fromUTF8? at h
    split at h
    · cases h
      exact List.toList_toArray
    · cases h
  · rintro rfl
    exact fromUTF8?_toUTF8 text

end Input

namespace Item

theorem ofLine?_encode (text : String) :
    ofLine? (Input.encode text) =
      if Text.trim text.toList = [] then none else some (.expression text) := by
  rw [ofLine?, Input.fromUTF8?_eq_some_iff.2 rfl]
  simp only [Text.isBlank_iff]

theorem ofLine?_of_noText {line : List UInt8} (noText : ∀ text, Input.encode text ≠ line) :
    ofLine? line = some .unreadable := by
  rw [ofLine?]
  cases read : String.fromUTF8? ⟨line.toArray⟩ with
  | none => rfl
  | some text => exact absurd (Input.fromUTF8?_eq_some_iff.1 read) (noText text)

end Item

/-- The texts that trimming does not leave empty. -/
def nonblank (texts : List String) : List String := texts.filter fun t => Text.trim t.toList ≠ []

theorem filterMap_encode (texts : List String) :
    (texts.map Input.encode).filterMap Item.ofLine? = (nonblank texts).map .expression := by
  induction texts with
  | nil => rfl
  | cons text texts ih =>
    rw [List.map_cons, List.filterMap_cons, Item.ofLine?_encode, nonblank, List.filter_cons, ih]
    by_cases blank : Text.trim text.toList = []
    · simp [blank, nonblank]
    · simp [blank, nonblank]

/-- The expressions that the command is given, in order. They are the arguments if there are any,
and else the lines of the standard input that are not blank, up to the first line that is no text.
The flag tells whether there is such a line. -/
inductive Given (arguments : List String) (stdin : List UInt8) : List String → Bool → Prop
  | arguments (nonempty : arguments ≠ []) : Given arguments stdin arguments false
  | lines {texts : List String} (empty : arguments = [])
      (cut : Input.Cuts stdin (texts.map Input.encode)) :
      Given arguments stdin (nonblank texts) false
  | broken {texts : List String} {bad : List UInt8} {after : List (List UInt8)}
      (empty : arguments = []) (cut : Input.Cuts stdin (texts.map Input.encode ++ bad :: after))
      (noText : ∀ text, Input.encode text ≠ bad) : Given arguments stdin (nonblank texts) true

theorem readable_or_broken (ls : List (List UInt8)) :
    (∃ texts : List String, ls = texts.map Input.encode) ∨
      ∃ (texts : List String) (bad : List UInt8) (after : List (List UInt8)),
        ls = texts.map Input.encode ++ bad :: after ∧ ∀ text, Input.encode text ≠ bad := by
  induction ls with
  | nil => exact .inl ⟨[], rfl⟩
  | cons line ls ih =>
    by_cases readable : ∃ text, Input.encode text = line
    · obtain ⟨text, rfl⟩ := readable
      rcases ih with ⟨texts, rfl⟩ | ⟨texts, bad, after, rfl, noText⟩
      · exact .inl ⟨text :: texts, rfl⟩
      · exact .inr ⟨text :: texts, bad, after, rfl, noText⟩
    · exact .inr ⟨[], line, ls, rfl, not_exists.1 readable⟩

theorem exists_given (arguments : List String) (stdin : List UInt8) :
    ∃ xs broken, Given arguments stdin xs broken := by
  by_cases empty : arguments = []
  · have cut := Input.cuts_lines stdin
    rcases readable_or_broken (Input.lines stdin) with
      ⟨texts, same⟩ | ⟨texts, bad, after, same, noText⟩
    · rw [same] at cut
      exact ⟨_, _, .lines empty cut⟩
    · rw [same] at cut
      exact ⟨_, _, .broken empty cut noText⟩
  · exact ⟨_, _, .arguments empty⟩

/-- The items of a run are what the command is given; the first line that is no text is one of them.
-/
theorem Given.items {o : Options} {stdin : List UInt8} {xs : List String} {broken : Bool}
    (h : Given o.expressions stdin xs broken) :
    ∃ rest, o.items stdin =
      xs.map .expression ++ if broken then .unreadable :: rest else [] := by
  cases h with
  | arguments nonempty =>
    refine ⟨[], ?_⟩
    rw [Options.items, if_neg (by simpa using nonempty)]
    simp
  | lines empty cut =>
    refine ⟨[], ?_⟩
    rw [Options.items, if_pos (by simp [empty]), Input.lines_of_cuts cut, filterMap_encode]
    simp
  | @broken texts bad after empty cut noText =>
    refine ⟨after.filterMap Item.ofLine?, ?_⟩
    rw [Options.items, if_pos (by simp [empty]), Input.lines_of_cuts cut, List.filterMap_append,
      filterMap_encode, List.filterMap_cons, Item.ofLine?_of_noText noText]
    rfl

end Command

end JsonPath
