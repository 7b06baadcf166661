import JsonPath.Proofs.Account
import JsonPath.Proofs.Seeker

/-!
The scan of a path as a loop over offsets. It remembers where the plain text began that no token
has taken yet, dispatches on the byte in front of it and cuts the path only there, so what it
does is decided by offsets alone. Each of its turns takes what the scan of the path takes there,
so it finds the tokens of the scan. Main statement: it never cuts the path where it cannot be
cut, and always goes forward.
-/

namespace JsonPath

namespace Scan

theorem Cut.concat {ts : List Token} {t : Token} {s after : List Char}
    (h : Cut ts s (t.spelling ++ after)) (notRoot : t ≠ .root) (stands : t.Stands after) :
    Cut (ts ++ [t]) s after := by
  generalize same : t.spelling ++ after = rest at h
  induction h with
  | nil =>
    subst same
    exact .cons notRoot stands .nil
  | cons notRoot' stands' _ ih => exact .cons notRoot' stands' (ih same)

/-- A path that is cut up to a token is cut up to the text behind it. -/
theorem PathCut.concat {ts : List Token} {t : Token} {s after : List Char}
    (h : PathCut ts s (t.spelling ++ after)) (notRoot : t ≠ .root) (stands : t.Stands after) :
    PathCut (ts ++ [t]) s after := by
  cases h with
  | rooted rooted others => exact .rooted rooted (others.concat notRoot stands)
  | plain notRooted cut => exact .plain notRooted (cut.concat notRoot stands)

/-- What is known of a path from the tokens in front of a place where reading halts. -/
theorem outcome_of_halt {ts last : List Token} {s after : List Char} {c : Char} {e : PathError}
    (cut : PathCut ts s (c :: after)) (halt : Token.find c after = .halt last e) :
    (ofPath s).emissions = emissionsFrom 0 (ts ++ last) ∧
      (ofPath s).error = some (e.shift (Text.size (ts.flatMap Token.spelling))) := by
  rw [emissions, ofPath_of_cut cut, ofText_halt halt, prepend_tokens, prepend_error]
  exact ⟨rfl, rfl⟩

end Scan

/-- Where the scan is: the offset at which untaken text begins, the offset that it looks at next,
and what it has emitted. -/
structure Cursor where
  pending : Nat := 0
  index : Nat := 0
  emitted : List Emission := []

namespace Cursor

/-- What is emitted, and the error that ends the scan. -/
abbrev Outcome := List Emission × Option PathError

def emit (node : Node) (c : Cursor) : Cursor := { c with emitted := c.emitted ++ [⟨node, c.index⟩] }

/-- Goes on at an offset up to which everything is taken. -/
def commit (c : Cursor) (index : Nat) : Cursor := { c with pending := index, index := index }

/-- Passes over a byte that belongs to plain text. -/
def move (c : Cursor) : Cursor := { c with index := c.index + 1 }

/-- Emits the text that no token has taken yet, unless it cannot be cut out. -/
def flush? (s : List Char) (c : Cursor) : Option Cursor :=
  if c.pending = c.index then some c
  else (Text.between? s c.pending c.index).map fun chars => c.emit (Token.ofText chars)

/-- Goes on at `n`, where no dot may stand. -/
def separate (s : List Char) (n : Nat) (c : Cursor) : Turn Cursor Outcome :=
  if Text.ascii? s n = some '.' then .done (c.emitted, some (.tripleDot n)) else .next (c.commit n)

def dot (s : List Char) (c : Cursor) : Turn Cursor Outcome :=
  match c.flush? s with
  | none => .broken
  | some c =>
    if Text.ascii? s (c.index + 1) = some '.' then (c.emit .descent).separate s (c.index + 2)
    else if Text.size s ≤ c.index + 1 then .done (c.emitted, some (.incompletePath c.index))
    else c.separate s (c.index + 1)

/-- A character that stands for a node on its own. -/
def single (s : List Char) (node : Node) (c : Cursor) : Turn Cursor Outcome :=
  match c.flush? s with
  | none => .broken
  | some c => .next ((c.emit node).commit (c.index + 1))

def subscript (s : List Char) (c : Cursor) : Turn Cursor Outcome :=
  match c.flush? s with
  | none => .broken
  | some c =>
    match (Seeker.loop s c.index).run (.start c.index) with
    | none => .broken
    | some (.error e) => .done (c.emitted, some e)
    | some (.ok close) =>
      match Text.between? s (c.index + 1) close with
      | none => .broken
      | some body =>
        match Subscript.node body with
        | .error e => .done (c.emitted, some (e.shift c.index))
        | .ok node => .next ((c.emit node).commit (close + 1))

/-- What an ASCII character makes the scan do. A `*` counts only where no text is pending, a `$`
only at the very beginning, alone or before a dot. -/
def dispatch (s : List Char) (ch : Char) (c : Cursor) : Turn Cursor Outcome :=
  if ch = '.' then c.dot s
  else if ch = '[' then c.subscript s
  else if ch = '^' then c.single s .parent
  else if ch = '*' ∧ c.pending = c.index then c.single s .wildcard
  else if ch = '$' ∧ c.index = 0 ∧ (Text.size s ≤ 1 ∨ Text.ascii? s 1 = some '.') then
    c.single s .root
  else .next c.move

def turn (s : List Char) (c : Cursor) : Turn Cursor Outcome :=
  if Text.size s ≤ c.index then
    match c.flush? s with
    | none => .broken
    | some c => .done (c.emitted, none)
  else
    match Text.ascii? s c.index with
    | none => .next c.move
    | some ch => c.dispatch s ch

/-! ## Every turn goes forward -/

theorem index_of_flush {s : List Char} {c c' : Cursor} (h : c.flush? s = some c') :
    c'.index = c.index := by
  unfold flush? at h
  split at h
  · cases h
    rfl
  · obtain ⟨chars, _, rfl⟩ := Option.map_eq_some_iff.1 h
    rfl

theorem advances_separate {s : List Char} {n : Nat} {c c' : Cursor}
    (h : c.separate s n = .next c') : c'.index = n := by
  unfold separate at h
  split at h <;> cases h
  rfl

theorem advances_dot {s : List Char} {c c' : Cursor} (h : c.dot s = .next c') :
    c.index < c'.index ∧ c'.index ≤ Text.size s := by
  unfold dot at h
  split at h
  · cases h
  · rename_i flushed
    have same := index_of_flush flushed
    split at h
    · rename_i second
      have before := Text.lt_size_of_ascii? second
      have after := advances_separate h
      omega
    · split at h
      · cases h
      · have after := advances_separate h
        omega

theorem advances_single {s : List Char} {node : Node} {c c' : Cursor}
    (before : c.index < Text.size s) (h : c.single s node = .next c') :
    c.index < c'.index ∧ c'.index ≤ Text.size s := by
  unfold single at h
  split at h
  · cases h
  · rename_i flushed
    have same := index_of_flush flushed
    cases h
    simp only [commit]
    omega

/-- The search ends with a bracket that stands behind the open one. -/
theorem close_bounds {s : List Char} {opened close : Nat}
    (h : (Seeker.loop s opened).run (.start opened) = some (.ok close)) :
    opened < close ∧ close < Text.size s := by
  obtain ⟨k, reached, last⟩ := Loop.exists_done h
  have ahead : opened + 1 ≤ k.index := reached.cursor_le
  obtain ⟨rfl, within⟩ := Seeker.of_done last
  exact ⟨ahead, within⟩

theorem advances_subscript {s : List Char} {c c' : Cursor} (h : c.subscript s = .next c') :
    c.index < c'.index ∧ c'.index ≤ Text.size s := by
  unfold subscript at h
  split at h
  · cases h
  · rename_i flushed
    have same := index_of_flush flushed
    split at h
    · cases h
    · cases h
    · rename_i close found
      have bounds := close_bounds found
      split at h
      · cases h
      · split at h <;> cases h
        simp only [commit]
        omega

theorem advances {s : List Char} {c c' : Cursor} (h : c.turn s = .next c') :
    c.index < c'.index ∧ c'.index ≤ Text.size s := by
  unfold turn dispatch at h
  split at h
  · split at h <;> cases h
  · rename_i before
    have before := Nat.lt_of_not_le before
    repeat' split at h
    all_goals first
      | exact advances_dot h
      | exact advances_subscript h
      | exact advances_single before h
      | cases h
        exact ⟨Nat.lt_succ_self _, before⟩

/-- The scan of a text. -/
def loop (s : List Char) : Loop Cursor Outcome where
  turn := turn s
  cursor := index
  limit := Text.size s
  advances := advances

/-! ## What the loop keeps -/

/-- Everything in front of `rest` is cut into tokens, and their nodes are emitted. -/
structure Settled (s : List Char) (ts : List Token) (rest : List Char) (c : Cursor) : Prop where
  cut : Scan.PathCut ts s rest
  index : c.index = Text.size (ts.flatMap Token.spelling)
  emitted : c.emitted = Scan.emissionsFrom 0 ts

/-- The cursor that has taken some tokens and looks at `index`. -/
def behind (ts : List Token) (index : Nat) : Cursor :=
  ⟨Text.size (ts.flatMap Token.spelling), index, Scan.emissionsFrom 0 ts⟩

/-- The cursor is at the beginning, or behind some tokens and the beginning of plain text. -/
inductive Tracks (s : List Char) : Cursor → Prop
  | start : Tracks s {}
  | behind {ts : List Token} (text : List Char) {rest : List Char} {index : Nat}
      (cut : Scan.PathCut ts s (text ++ rest))
      (notStar : text.head? ≠ some '*') (inside : ∀ c ∈ text, ¬ Token.Separates c)
      (stands : Text.Stands (ts.flatMap Token.spelling ++ text) rest index) :
      Tracks s (behind ts index)

section

variable {s text rest after : List Char} {ts : List Token} {c : Cursor} {ch : Char}

/-- The loop ends with what the scan says of the path. -/
def Agrees (s : List Char) (outcome : Outcome) : Prop :=
  outcome = ((Scan.ofPath s).emissions, (Scan.ofPath s).error)

theorem Settled.agrees_end (h : Settled s ts [] c) : Agrees s (c.emitted, none) := by
  rw [Agrees, Scan.ofPath_of_whole h.cut, h.emitted]
  rfl

theorem Settled.agrees_halt {e : PathError} (h : Settled s ts (ch :: after) c) (last : List Token)
    (halt : Token.find ch after = .halt last e) :
    Agrees s (c.emitted ++ Scan.emissionsFrom c.index last, some (e.shift c.index)) := by
  obtain ⟨emissions, error⟩ := Scan.outcome_of_halt h.cut halt
  rw [Agrees, emissions, error, h.emitted, h.index, Scan.emissionsFrom_append, Nat.zero_add]

/-- Behind one more token that needs no look at the text in front of it. -/
theorem Settled.tracks {t : Token} (h : Settled s ts (t.spelling ++ after) c) (notRoot : t ≠ .root)
    (stands : t.Stands after) :
    Tracks s ⟨c.index + t.size, c.index + t.size, c.emitted ++ Scan.emissionsFrom c.index [t]⟩ := by
  have offset : c.index + t.size = Text.size ((ts ++ [t]).flatMap Token.spelling) := by
    rw [List.flatMap_append, Text.size_append, List.flatMap_singleton, ← h.index]
    rfl
  have emitted : c.emitted ++ Scan.emissionsFrom c.index [t] =
      Scan.emissionsFrom 0 (ts ++ [t]) := by
    rw [Scan.emissionsFrom_append, Nat.zero_add, ← h.index, h.emitted]
  rw [offset, emitted]
  refine .behind [] (h.cut.concat notRoot stands) (by simp) (by simp) ?_
  rw [List.append_nil]
  exact .between

/-- What is flushed is the plain text that ends here. -/
theorem exists_flush (cut : Scan.PathCut ts s (text ++ rest)) (notStar : text.head? ≠ some '*')
    (inside : ∀ c ∈ text, ¬ Token.Separates c)
    (ends : text ≠ [] → ∀ c, rest.head? = some c → Token.Separates c) :
    ∃ c ts', (behind ts (Text.size (ts.flatMap Token.spelling ++ text))).flush? s = some c ∧
      Settled s ts' rest c := by
  by_cases empty : text = []
  · subst empty
    rw [List.append_nil]
    exact ⟨_, ts, if_pos rfl, cut, rfl, rfl⟩
  · have longer := Text.size_pos empty
    have whole : s = ts.flatMap Token.spelling ++ text ++ rest := by
      rw [cut.spelling, List.append_assoc]
    obtain ⟨n, index⟩ : ∃ n, n = Text.size (ts.flatMap Token.spelling ++ text) := ⟨_, rfl⟩
    have pending : (behind ts n).pending ≠ (behind ts n).index := by
      change Text.size _ ≠ n
      rw [index, Text.size_append]
      omega
    have found : Text.between? s (behind ts n).pending (behind ts n).index = some text :=
      Text.between?_eq_some_iff.2 ⟨_, rest, whole, rfl, index⟩
    have stands : (Token.text text).Stands rest := ⟨empty, notStar, inside, ends empty⟩
    rw [← index]
    refine ⟨(behind ts n).emit (Token.ofText text), ts ++ [.text text], ?_,
      cut.concat (t := .text text) Token.noConfusion stands, ?_, ?_⟩
    · rw [flush?, if_neg pending, found]
      rfl
    · rw [List.flatMap_append, List.flatMap_singleton]
      exact index
    · have mark : n = Text.size (ts.flatMap Token.spelling) + Text.size text := by
        rw [index, Text.size_append]
      rw [Scan.emissionsFrom_append, Nat.zero_add, mark]
      rfl

/-- A character that no token begins or ends with joins the plain text. -/
theorem tracks_move {index : Nat} (cut : Scan.PathCut ts s (text ++ ch :: rest))
    (notStar : text.head? ≠ some '*') (inside : ∀ c ∈ text, ¬ Token.Separates c)
    (stands : Text.Stands (ts.flatMap Token.spelling ++ text) (ch :: rest) index)
    (separates : ¬ Token.Separates ch) (first : text = [] → ch ≠ '*') :
    Tracks s (behind ts index).move := by
  rcases stands.move with within | behind
  · exact .behind text cut notStar inside within
  · refine .behind (text ++ [ch]) (by rwa [List.append_assoc]) ?_ ?_ ?_
    · cases text with
      | nil =>
        intro star
        exact first rfl (Option.some.inj star)
      | cons d text => exact notStar
    · intro d mem
      rcases List.mem_append.1 mem with old | new
      · exact inside d old
      · rw [List.mem_singleton.1 new]
        exact separates
    · rw [← List.append_assoc]
      exact behind

/-- A dot ends the plain text in front of it, and is one token or half of one. -/
theorem keeps_dot {c' : Cursor} (flushed : c.flush? s = some c')
    (h : Settled s ts ('.' :: after) c') : (c.dot s).Keeps (Tracks s) (Agrees s) := by
  have whole := h.cut.spelling
  have second : Text.ascii? s (c'.index + 1) = some '.' ↔ after.head? = some '.' := by
    rw [whole, h.index]
    exact Text.ascii?_next _ rfl (by decide)
  have ends : Text.size s ≤ c'.index + 1 ↔ after = [] := by
    rw [whole, h.index]
    exact Text.size_le_next_iff _ rfl
  rw [dot, flushed]
  dsimp only
  cases after with
  | nil =>
    rw [if_neg (mt second.1 (by simp)), if_pos (ends.2 rfl)]
    have halted := h.agrees_halt (e := .incompletePath 0) [] rfl
    rwa [Scan.emissionsFrom, List.append_nil] at halted
  | cons d after =>
    by_cases dots : d = '.'
    · subst dots
      have third : Text.ascii? s (c'.index + 2) = some '.' ↔ after.head? = some '.' := by
        have split : s = (ts.flatMap Token.spelling ++ ['.']) ++ '.' :: after := by
          rw [whole, List.append_assoc]
          rfl
        have offset : c'.index + 1 = Text.size (ts.flatMap Token.spelling ++ ['.']) := by
          rw [h.index, Text.size_append]
          rfl
        rw [show c'.index + 2 = c'.index + 1 + 1 from rfl, offset, split]
        exact Text.ascii?_next _ rfl (by decide)
      rw [if_pos (second.2 rfl), separate]
      by_cases triple : after.head? = some '.'
      · rw [if_pos (third.2 triple)]
        obtain ⟨more, rfl⟩ := List.head?_eq_some_iff.1 triple
        exact h.agrees_halt (e := .tripleDot 2) [.descent] rfl
      · rw [if_neg (mt third.1 triple)]
        exact Settled.tracks (t := .descent) h Token.noConfusion triple
    · have notDot : ¬ Text.ascii? s (c'.index + 1) = some '.' :=
        mt second.1 fun same => dots (Option.some.inj same)
      rw [if_neg notDot, if_neg (mt ends.1 (List.cons_ne_nil _ _)), separate, if_neg notDot]
      have nothing : Scan.emissionsFrom c'.index [.dot] = [] := rfl
      have tracks := Settled.tracks (t := .dot) h Token.noConfusion ⟨d, rfl, dots⟩
      rwa [nothing, List.append_nil] at tracks

/-- A bracket ends the plain text in front of it, and is a token together with what it encloses. -/
theorem keeps_subscript {c' : Cursor} (flushed : c.flush? s = some c')
    (h : Settled s ts ('[' :: after) c') : (c.subscript s).Keeps (Tracks s) (Agrees s) := by
  have whole := h.cut.spelling
  have searched := Seeker.run_eq (ts.flatMap Token.spelling) after
  rw [← whole, ← h.index] at searched
  have halts : ∀ e, Token.findSubscript after = .halt [] e →
      Agrees s (c'.emitted, some (e.shift c'.index)) := by
    intro e halt
    have halted := h.agrees_halt [] halt
    rwa [Scan.emissionsFrom, List.append_nil] at halted
  rw [subscript, flushed]
  dsimp only
  rw [searched]
  cases closing : Closing.find 0 after with
  | closed body rest =>
    have cut := Seeker.between?_of_closed (ts.flatMap Token.spelling) closing
    rw [← whole, ← h.index] at cut
    simp only [Closing.report, cut]
    cases denoted : Subscript.node body with
    | error e => exact halts e (by simp only [Token.findSubscript, closing, denoted])
    | ok node =>
      have found : Token.find '[' after = .token (.subscript body node) rest := by
        change Token.findSubscript after = _
        simp only [Token.findSubscript, closing, denoted]
      have size : (Token.subscript body node).size = 1 + Text.size body + 1 := by
        rw [Token.size, Token.spelling, Text.size_cons, Text.size_append, ← Nat.add_assoc]
        rfl
      obtain ⟨notRoot, stands⟩ := Token.stands_of_find found
      rw [← Token.spelling_append_of_find found] at h
      have tracks := h.tracks notRoot stands
      rwa [size, ← Nat.add_assoc, ← Nat.add_assoc] at tracks
  | unclosed => exact halts (.unmatchedBracket 0) (by simp only [Token.findSubscript, closing])
  | brokenLiteral q before =>
    have halted := halts (.unmatchedQuote q (1 + Text.size before))
      (by simp only [Token.findSubscript, closing])
    rwa [PathError.shift, ← Nat.add_assoc] at halted

/-- A character that is a token ends the plain text in front of it. -/
theorem keeps_single {t : Token} {node : Node} {c' : Cursor} (flushed : c.flush? s = some c')
    (h : Settled s ts (t.spelling ++ after) c') (notRoot : t ≠ .root) (stands : t.Stands after)
    (one : t.size = 1) (emits : Scan.emissionsFrom c'.index [t] = [⟨node, c'.index⟩]) :
    (c.single s node).Keeps (Tracks s) (Agrees s) := by
  have tracks := h.tracks notRoot stands
  rw [one, emits] at tracks
  rw [single, flushed]
  exact tracks

/-- Where a character separates, or nothing is pending, all text in front of it is flushed. -/
theorem exists_settled (cut : Scan.PathCut ts s (text ++ ch :: after))
    (notStar : text.head? ≠ some '*') (inside : ∀ c ∈ text, ¬ Token.Separates c)
    (ends : text ≠ [] → Token.Separates ch) :
    ∃ c ts', (behind ts (Text.size (ts.flatMap Token.spelling ++ text))).flush? s = some c ∧
      Settled s ts' (ch :: after) c := by
  refine exists_flush cut notStar inside fun pending d first => ?_
  cases first
  exact ends pending

theorem nothing_pending_iff :
    (behind ts (Text.size (ts.flatMap Token.spelling ++ text))).pending =
      (behind ts (Text.size (ts.flatMap Token.spelling ++ text))).index ↔ text = [] := by
  constructor
  · intro same
    by_contra more
    have longer := Text.size_pos more
    change Text.size _ = Text.size (_ ++ text) at same
    rw [Text.size_append] at same
    omega
  · rintro rfl
    rw [List.append_nil]
    rfl

/-- What the scan sees where a path begins with `$` tells whether that is the root. -/
theorem sees_root_iff (front : List Char) (whole : s = front ++ '$' :: after)
    (start : Text.size front = 0) :
    (Text.size s ≤ 1 ∨ Text.ascii? s 1 = some '.') ↔ Token.root.Stands after := by
  have alone : Text.size s ≤ 1 ↔ after = [] := by
    rw [whole, ← Text.size_le_next_iff front (c := '$') rfl, start]
  have dot : Text.ascii? s 1 = some '.' ↔ after.head? = some '.' := by
    rw [whole, ← Text.ascii?_next front (c := '$') (d := '.') rfl (by decide), start]
  rw [alone, dot]
  cases after <;> simp [Token.Stands]

/-- At the beginning of a path that is not rooted, `$` is not the root. -/
theorem not_root_of_cut (cut : Scan.PathCut ts s (text ++ '$' :: after))
    (start : Text.size (ts.flatMap Token.spelling ++ text) = 0) : ¬ Token.root.Stands after := by
  have empty : ts.flatMap Token.spelling ++ text = [] := by
    by_contra more
    have longer := Text.size_pos more
    omega
  obtain ⟨noTokens, rfl⟩ := List.append_eq_nil_iff.1 empty
  cases cut with
  | rooted _ _ => simp [Token.spelling] at noTokens
  | plain notRooted cut =>
    have whole := cut.spelling
    rw [noTokens] at whole
    exact notRooted after whole

/-- Every character is taken, by a token or by the plain text. -/
theorem keeps_dispatch (cut : Scan.PathCut ts s (text ++ ch :: after))
    (notStar : text.head? ≠ some '*') (inside : ∀ c ∈ text, ¬ Token.Separates c) :
    ((behind ts (Text.size (ts.flatMap Token.spelling ++ text))).dispatch s ch).Keeps
      (Tracks s) (Agrees s) := by
  have whole : s = ts.flatMap Token.spelling ++ text ++ ch :: after := by
    rw [cut.spelling, List.append_assoc]
  have settled := exists_settled cut notStar inside
  unfold dispatch
  split
  case isTrue dot =>
    subst dot
    obtain ⟨c, ts', flushed, settled⟩ := settled fun _ => .inl rfl
    exact keeps_dot flushed settled
  case isFalse notDot =>
  split
  case isTrue bracket =>
    subst bracket
    obtain ⟨c, ts', flushed, settled⟩ := settled fun _ => .inr (.inl rfl)
    exact keeps_subscript flushed settled
  case isFalse notBracket =>
  split
  case isTrue caret =>
    subst caret
    obtain ⟨c, ts', flushed, settled⟩ := settled fun _ => .inr (.inr rfl)
    exact keeps_single (t := .parent) flushed settled Token.noConfusion trivial rfl rfl
  case isFalse notCaret =>
  split
  case isTrue star =>
    obtain ⟨rfl, nothing⟩ := star
    have empty := nothing_pending_iff.1 nothing
    obtain ⟨c, ts', flushed, settled⟩ := settled fun pending => absurd empty pending
    exact keeps_single (t := .wildcard) flushed settled Token.noConfusion trivial rfl rfl
  case isFalse notWildcard =>
  split
  case isTrue root =>
    obtain ⟨rfl, start, sees⟩ := root
    exact absurd ((sees_root_iff _ whole start).1 sees) (not_root_of_cut cut start)
  case isFalse =>
    refine tracks_move cut notStar inside .between ?_ ?_
    · rintro (dot | bracket | caret)
      · exact notDot dot
      · exact notBracket bracket
      · exact notCaret caret
    · intro empty star
      exact notWildcard ⟨star, nothing_pending_iff.2 empty⟩

theorem keeps_behind {index : Nat} (text : List Char) (cut : Scan.PathCut ts s (text ++ rest))
    (notStar : text.head? ≠ some '*') (inside : ∀ c ∈ text, ¬ Token.Separates c)
    (stands : Text.Stands (ts.flatMap Token.spelling ++ text) rest index) :
    ((behind ts index).turn s).Keeps (Tracks s) (Agrees s) := by
  have whole : s = ts.flatMap Token.spelling ++ text ++ rest := by
    rw [cut.spelling, List.append_assoc]
  have sees : (behind ts index).index = index := rfl
  cases rest with
  | nil =>
    obtain rfl := stands.at_end
    obtain ⟨c, ts', flushed, settled⟩ := exists_flush cut notStar inside (by simp)
    rw [List.append_nil] at whole
    rw [← whole] at flushed
    rw [turn, sees, ← whole, if_pos (Nat.le_refl _), flushed]
    exact settled.agrees_end
  | cons ch after =>
    have before := stands.lt_size
    have seen := stands.ascii?_eq
    rw [← whole] at before seen
    rw [turn, sees, if_neg (Nat.not_le_of_lt before), seen]
    by_cases ascii : ch.toNat < 128
    · obtain rfl := stands.of_ascii ascii
      rw [if_pos ascii]
      exact keeps_dispatch cut notStar inside
    · rw [if_neg ascii]
      refine tracks_move cut notStar inside stands ?_ ?_
      · rintro (rfl | rfl | rfl) <;> exact ascii (by decide)
      · rintro _ rfl
        exact ascii (by decide)

/-- A rooted path begins with its root. -/
theorem keeps_rooted (stands : Token.root.Stands after) :
    (turn ('$' :: after) {}).Keeps (Tracks ('$' :: after)) (Agrees ('$' :: after)) := by
  have cut : Scan.PathCut [.root] ('$' :: after) after := .rooted stands .nil
  have begins : Text.Stands [] ('$' :: after) 0 := .between
  have first : Text.ascii? ('$' :: after) 0 = some '$' := begins.ascii?_eq
  have sees := (sees_root_iff [] rfl rfl).2 stands
  have nonempty : ¬ Text.size ('$' :: after) ≤ 0 := by
    rw [Text.size_cons]
    have positive := '$'.utf8Size_pos
    omega
  have tracks : Tracks ('$' :: after) (behind [.root] 1) :=
    .behind [] cut (by simp) (by simp) .between
  rw [turn, if_neg nonempty, first]
  dsimp only
  rw [dispatch, if_neg (by decide), if_neg (by decide), if_neg (by decide), if_neg (by simp),
    if_pos ⟨rfl, rfl, sees⟩]
  exact tracks

theorem turn_keeps (h : Tracks s c) : (c.turn s).Keeps (Tracks s) (Agrees s) := by
  cases h with
  | behind text cut notStar inside stands => exact keeps_behind text cut notStar inside stands
  | start =>
    by_cases rooted : ∃ after, s = '$' :: after ∧ Token.root.Stands after
    · obtain ⟨after, rfl, stands⟩ := rooted
      exact keeps_rooted stands
    · have cut : Scan.PathCut [] s s :=
        .plain (fun after same stands => rooted ⟨after, same, stands⟩) .nil
      exact keeps_behind [] cut (by simp) (by simp) .between

/-- The pending text stands between the two offsets, up to the character that the cursor is in. -/
theorem Tracks.exists_place (h : Tracks s c) :
    ∃ taken text rest, s = taken ++ text ++ rest ∧ c.pending = Text.size taken ∧
      Text.Stands (taken ++ text) rest c.index := by
  cases h with
  | start => exact ⟨[], [], s, rfl, rfl, .between⟩
  | @behind ts text rest _ cut _ _ stands =>
    exact ⟨ts.flatMap Token.spelling, text, rest, by rw [cut.spelling, List.append_assoc], rfl,
      stands⟩

end

/-- What holds at each turn of the scan of a path. -/
structure Sound (p : String) (c : Cursor) : Prop extends (loop p.toList).Safe p c where
  ordered : c.pending ≤ c.index
  pending_boundary : (⟨c.pending⟩ : String.Pos.Raw).IsValid p
  /-- Between two characters the pending text can be cut out. -/
  cut : (⟨c.index⟩ : String.Pos.Raw).IsValid p →
    ∃ text, Text.between? p.toList c.pending c.index = some text
  /-- Inside a character there is nothing to take, and the scan goes on to the next byte. -/
  inside : ¬ (⟨c.index⟩ : String.Pos.Raw).IsValid p →
    Text.ascii? p.toList c.index = none ∧ c.turn p.toList = .next c.move

theorem Tracks.sound {p : String} {c : Cursor} (h : Tracks p.toList c) : c.Sound p := by
  have kept := turn_keeps h
  obtain ⟨taken, text, rest, whole, pending, stands⟩ := h.exists_place
  refine { Loop.safe_of_stands whole stands rfl kept with
    ordered := ?ordered, pending_boundary := ?pending, cut := ?cut, inside := ?inside }
  case ordered =>
    have ahead := stands.front_le
    rw [Text.size_append] at ahead
    omega
  case pending =>
    rw [pending]
    exact Text.isValid_iff.2 ⟨taken, text ++ rest, by rw [whole, List.append_assoc], rfl⟩
  case cut =>
    intro valid
    have index := stands.of_isValid whole valid
    exact ⟨text, Text.between?_eq_some_iff.2 ⟨taken, rest, whole, pending, index⟩⟩
  case inside =>
    intro inside
    obtain ⟨before, seen⟩ := stands.of_not_isValid whole inside
    exact ⟨seen, by rw [turn, if_neg (Nat.not_le_of_lt before), seen]⟩

/-- The loop finds what the scan of the path finds. -/
theorem run_eq (s : List Char) :
    (loop s).run {} = some ((Scan.ofPath s).emissions, (Scan.ofPath s).error) := by
  obtain ⟨outcome, run, rfl⟩ := Loop.run_of_keeps (l := loop s) (fun _ => turn_keeps) Tracks.start
  exact run

end Cursor

/-- **The loops cut a path only between its characters, and always go forward.** At each turn of
the scan and of the search for a closing bracket, the offsets are in order and within the path,
and so is the next one, which is greater. Where a turn begins between two characters, the text
behind the pending offset and the text from a quote on can be cut out; so can the text in
brackets. Where it begins inside a character of several bytes, it has nothing to take and goes on
to the next byte. A closing bracket is counted only while one is open, and the outcome is what the
scan of the path finds. -/
theorem loops_cut_between_characters (p : String) :
    (∀ c, (Cursor.loop p.toList).Reaches {} c → c.Sound p) ∧
    (∀ opened, Text.at? p.toList opened = some '[' →
      (∀ k, (Seeker.loop p.toList opened).Reaches (.start opened) k → k.Sound p opened) ∧
      ∃ report, (Seeker.loop p.toList opened).run (.start opened) = some report ∧
        ∀ close, report = .ok close →
          ∃ body, Text.between? p.toList (opened + 1) close = some body) ∧
    (Cursor.loop p.toList).run {} =
      some ((Scan.ofPath p.toList).emissions, (Scan.ofPath p.toList).error) := by
  refine ⟨?_, ?_, Cursor.run_eq p.toList⟩
  · intro c reached
    exact (reached.keeps (fun _ => Cursor.turn_keeps) .start).sound
  · intro opened bracket
    obtain ⟨front, back, whole, rfl⟩ := Text.at?_eq_some_iff.1 bracket
    constructor
    · intro k reached
      rw [whole] at reached
      have tracks := reached.keeps (Seeker.turn_keeps front back) (Seeker.tracks_start front back)
      exact tracks.sound whole
    · rw [whole]
      refine ⟨_, Seeker.run_eq front back, ?_⟩
      intro close found
      obtain ⟨body, rest, closed, rfl⟩ := Closing.report_eq_ok_iff.1 found
      exact ⟨body, Seeker.between?_of_closed front closed⟩

/-- Inside the first character there is nothing to take, and the literal in brackets is passed over
as a whole. -/
theorem loops_cut_between_characters_literal :
    (∃ c, (Cursor.loop "é['ü']".toList).Reaches {} c ∧ c.index = 1 ∧ c.Sound "é['ü']") ∧
      ∃ k, (Seeker.loop "é['ü']".toList 2).Reaches (.start 2) k ∧ k.index = 7 ∧
        k.Sound "é['ü']" 2 := by
  obtain ⟨scan, search, _⟩ := loops_cut_between_characters "é['ü']"
  have moved : (Cursor.loop "é['ü']".toList).turn {} = .next (Cursor.move {}) := rfl
  have inside : (Cursor.loop "é['ü']".toList).Reaches {} (Cursor.move {}) := .next .start moved
  have passed : (Seeker.loop "é['ü']".toList 2).turn (.start 2) = .next ⟨1, 7⟩ := rfl
  have behind : (Seeker.loop "é['ü']".toList 2).Reaches (.start 2) ⟨1, 7⟩ := .next .start passed
  have bracket : Text.at? "é['ü']".toList 2 = some '[' := rfl
  exact ⟨⟨_, inside, rfl, scan _ inside⟩, _, behind, rfl, (search 2 bracket).1 _ behind⟩

/-- A turn can begin inside a character: on `é` the second turn begins between its two bytes. -/
theorem turn_begins_inside_character :
    ∃ c, (Cursor.loop "é".toList).Reaches {} c ∧ c.index = 1 ∧
      ¬ (⟨c.index⟩ : String.Pos.Raw).IsValid "é" := by
  have turned : (Cursor.loop "é".toList).turn {} = .next (Cursor.move {}) := rfl
  exact ⟨_, .next .start turned, rfl, by decide⟩

end JsonPath
