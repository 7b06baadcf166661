import JsonPath.Proofs.Offset

/-!
Loops that move a cursor over the bytes of a text. What such a loop holds is an offset, so whether
the text can be cut there, and whether the loop comes to an end, is said of each of its turns.
-/

namespace JsonPath

/-- What one turn of a loop comes to. -/
inductive Turn (σ α : Type)
  | next (state : σ)
  | done (result : α)
  /-- The text is cut past its end or inside a character, or a count goes below zero. -/
  | broken

/-- A turn that is not broken, where `I` holds of the next state and `P` of a result. -/
def Turn.Keeps {σ α : Type} (I : σ → Prop) (P : α → Prop) : Turn σ α → Prop
  | next s => I s
  | done r => P r
  | broken => False

/-- A loop whose turns bring a cursor forward, at most up to a limit. -/
structure Loop (σ α : Type) where
  turn : σ → Turn σ α
  cursor : σ → Nat
  limit : Nat
  advances : ∀ {s s' : σ}, turn s = .next s' → cursor s < cursor s' ∧ cursor s' ≤ limit

namespace Loop

variable {σ α : Type} {l : Loop σ α} {s t : σ} {I : σ → Prop} {P : α → Prop}

/-- The result of the loop, unless a turn is broken. -/
def run (l : Loop σ α) (s : σ) : Option α :=
  match _turn : l.turn s with
  | .next s' => l.run s'
  | .done r => some r
  | .broken => none
termination_by l.limit - l.cursor s
decreasing_by
  have := l.advances _turn
  omega

/-- The states in which a turn of the loop begins. -/
inductive Reaches (l : Loop σ α) (s : σ) : σ → Prop
  | start : Reaches l s s
  | next {t t' : σ} (reached : Reaches l s t) (turn : l.turn t = .next t') : Reaches l s t'

theorem Reaches.cursor_le (h : l.Reaches s t) : l.cursor s ≤ l.cursor t := by
  induction h with
  | start => exact Nat.le_refl _
  | next _ turn ih => exact Nat.le_trans ih (Nat.le_of_lt (l.advances turn).1)

theorem Reaches.of_next {t' : σ} (turn : l.turn s = .next t) (h : l.Reaches t t') :
    l.Reaches s t' := by
  induction h with
  | start => exact .next .start turn
  | next _ turn' ih => exact .next ih turn'

/-- What every turn keeps holds as long as the loop goes on. -/
theorem Reaches.keeps (h : l.Reaches s t) (each : ∀ s, I s → (l.turn s).Keeps I P) (start : I s) :
    I t := by
  induction h with
  | start => exact start
  | next _ turn ih =>
    have kept := each _ ih
    rw [turn] at kept
    exact kept

/-- A result comes from the last turn. -/
theorem exists_done {r : α} (h : l.run s = some r) : ∃ t, l.Reaches s t ∧ l.turn t = .done r := by
  fun_induction run l s with
  | case1 s s' turn ih =>
    obtain ⟨t, reached, last⟩ := ih h
    exact ⟨t, reached.of_next turn, last⟩
  | case2 s r' turn =>
    cases h
    exact ⟨s, .start, turn⟩
  | case3 => cases h

/-- A loop none of whose turns is broken has a result. -/
theorem run_of_keeps (each : ∀ s, I s → (l.turn s).Keeps I P) (start : I s) :
    ∃ r, l.run s = some r ∧ P r := by
  fun_induction run l s with
  | case1 s s' turn ih =>
    have kept := each s start
    rw [turn] at kept
    exact ih kept
  | case2 s r turn =>
    have kept := each s start
    rw [turn] at kept
    exact ⟨r, rfl, kept⟩
  | case3 s turn =>
    have kept := each s start
    rw [turn] at kept
    exact kept.elim

end Loop

/-! ## Loops over a path -/

/-- What holds at the beginning of a turn, of a loop over the bytes of a path. -/
structure Loop.Safe {σ α : Type} (l : Loop σ α) (p : String) (s : σ) : Prop where
  within : l.cursor s ≤ p.utf8ByteSize
  /-- The text is cut only where it can be. -/
  unbroken : l.turn s ≠ .broken
  advances : ∀ s', l.turn s = .next s' → l.cursor s < l.cursor s' ∧ l.cursor s' ≤ p.utf8ByteSize

theorem Loop.safe_of_stands {σ α : Type} {l : Loop σ α} {p : String} {s : σ} {I : σ → Prop}
    {P : α → Prop} {front rest : List Char} (whole : p.toList = front ++ rest)
    (stands : Text.Stands front rest (l.cursor s)) (limit : l.limit = Text.size p.toList)
    (kept : (l.turn s).Keeps I P) : l.Safe p s where
  within := by
    rw [← Text.size_toList, whole]
    exact stands.le_size
  unbroken := by
    intro broken
    rw [broken] at kept
    exact kept
  advances := by
    intro s' turn
    have ahead := l.advances turn
    rwa [limit, Text.size_toList] at ahead

end JsonPath
