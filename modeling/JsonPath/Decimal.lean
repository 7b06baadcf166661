/-!
Decimal numerals. A number is written without leading zeros; a reader takes a lone `0` or all the
digits it can.
-/

namespace JsonPath.Decimal

def digitChar (d : Nat) : Char := Char.ofNat ('0'.toNat + d)

def digitValue (c : Char) : Nat := c.toNat - '0'.toNat

def digits (n : Nat) : List Char :=
  if n < 10 then [digitChar n] else digits (n / 10) ++ [digitChar (n % 10)]
termination_by n

/-- The number that a run of digits stands for. -/
def value (ds : List Char) : Nat := ds.foldl (fun n c => 10 * n + digitValue c) 0

def render : Int → List Char
  | .ofNat n => digits n
  | .negSucc n => '-' :: digits (n + 1)

/-- Reads a numeral: a `0` is a numeral of its own, so `012` reads as `0` with `12` left over. -/
def readNat? : List Char → Option (Nat × List Char)
  | [] => none
  | c :: rest =>
    if c = '0' then some (0, rest)
    else if c.isDigit then
      some (value (c :: rest.takeWhile Char.isDigit), rest.dropWhile Char.isDigit)
    else none

def readInt? : List Char → Option (Int × List Char)
  | '-' :: rest => (readNat? rest).map fun (n, rest) => (-n, rest)
  | s => (readNat? s).map fun (n, rest) => (n, rest)

theorem length_readNat? {s rest : List Char} {n : Nat} (h : readNat? s = some (n, rest)) :
    rest.length < s.length := by
  cases s with
  | nil => cases h
  | cons c s =>
    have dropped := (List.dropWhile_suffix (l := s) Char.isDigit).length_le
    simp only [readNat?] at h
    split at h
    · cases h; simp
    · split at h
      · cases h; simp only [List.length_cons]; omega
      · cases h

theorem length_readInt? {s rest : List Char} {n : Int} (h : readInt? s = some (n, rest)) :
    rest.length < s.length := by
  unfold readInt? at h
  split at h <;> simp only [Option.map_eq_some_iff, Prod.mk.injEq, Prod.exists] at h
  · obtain ⟨_, _, read, _, rfl⟩ := h
    have := length_readNat? read
    simp only [List.length_cons]
    omega
  · obtain ⟨_, _, read, _, rfl⟩ := h
    exact length_readNat? read

end JsonPath.Decimal
