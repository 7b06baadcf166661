import JsonPath.Decimal

/-!
Indices: the integers of signed 64 bits. A numeral outside that range is no index.
-/

namespace JsonPath

abbrev Index := Int64

namespace Index

def ofInt? (n : Int) : Option Index :=
  if Int64.minValue.toInt ≤ n ∧ n ≤ Int64.maxValue.toInt then some (Int64.ofInt n) else none

@[simp] theorem ofInt?_toInt (i : Index) : ofInt? i.toInt = some i := by
  have lower := i.minValue_le_toInt
  have upper := i.toInt_le
  simp only [ofInt?, lower, upper, and_self, ↓reduceIte, Int64.ofInt_toInt]

theorem toInt_of_ofInt? {n : Int} {i : Index} (h : ofInt? n = some i) : i.toInt = n := by
  unfold ofInt? at h
  split at h
  · rename_i bounds
    cases h
    rw [Int64.toInt_minValue, Int64.toInt_maxValue] at bounds
    exact Int64.toInt_ofInt_of_le (by omega) (by omega)
  · cases h

def render (i : Index) : List Char := Decimal.render i.toInt

/-- Reads all the digits there are and then asks whether they name an index. -/
def read? (s : List Char) : Option (Index × List Char) :=
  (Decimal.readInt? s).bind fun (n, rest) => (ofInt? n).map fun i => (i, rest)

theorem length_read? {s rest : List Char} {i : Index} (h : read? s = some (i, rest)) :
    rest.length < s.length := by
  simp only [read?, Option.bind_eq_some_iff, Option.map_eq_some_iff, Prod.mk.injEq,
    Prod.exists] at h
  obtain ⟨_, _, read, _, _, _, rfl⟩ := h
  exact Decimal.length_readInt? read

end Index

end JsonPath
