import JsonPath.Scan

/-!
The log of a normalization: one record for each node as it becomes known, and one for the outcome.
-/

namespace JsonPath.Log

/-- How much a log tells, from least to most. -/
inductive Level
  | error
  | warn
  | info
  | debug
  | trace
  deriving DecidableEq, Repr

namespace Level

def name : Level → String
  | error => "ERROR"
  | warn => "WARN"
  | info => "INFO"
  | debug => "DEBUG"
  | trace => "TRACE"

def ofName? : String → Option Level
  | "error" => some error
  | "warn" => some warn
  | "info" => some info
  | "debug" => some debug
  | "trace" => some trace
  | _ => none

def rank : Level → Nat
  | error => 1
  | warn => 2
  | info => 3
  | debug => 4
  | trace => 5

/-- A log kept at one level shows the records of that level and of those that tell less. -/
def shows (kept level : Level) : Bool := level.rank ≤ kept.rank

end Level

structure Record where
  level : Level
  text : String
  deriving DecidableEq, Repr

def Record.render (r : Record) : String := s!"{r.level.name} {r.text}"

def emission (e : Emission) : Record :=
  ⟨.trace, s!"Emitting {String.ofList e.node.render} at offset {e.offset}"⟩

def outcome (path : String) : Except PathError Path → Record
  | .ok nodes => ⟨.debug, s!"Normalized '{path}' into {nodes.length} nodes"⟩
  | .error e => ⟨.debug, s!"Failed to normalize '{path}': {e.message}"⟩

/-- The records of normalizing one path. -/
def ofPath (path : String) : List Record :=
  (Scan.ofPath path.toList).emissions.map emission ++ [outcome path (normalize path)]

end JsonPath.Log
