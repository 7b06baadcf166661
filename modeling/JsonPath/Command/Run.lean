import JsonPath.Command.Input
import JsonPath.Command.Record
import JsonPath.Scan

/-!
Runs: expressions are normalized one after another, and a record of each is written to a sink. A run
goes on until its expressions end or something fails.
-/

namespace JsonPath.Command

/-- Where output goes. -/
structure Sink where
  taken : ByteArray := .empty
  /-- How many more bytes fit; any number if this is `none`. -/
  room : Option Nat := none

/-- Writes bytes and tells whether all of them fitted. A sink with limited room takes those that
fit. -/
def Sink.write (sink : Sink) (bytes : ByteArray) : Sink × Bool :=
  match sink.room with
  | none => ({ sink with taken := sink.taken ++ bytes }, true)
  | some n =>
    if bytes.size ≤ n then (⟨sink.taken ++ bytes, some (n - bytes.size)⟩, true)
    else (⟨sink.taken ++ bytes.extract 0 n, some 0⟩, false)

/-- How many expressions were handled, and how many of them are no paths. -/
structure Report where
  total : Nat := 0
  failed : Nat := 0
  deriving DecidableEq, Repr

inductive Failure
  | rejected (expression : String) (error : PathError)
  /-- A line of the standard input is not UTF-8. -/
  | unreadable
  /-- A record's JSON does not fit into the sink. -/
  | recordCut
  /-- Other output does not fit into the sink. -/
  | sinkFull
  deriving DecidableEq, Repr

def Failure.message : Failure → String
  | rejected expression e => s!"Cannot normalize '{expression}': {e.message}"
  | unreadable => "I/O error: stream did not contain valid UTF-8"
  | recordCut => "JSON encoding error: failed to write whole buffer"
  | sinkFull => "I/O error: failed to write whole buffer"

structure Run where
  sink : Sink := {}
  report : Report := {}
  failure : Option Failure := none

namespace Run

/-- The failure of a record that does not fit. -/
def cut : Format → Failure
  | .json => .recordCut
  | .pretty => .recordCut
  | .tokens => .sinkFull

def emit (run : Run) (format : Format) (record : List Char) : Run :=
  match run.sink.write (String.ofList record).toUTF8 with
  | (sink, false) => { run with sink, failure := some (cut format) }
  | (sink, true) =>
    match sink.write "\n".toUTF8 with
    | (sink, false) => { run with sink, failure := some .sinkFull }
    | (sink, true) => { run with sink }

def count (report : Report) : Except PathError Path → Report
  | .ok _ => { report with total := report.total + 1 }
  | .error _ => ⟨report.total + 1, report.failed + 1⟩

/-- Handles one expression. It is counted before anything is written about it. -/
def expression (o : Options) (run : Run) (text : String) : Run :=
  let result := normalize text
  let run := { run with report := count run.report result }
  match result with
  | .error e =>
    if o.failFast then { run with failure := some (.rejected text e) }
    else run.emit o.format (record o.format text result)
  | .ok _ => run.emit o.format (record o.format text result)

/-- Handles the next item, unless something has failed. -/
def step (o : Options) (run : Run) (item : Item) : Run :=
  match run.failure with
  | some _ => run
  | none =>
    match item with
    | .unreadable => { run with failure := some .unreadable }
    | .expression text => run.expression o text

def start (limit : Option Nat) : Run := { sink := { room := limit } }

def all (o : Options) (limit : Option Nat) (items : List Item) : Run :=
  items.foldl (step o) (start limit)

def result (run : Run) : Except Failure Report :=
  match run.failure with
  | none => .ok run.report
  | some f => .error f

end Run

/-- The run of the command with a sink that takes `limit` bytes. -/
def run (o : Options) (stdin : List UInt8) (limit : Option Nat) : Run :=
  Run.all o limit (o.items stdin)

end JsonPath.Command
