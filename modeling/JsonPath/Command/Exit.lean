import JsonPath.Command.Run
import JsonPath.Log
import JsonPath.Terminal

/-!
Exits: what the command leaves behind, from its status to its log.
-/

namespace JsonPath.Command

/-! ## What the command says about itself and its arguments -/

def usage : String :=
  "Normalize JSONPath expressions into selector nodes\n\n" ++
  "Usage: pathnorm [OPTIONS] [EXPRESSIONS]...\n\n" ++
  "Arguments:\n" ++
  "  [EXPRESSIONS]...  Expressions to normalize. Read one per line from stdin when omitted\n\n" ++
  "Options:\n" ++
  "  -f, --format <FORMAT>  Output format: json, pretty or tokens [default: json]\n" ++
  "      --fail-fast        Stop at the first malformed expression\n" ++
  "  -h, --help             Print help\n" ++
  "  -V, --version          Print version\n"

def version : String := "pathnorm 0.1.0\n"

def ArgumentError.message : ArgumentError → String
  | invalidValue => "error: '--format <FORMAT>' wants one of json, pretty and tokens\n"
  | repeatedOption => "error: an option is given more than once\n"
  | valueForFlag => "error: an option that takes no value is given one\n"
  | unknownArgument => "error: unexpected argument\n"
  | helpWanted => usage
  | versionWanted => version

/-! ## The log -/

/-- The part of the program that a log line comes from. -/
def libraryTarget : String := "pathnorm_jpath::parser"

def commandTarget : String := "pathnorm"

/-- A record's text in the log. Every line of it but the first is indented by four columns, so that
a line that starts at the margin starts a record. -/
def indent (text : String) : String :=
  String.ofList (text.toList.flatMap fun c =>
    if c = '\n' then '\n' :: List.replicate 4 ' ' else [c])

/-- A record as the log shows it, with the level in a column of five characters. The log is meant to
be looked at, so nothing that would steer a terminal goes into it. -/
def logLine (target : String) (r : Log.Record) : String :=
  let level := r.level.name
  let column := level ++ String.ofList (List.replicate (5 - level.length) ' ')
  Terminal.shown s!"[{column} {target}] {indent r.text}\n"

/-! ## Exits -/

structure Exit where
  code : UInt32
  stdout : ByteArray
  stderr : String

namespace Exit

def succeeded (run : Run) : Bool :=
  match run.result with
  | .ok report => report.failed = 0
  | .error _ => false

/-- What is said at the end: a warning if expressions were rejected on the way, or the failure. -/
def closing (level : Log.Level) (run : Run) : String :=
  match run.result with
  | .ok report =>
    if report.failed ≠ 0 ∧ level.shows .warn then
      logLine commandTarget
        ⟨.warn, s!"{report.failed} of {report.total} expressions failed to normalize"⟩
    else ""
  | .error f => s!"Error: {f.message}\n"

/-- The log lines of the expressions that the run handled, which are as many as it counted. -/
def log (level : Log.Level) (run : Run) (items : List Item) : String :=
  let handled := (items.filterMap Item.expression?).take run.report.total
  let records := (handled.flatMap Log.ofPath).filter fun r => level.shows r.level
  String.join (records.map (logLine libraryTarget))

/-- The exit of a run whose output fits wherever it goes. -/
def ofOptions (o : Options) (stdin : List UInt8) (level : Log.Level) : Exit :=
  let run := run o stdin none
  ⟨if succeeded run then 0 else 1, run.sink.taken,
    log level run (o.items stdin) ++ closing level run⟩

/-- Help and the version are what was asked for; any other reason is the caller's mistake. -/
def ofArgumentError : ArgumentError → Exit
  | .helpWanted => ⟨0, usage.toUTF8, ""⟩
  | .versionWanted => ⟨0, version.toUTF8, ""⟩
  | e => ⟨2, .empty, e.message⟩

end Exit

end JsonPath.Command
