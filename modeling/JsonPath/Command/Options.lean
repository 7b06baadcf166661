/-!
The options of the command and the arguments that set them.
-/

namespace JsonPath.Command

inductive Format
  | json
  | pretty
  | tokens
  deriving DecidableEq, Repr

def Format.ofName? : String → Option Format
  | "json" => some json
  | "pretty" => some pretty
  | "tokens" => some tokens
  | _ => none

structure Options where
  expressions : List String := []
  format : Format := .json
  /-- Stop at the first expression that is no path. -/
  failFast : Bool := false
  deriving DecidableEq, Repr

/-- Why arguments set no options. Asking for help or for the version is one such reason. -/
inductive ArgumentError
  | invalidValue
  | repeatedOption
  | valueForFlag
  | unknownArgument
  | helpWanted
  | versionWanted
  deriving DecidableEq, Repr

/-- A `--format` of which the value has not been looked at. -/
inductive Pending
  | nothing
  | awaited
  | value (text : String)
  deriving DecidableEq, Repr

/-- What the arguments so far have set. Expressions are kept newest first. -/
structure Draft where
  expressions : List String := []
  format : Option Format := none
  failFast : Bool := false
  pending : Pending := .nothing
  deriving DecidableEq, Repr

namespace Draft

/-- Looks at a pending value. This waits until the next known option, the next expression or the end
of the arguments; an argument that nobody knows comes before it. -/
def settle (d : Draft) : Except ArgumentError Draft :=
  match d.pending with
  | .nothing => .ok d
  | .awaited => .error .invalidValue
  | .value text =>
    if d.format.isSome then .error .repeatedOption
    else
      match Format.ofName? text with
      | none => .error .invalidValue
      | some f => .ok { d with format := some f, pending := .nothing }

/-- The option `--format`, of which the next argument is the value. -/
def awaitFormat (d : Draft) : Except ArgumentError Draft :=
  d.settle.map fun d => { d with pending := .awaited }

/-- The option `--format` with its value in the same argument. -/
def setFormat (d : Draft) (text : List Char) : Except ArgumentError Draft :=
  d.settle.bind fun d => settle { d with pending := .value (String.ofList text) }

def setFailFast (d : Draft) : Except ArgumentError Draft :=
  d.settle.bind fun d =>
    if d.failFast then .error .repeatedOption else .ok { d with failFast := true }

def stop (d : Draft) (reason : ArgumentError) : Except ArgumentError Draft :=
  d.settle.bind fun _ => .error reason

/-- An argument after `--`, with or without `=` and a value. -/
def long (d : Draft) (name : List Char) (value : Option (List Char)) : Except ArgumentError Draft :=
  match String.ofList name, value with
  | "format", none => d.awaitFormat
  | "format", some text => d.setFormat text
  | "fail-fast", none => d.setFailFast
  | "help", none => d.stop .helpWanted
  | "version", none => d.stop .versionWanted
  | "fail-fast", some _ => .error .valueForFlag
  | "help", some _ => .error .valueForFlag
  | "version", some _ => .error .valueForFlag
  | _, _ => .error .unknownArgument

/-- An argument after `-`, whose letters are options of their own up to one that takes a value. -/
def short (d : Draft) : List Char → Except ArgumentError Draft
  | ['f'] => d.awaitFormat
  | 'f' :: '=' :: text => d.setFormat text
  | 'f' :: text => d.setFormat text
  | 'h' :: _ => d.stop .helpWanted
  | 'V' :: _ => d.stop .versionWanted
  | _ => .error .unknownArgument

/-- An argument that names no option: an awaited value, or else an expression. -/
def plain (d : Draft) (argument : String) : Except ArgumentError Draft :=
  if d.pending = .awaited then .ok { d with pending := .value argument }
  else d.settle.map fun d => { d with expressions := argument :: d.expressions }

/-- Takes one argument other than `--`. -/
def take (d : Draft) (argument : String) : Except ArgumentError Draft :=
  match argument.toList with
  | '-' :: '-' :: text =>
    let name := text.takeWhile (· ≠ '=')
    match text.dropWhile (· ≠ '=') with
    | [] => d.long name none
    | _ :: value => d.long name (some value)
  | '-' :: c :: text => d.short (c :: text)
  | _ => d.plain argument

def finish (d : Draft) : Except ArgumentError Options :=
  d.settle.map fun d => ⟨d.expressions.reverse, d.format.getD .json, d.failFast⟩

/-- After `--` every argument is an expression. -/
def finishWith (d : Draft) (expressions : List String) : Except ArgumentError Options :=
  d.settle.bind fun d => finish { d with expressions := expressions.reverse ++ d.expressions }

end Draft

namespace Options

def parseFrom (d : Draft) : List String → Except ArgumentError Options
  | [] => d.finish
  | argument :: rest =>
    if argument = "--" then d.finishWith rest
    else (d.take argument).bind fun d => parseFrom d rest

def parse (arguments : List String) : Except ArgumentError Options := parseFrom {} arguments

end Options

end JsonPath.Command
