import JsonPath.Command.Exit

/-!
The command. The standard input is read only when the arguments hold no expression.
-/

namespace JsonPath.Command

/-- The variable of the environment that says how much the log tells. -/
def logVariable : String := "RUST_LOG"

partial def readToEnd (stream : IO.FS.Stream) (bytes : ByteArray) : IO ByteArray := do
  let more ← stream.read 65536
  if more.isEmpty then return bytes else readToEnd stream (bytes ++ more)

def execute (o : Options) : IO Exit := do
  let level := ((← IO.getEnv logVariable).bind Log.Level.ofName?).getD .error
  let stdin ← if o.expressions.isEmpty then readToEnd (← IO.getStdin) .empty else pure .empty
  return Exit.ofOptions o stdin.toList level

end JsonPath.Command

open JsonPath.Command in
def main (arguments : List String) : IO UInt32 := do
  let exit ← match Options.parse arguments with
    | .ok o => execute o
    | .error e => pure (Exit.ofArgumentError e)
  (← IO.getStdout).write exit.stdout
  (← IO.getStderr).putStr exit.stderr
  return exit.code
