import Inkwell.Console.Command
import Inkwell.Limits

/-!
# The command line

Carries out on the real console and the real file system what `Inkwell.Console.Command` describes:
a session writes as it goes, and the trace file is written when the invocation ends.
-/

namespace Inkwell.Console

/-- Writes to the console. -/
def write (written : List Written) : IO Unit := do
  for piece in written do
    match piece with
    | .out text => IO.print text
    | .err text => IO.eprint text
  (← IO.getStdout).flush

/-- What stands at a path. -/
def entryAt (path : String) : IO Entry := do
  try
    return .file (← IO.FS.readBinFile path)
  catch
    | .noFileOrDirectory .. => return .missing
    | .noSuchThing .. => return .missing
    | .inappropriateType .. => return .directory
    | .illegalOperation .. => return .directory
    | other => throw other

/-- Keeps the trace of a machine. -/
def keepTrace (options : Options) (machine : Machine) : IO Unit := do
  if 0 < options.verbosity then
    IO.FS.writeFile traceFile (Event.allText machine.trace.toList)

/-- Works on lines that were read already and then on those of the standard input. -/
partial def converse (options : Options) (machine : Machine) (scope : ScopeId)
    (pending : List String) : IO (Machine × Except Abort Bool) := do
  write [.out options.prompt]
  let lines ←
    if pending.isEmpty then do
      let input ← (← IO.getStdin).getLine
      pure (Text.lines input)
    else pure pending
  match lines with
  | [] =>
    write [.out "\n"]
    return (machine, .ok true)
  | line :: rest =>
    if line.isEmpty then return (machine, .ok true)
    let result := turn options maxDepth machine scope line
    write result.written
    match result.ending with
    | .error cause => return (result.machine, .error cause)
    | .ok _ => converse options result.machine scope rest

/-- Ends an invocation. -/
def finish : Except Abort Bool → IO UInt32
  | .ok true => return 0
  | .ok false => return 1
  | .error cause => do
    IO.eprintln ((cause.message?).getD "nested too deeply")
    return 1

/-- Carries out an invocation. -/
def start (arguments : List String) : IO UInt32 := do
  match Options.ofArguments arguments with
  | .error .help =>
    IO.print help
    return 0
  | .error (.misuse cause) =>
    IO.eprint (usage ++ "quill: error: " ++ cause.message ++ "\n")
    return 2
  | .ok options =>
    let (scope, heap) := Heap.empty.fresh
    let machine := Machine.ofHeap heap
    keepTrace options machine
    match options.program with
    | none | some "" =>
      let (machine, ending) ← converse options machine scope []
      keepTrace options machine
      finish (ending.map fun _ => true)
    | some path =>
      let path := Text.Path.normalize path
      let result := runFile options maxDepth machine scope path (← entryAt path)
      write result.written
      keepTrace options result.machine
      finish result.ending

end Inkwell.Console

/-- Runs the interpreter. -/
def main (arguments : List String) : IO UInt32 := Inkwell.Console.start arguments
