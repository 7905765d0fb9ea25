import Inkwell.Console.Session
import Inkwell.Text.Lines
import Inkwell.Text.Path

/-!
# Whole invocations

`invoke` says what an invocation writes and how it ends, given the arguments, the files and the
lines of the input. Without a program file the lines are a session; with one, the file is a single
piece of text, and failing gives the exit code 1. Wrong arguments give the exit code 2. A trace is
kept in a file of its own, even if nothing is recorded, as soon as the verbosity is above zero. That
file is emptied before the program file is looked for.
-/

namespace Inkwell.Console

/-- What stands at a path. -/
inductive Entry where
  /-- Nothing. -/
  | missing
  /-- A directory. -/
  | directory
  /-- A file with these bytes. -/
  | file (content : ByteArray)

/-- What stands at a path, given in plain form, if the current directory holds the given files and
nothing else. The directories above it exist. -/
def Entry.ofFiles (files : List (String × ByteArray)) (path : String) : Entry :=
  match files.lookup path with
  | some content => .file content
  | none =>
    if (Text.Path.parts path).all (· = "..") ||
        files.any fun file => (path ++ "/").toList.isPrefixOf file.1.toList then
      .directory
    else .missing

/-- The file in the current directory that keeps the trace. -/
def traceFile : String := "debug.txt"

/-- What stands at a path, given in plain form, once the trace file has been emptied. -/
def Entry.afterTrace (options : Options) (entryAt : String → Entry) (path : String) : Entry :=
  if 0 < options.verbosity ∧ path = traceFile then .file .empty else entryAt path

/-- The effects of an invocation. -/
structure Report where
  /-- The output. -/
  output : String
  /-- The error output. -/
  errors : String
  /-- The trace, if one was kept. -/
  trace : Option String
  /-- The exit code, or why there is none. -/
  ending : Except Abort Nat

/-- Runs the program file at a path. -/
def runFile (options : Options) (depth : Nat) (machine : Machine) (scope : ScopeId)
    (path : String) : Entry → Turn
  | .missing => ⟨machine, [.err ("Error: file " ++ path ++ " not found\n")], .ok false⟩
  | .directory => ⟨machine, [], .error (.directory path)⟩
  | .file content =>
    match Text.Utf8.decode content with
    | .error cause => ⟨machine, [], .error (.undecodable cause)⟩
    | .ok source => turn options depth machine scope source

/-- What an invocation with the given settings does. -/
def run (options : Options) (depth : Nat) (entryAt : String → Entry) (input : String) : Report :=
  let (scope, heap) := Heap.empty.fresh
  let machine := Machine.ofHeap heap
  let report := fun (turn : Turn) (code : Bool → Nat) =>
    { output := Written.output turn.written
      errors := Written.errors turn.written
      trace :=
        if 0 < options.verbosity then some (Event.allText turn.machine.trace.toList) else none
      ending := turn.ending.map code : Report }
  match options.program with
  | none | some "" =>
    report (interact options depth machine scope (Text.lines input)) fun _ => 0
  | some path =>
    let path := Text.Path.normalize path
    let entry := Entry.afterTrace options entryAt path
    report (runFile options depth machine scope path entry) fun succeeded =>
      if succeeded then 0 else 1

/-- What an invocation with the given arguments does. -/
def invoke (depth : Nat) (entryAt : String → Entry) (arguments : List String) (input : String) :
    Report :=
  match Options.ofArguments arguments with
  | .ok options => run options depth entryAt input
  | .error .help => ⟨help, "", none, .ok 0⟩
  | .error (.misuse cause) =>
    ⟨"", usage ++ "quill: error: " ++ cause.message ++ "\n", none, .ok 2⟩

end Inkwell.Console
