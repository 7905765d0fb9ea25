import Inkwell.Console.Options
import Inkwell.Evaluation.Run
import Inkwell.Text.Utf8

/-!
# Sessions

A session works on one piece of text after the other, on one machine and in one scope, so that
bindings are kept. Each piece is read and then evaluated, or printed in canonical form, or only cut
into tokens, as the options say. What is written goes to the output, or to the error output for
diagnostics. A piece that fails leaves the session running; only an abort ends it.
-/

namespace Inkwell.Console

/-- A piece of text that was written, and where to. -/
inductive Written where
  /-- To the output. -/
  | out (text : String)
  /-- To the error output. -/
  | err (text : String)
  deriving DecidableEq, Repr

/-- What went to the output. -/
def Written.output (written : List Written) : String :=
  String.join (written.map fun | .out text => text | .err _ => "")

/-- What went to the error output. -/
def Written.errors (written : List Written) : String :=
  String.join (written.map fun | .out _ => "" | .err text => text)

/-- Why an invocation ended without an exit code of its own. -/
inductive Abort where
  /-- Reading ended early. -/
  | stopped (cause : Stop)
  /-- A text to be written nests too deeply. -/
  | unshowable
  /-- The program file is no text. -/
  | undecodable (cause : Text.Utf8.Malformed)
  /-- The program file is a directory. -/
  | directory (path : String)
  deriving DecidableEq, Repr

/-- The text of an abort. Nesting too deeply has none. -/
def Abort.message? : Abort → Option String
  | stopped cause => cause.message?
  | unshowable => none
  | undecodable cause => some cause.message
  | directory path => some ("[Errno 21] Is a directory: " ++ Text.Quoted.encode path)

/-- The end of the work on a piece of text. -/
structure Turn where
  /-- The machine afterwards. -/
  machine : Machine
  /-- What was written, in order. -/
  written : List Written
  /-- Whether the piece succeeded, unless it aborted the session. -/
  ending : Except Abort Bool

/-- One line of a token listing. -/
def tokenLine (token : Token) : String :=
  token.kind.name ++ " " ++ Text.Quoted.encode token.literal ++ "\n"

/-- The tokens of a text, one a line, the end of the input included. -/
def tokenListing (source : String) : String :=
  String.join ((Token.scan source ++ [Token.eof]).map tokenLine)

/-- A block of diagnostics. -/
def diagnosticBlock (diagnostics : List Diagnostic) : String :=
  "parser errors:\n" ++
    String.join (diagnostics.map fun diagnostic => "\t" ++ diagnostic.message ++ "\n")

/-- The message of a run that exceeds its depth. -/
def exceededLine : String := "Runtime error: maximum recursion depth exceeded\n"

/-- Evaluates a program and writes its value. A runtime error is written like any other value, but
does not count as success. -/
def evaluate (options : Options) (depth : Nat) (machine : Machine) (scope : ScopeId)
    (program : Program) : Turn :=
  let run := machine.run options.verbosity depth scope program
  match run.outcome with
  | .error _ => ⟨run.machine, [.err exceededLine], .ok false⟩
  | .ok none => ⟨run.machine, [], .ok true⟩
  | .ok (some value) =>
    match value.text? depth with
    | some text => ⟨run.machine, [.out (text ++ "\n")], .ok !value.isError⟩
    | none => ⟨run.machine, [], .error .unshowable⟩

/-- Works on one piece of text. -/
def turn (options : Options) (depth : Nat) (machine : Machine) (scope : ScopeId)
    (source : String) : Turn :=
  if options.mode = .tokens then ⟨machine, [.out (tokenListing source)], .ok true⟩
  else
    match Program.read depth (Token.scan source) with
    | .error cause => ⟨machine, [], .error (.stopped cause)⟩
    | .ok ⟨program, []⟩ =>
      if options.mode = .canonical then
        if program.fits depth then ⟨machine, [.out (program.text ++ "\n")], .ok true⟩
        else ⟨machine, [], .error .unshowable⟩
      else evaluate options depth machine scope program
    | .ok ⟨_, diagnostics⟩ => ⟨machine, [.err (diagnosticBlock diagnostics)], .ok false⟩

/-- Works on lines, each behind a prompt, until an empty line or the end of the input; the end of
the input is answered by a line end. Lines that fail do not end the session. -/
def interact (options : Options) (depth : Nat) (machine : Machine) (scope : ScopeId) :
    List String → Turn
  | [] => ⟨machine, [.out options.prompt, .out "\n"], .ok true⟩
  | line :: rest =>
    if line.isEmpty then ⟨machine, [.out options.prompt], .ok true⟩
    else
      let first := turn options depth machine scope line
      match first.ending with
      | .error cause => ⟨first.machine, .out options.prompt :: first.written, .error cause⟩
      | .ok _ =>
        let others := interact options depth first.machine scope rest
        ⟨others.machine, .out options.prompt :: (first.written ++ others.written), others.ending⟩

end Inkwell.Console
