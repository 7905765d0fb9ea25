import Inkwell.Reading.Expression
import Inkwell.Token.Scan

/-!
# Reading programs

`Program.read` turns tokens into a program and the diagnostics of the statements that were
dropped; the program holds what survived. `Program.ofSource` reads text and accepts it only if
there are no diagnostics, so that an incomplete program is never evaluated by mistake.
-/

namespace Inkwell

/-- The result of reading a whole text. -/
structure Parsed where
  /-- The statements that were read without a diagnostic of their own. -/
  program : Program
  /-- Why the other statements were dropped, in the order of discovery. -/
  diagnostics : List Diagnostic

/-- Reads all tokens, with expressions nested at most `depth` deep. -/
def Program.read (depth : Nat) (tokens : List Token) : Except Stop Parsed :=
  match (Reading.program (Reading.expression depth)).run (.ofTokens tokens) with
  | .ok program cursor => .ok ⟨program, cursor.diagnostics.toList⟩
  | .error cause _ => .error cause

/-- The program that a text holds, if it was read without diagnostics. -/
def Program.ofSource (depth : Nat) (source : String) : Except Refusal Program :=
  match Program.read depth (Token.scan source) with
  | .error cause => .error (.stopped cause)
  | .ok ⟨program, []⟩ => .ok program
  | .ok ⟨_, diagnostics⟩ => .error (.rejected diagnostics)

end Inkwell
