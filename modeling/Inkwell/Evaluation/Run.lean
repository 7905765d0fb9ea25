import Inkwell.Evaluation.Evaluate
import Inkwell.Reading.Program

/-!
# Running source text

Text is read and then evaluated in a scope of an existing heap, so that a sequence of runs can share
its bindings. Every run starts without open calls and with an empty trace.
-/

namespace Inkwell

/-- Why a run has no result. A runtime error is a result. -/
inductive Failure where
  /-- The text was not accepted as a program, and nothing was evaluated. -/
  | refused (refusal : Refusal)
  /-- Evaluation needs more depth than allowed. -/
  | exceeded
  deriving DecidableEq, Repr

/-- The end of a run. -/
structure Run where
  /-- The value of the program, none if it ends in a statement without one, or the failure. -/
  outcome : Except Failure (Option Value)
  /-- The machine after the run. -/
  machine : Machine

/-- Evaluates a program on a machine. -/
def Machine.run (verbosity : Int) (depth : Nat) (machine : Machine) (scope : ScopeId)
    (program : Program) : Run :=
  match (program.eval verbosity depth scope).run machine with
  | .ok value machine => ⟨.ok value, machine⟩
  | .error _ machine => ⟨.error .exceeded, machine⟩

/-- Reads a text and evaluates it in a scope. -/
def Heap.runSource (verbosity : Int) (depth : Nat) (heap : Heap) (scope : ScopeId)
    (source : String) : Run :=
  match Program.ofSource depth source with
  | .ok program => (Machine.ofHeap heap).run verbosity depth scope program
  | .error refusal => ⟨.error (.refused refusal), .ofHeap heap⟩

end Inkwell
