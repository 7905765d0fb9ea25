import Inkwell.Evaluation.Trace
import Inkwell.Value.Heap
import Inkwell.Value.Operator

/-!
# The machine that programs run on

The state of a run: the heap of scopes, the trace, and the number of open calls. A step either ends
with a result or exceeds the depth that its caller allows; in both cases the machine is left as the
steps before have made it, so that bindings made before a failure stay. Runtime errors are results.
-/

namespace Inkwell

/-- The state of a run. -/
structure Machine where
  /-- All scopes. -/
  heap : Heap
  /-- What was recorded, from first to last. -/
  trace : Array Event
  /-- The number of calls that have begun and not ended. -/
  openCalls : Nat

namespace Machine

/-- The machine over a heap, with nothing recorded and no call open. -/
def ofHeap (heap : Heap) : Machine := ⟨heap, #[], 0⟩

/-- Records a message. -/
def record (machine : Machine) (message : Message) : Machine :=
  { machine with trace := machine.trace.push ⟨machine.openCalls, message⟩ }

/-- Binds a name in one scope. -/
def set (machine : Machine) (scope : ScopeId) (name : String) (value : Value) : Machine :=
  { machine with heap := machine.heap.set scope name value }

/-- Opens a call. -/
def enter (machine : Machine) : Machine := { machine with openCalls := machine.openCalls + 1 }

/-- Closes a call. -/
def leave (machine : Machine) : Machine := { machine with openCalls := machine.openCalls - 1 }

end Machine

/-- Steps of a run. -/
abbrev EvalM := EStateM DepthExceeded Machine

namespace EvalM

/-- Fails, for want of depth. -/
def exceed {α : Type} : EvalM α := throw .mk

/-- Records a message. -/
def record (message : Message) : EvalM Unit := modify (Machine.record · message)

/-- The text of a value, within a depth. -/
def shown (depth : Nat) (value : Value) : EvalM String :=
  match value.text? depth with
  | some text => return text
  | none => exceed

/-- The text of an expression, within a depth. -/
def shownExpr (depth : Nat) (expression : Expr) : EvalM String :=
  if expression.fits depth then return expression.text else exceed

/-- Turns a fault into the error value that evaluation goes on with. -/
def raise (verbosity : Int) (fault : Fault) : EvalM Value := do
  if 2 ≤ verbosity then record (.raised fault.message)
  return .error fault.message

/-- The value of an operation that may have a fault. -/
def settle (verbosity : Int) : Except Fault Value → EvalM Value
  | .ok value => return value
  | .error fault => raise verbosity fault

/-- Binds a name in one scope. -/
def define (scope : ScopeId) (name : String) (value : Value) : EvalM Unit :=
  modify (Machine.set · scope name value)

/-- The value of a name, looked up from a scope outwards. -/
def lookup (depth : Nat) (scope : ScopeId) (name : String) : EvalM (Option Value) := do
  match (← get).heap.get? name depth scope with
  | .ok found => return found
  | .error _ => exceed

/-- Creates a scope. -/
def allocate (scope : Scope) : EvalM ScopeId :=
  modifyGet fun machine =>
    let (id, heap) := machine.heap.allocate scope
    (id, { machine with heap })

/-- Runs the steps of one call. The call is closed however they end. -/
def nested {α : Type} (steps : EvalM α) : EvalM α := fun machine =>
  match steps machine.enter with
  | .ok result machine => .ok result machine.leave
  | .error exceeded machine => .error exceeded machine.leave

end EvalM

end Inkwell
