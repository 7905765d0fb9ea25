import Inkwell.Value.Basic

/-!
# The heap of scopes

A scope binds names to values and may have an outer scope. Scopes are numbered in the order of
their creation and are never removed; functions and inner scopes refer to them by number, so a
binding made later is seen by everyone who shares the scope. A name belongs to the nearest scope
on the chain that binds it.

Looking a name up takes one unit of depth for every scope it visits.
-/

namespace Inkwell

/-- Bindings of names to values, at most one for each name, in the order in which the names were
first bound. -/
abbrev Bindings := List (String × Value)

namespace Bindings

/-- The value bound to a name. -/
def get? (name : String) : Bindings → Option Value
  | [] => none
  | (key, value) :: rest => if key = name then some value else get? name rest

/-- Binds a name, in the place of its earlier binding if there is one. -/
def set (name : String) (value : Value) : Bindings → Bindings
  | [] => [(name, value)]
  | (key, old) :: rest =>
    if key = name then (key, value) :: rest else (key, old) :: set name value rest

end Bindings

/-- A scope: its own bindings, and the scope around it. -/
structure Scope where
  /-- The bindings of this scope alone. -/
  bindings : Bindings
  /-- The scope around this one. -/
  outer : Option ScopeId
  deriving Inhabited

/-- All scopes that were ever created. -/
structure Heap where
  /-- The scopes, each at the position that is its number. -/
  scopes : Array Scope

/-- The mark that a computation nests more deeply than its caller allows. -/
inductive DepthExceeded where
  | mk
  deriving DecidableEq, Repr

namespace Heap

/-- The heap without scopes. -/
def empty : Heap := ⟨#[]⟩

instance : EmptyCollection Heap := ⟨empty⟩

/-- Creates a scope and gives its number. -/
def allocate (heap : Heap) (scope : Scope) : ScopeId × Heap :=
  (heap.scopes.size, ⟨heap.scopes.push scope⟩)

/-- Creates a scope without bindings and without an outer scope. -/
def fresh (heap : Heap) : ScopeId × Heap := heap.allocate ⟨[], none⟩

/-- Creates a scope without bindings inside another one. -/
def enclosed (heap : Heap) (outer : ScopeId) : ScopeId × Heap := heap.allocate ⟨[], some outer⟩

/-- Binds a name in one scope, leaving all others as they are. -/
def set (heap : Heap) (scope : ScopeId) (name : String) (value : Value) : Heap :=
  ⟨heap.scopes.modify scope fun s => { s with bindings := s.bindings.set name value }⟩

/-- The bindings of one scope, without those of the scopes around it. -/
def bindings (heap : Heap) (scope : ScopeId) : Bindings :=
  match heap.scopes[scope]? with
  | some s => s.bindings
  | none => []

/-- The value of a name: the binding of the nearest scope on the chain that has one. -/
def get? (heap : Heap) (name : String) :
    (depth : Nat) → ScopeId → Except DepthExceeded (Option Value)
  | 0, _ => .error .mk
  | depth + 1, scope =>
    match heap.scopes[scope]? with
    | none => .ok none
    | some s =>
      match s.bindings.get? name with
      | some value => .ok (some value)
      | none =>
        match s.outer with
        | some outer => heap.get? name depth outer
        | none => .ok none

end Heap

end Inkwell
