import Inkwell.Proofs.Tree.Parts
import Inkwell.Value.Heap
import Inkwell.Value.Operator
import Mathlib.Logic.Relation

/-!
# Regions of the heap

A scope leads to its outer scope and to those of the functions that it binds. Running a program in a
scope touches what the scope reaches, and scopes that it creates itself; both together are a region.
A discipline says which nodes a tree may have, which values may be bound and which faults may arise,
such that operators and literals keep to it. A region is in order if all its bindings keep to the
discipline and all its functions and outer scopes are inside.
-/

namespace Inkwell

/-- A scope leads directly to another one. -/
def Heap.Links (heap : Heap) (scope target : ScopeId) : Prop :=
  ∃ s, heap.scopes[scope]? = some s ∧
    (s.outer = some target ∨
      ∃ name parameters body, s.bindings.get? name = some (.fn parameters body target))

/-- A scope leads to another one in any number of steps. -/
def Heap.Reaches (heap : Heap) : ScopeId → ScopeId → Prop := Relation.ReflTransGen heap.Links

/-- A property of the values bound in all scopes that a scope reaches. -/
def Heap.BoundFrom (heap : Heap) (scope : ScopeId) (p : Value → Prop) : Prop :=
  ∀ target name value, heap.Reaches scope target →
    (heap.bindings target).get? name = some value → p value

/-- What evaluation keeps to: the nodes of trees, the values that are bound, and the faults. -/
structure Discipline where
  /-- Nodes that trees may have. -/
  node : Expr → Prop
  /-- Values that may be bound. -/
  value : Value → Prop
  /-- Faults that may arise. -/
  fault : Fault → Prop
  calm {v : Value} : value v → v.interrupts = false
  null : value .null
  bool (truth : Bool) : value (.bool truth)
  int {token : Token} {number : Int} : node (.int token number) → value (.int number)
  fn {token : Token} {parameters : List Ident} {body : Block} (scope : ScopeId) :
    node (.fn token parameters body) → value (.fn (parameters.map Ident.name) body scope)
  body {parameters : List String} {body : Block} {scope : ScopeId} :
    value (.fn parameters body scope) → ∀ e ∈ body.parts, node e
  wrapped (number : Int) : value (.int (wrap number))
  unary {token : Token} {operator : String} {e : Expr} {v : Value} {f : Fault} :
    node (.unary token operator e) → value v → v.unary operator = .error f → fault f
  binary {token : Token} {operator : String} {a b : Expr} {v w : Value} {f : Fault} :
    node (.binary token a operator b) → value v → value w → v.binary operator w = .error f → fault f
  unbound (name : String) : fault (.unbound name)
  notFunction {v : Value} : value v → v.kind ≠ .function → fault (.notFunction v.kind)

/-- A set of scopes that has all those that are still to be created. -/
structure Region where
  /-- The scopes of the region. -/
  has : ScopeId → Prop
  /-- The first scope that was not yet created. -/
  floor : Nat
  fresh {scope : ScopeId} : floor ≤ scope → has scope

/-- The region of some scopes: what they reach, and what is created from now on. -/
def Heap.region (heap : Heap) (scopes : ScopeId → Prop) : Region where
  has target := (∃ scope, scopes scope ∧ heap.Reaches scope target) ∨ heap.scopes.size ≤ target
  floor := heap.scopes.size
  fresh h := .inr h

variable {D : Discipline} {R : Region} {heap : Heap} {scope : ScopeId} {name : String} {v : Value}

/-- A value that keeps to the discipline and, if it is a function, belongs to the region. -/
structure Value.Good (D : Discipline) (R : Region) (v : Value) : Prop where
  value : D.value v
  inside {parameters : List String} {body : Block} {scope : ScopeId} :
    v = .fn parameters body scope → R.has scope

/-- Bindings of good values. -/
def Bindings.Good (D : Discipline) (R : Region) (bindings : Bindings) : Prop :=
  ∀ name value, bindings.get? name = some value → value.Good D R

/-- A region in order. -/
structure Heap.InOrder (D : Discipline) (R : Region) (heap : Heap) : Prop where
  floor : R.floor ≤ heap.scopes.size
  outer {scope outer : ScopeId} {s : Scope} : R.has scope → heap.scopes[scope]? = some s →
    s.outer = some outer → R.has outer
  bound {scope : ScopeId} {s : Scope} : R.has scope → heap.scopes[scope]? = some s →
    s.bindings.Good D R

/-- A value that is no function is good if the discipline allows it. -/
theorem Value.Good.of_value (h : D.value v) (hk : v.kind ≠ .function) : v.Good D R where
  value := h
  inside heq := by
    subst heq
    exact absurd rfl hk

/-- The null value is good. -/
theorem Value.good_null : Value.null.Good D R := .of_value D.null (by decide)

/-- A name that has been set is bound to its new value, any other one as before. -/
theorem Bindings.get?_set {bindings : Bindings} {key : String} :
    (bindings.set name v).get? key = if name = key then some v else bindings.get? key := by
  induction bindings with
  | nil => rfl
  | cons binding rest ih =>
    obtain ⟨old, value⟩ := binding
    unfold Bindings.set
    by_cases h : old = name
    · subst h
      rw [if_pos rfl]
      simp only [Bindings.get?]
      split <;> rfl
    · rw [if_neg h]
      simp only [Bindings.get?, ih]
      by_cases hk : old = key
      · rw [if_pos hk, if_pos hk, if_neg fun heq => h (hk.trans heq.symm)]
      · rw [if_neg hk, if_neg hk]

/-- No bindings are good ones. -/
theorem Bindings.Good.nil : Bindings.Good D R [] := fun _ _ h => nomatch h

/-- Good bindings stay good when a good value is set. -/
theorem Bindings.Good.set {bindings : Bindings} (h : bindings.Good D R) (hv : v.Good D R) :
    (bindings.set name v).Good D R := by
  intro key value hget
  rw [Bindings.get?_set] at hget
  split at hget
  · cases hget
    exact hv
  · exact h key value hget

/-- Binding a name creates no scope. -/
@[simp]
theorem Heap.size_set (heap : Heap) (scope : ScopeId) (name : String) (v : Value) :
    (heap.set scope name v).scopes.size = heap.scopes.size := Array.size_modify

/-- A new scope is one more. -/
@[simp]
theorem Heap.size_allocate (heap : Heap) (s : Scope) :
    (heap.allocate s).2.scopes.size = heap.scopes.size + 1 := Array.size_push _

/-- Each number that is less than the count of scopes is that of a scope. -/
theorem Heap.exists_scope {id : ScopeId} (h : id < heap.scopes.size) :
    ∃ s, heap.scopes[id]? = some s := ⟨_, Array.getElem?_eq_getElem h⟩

theorem Heap.scope_lt {id : ScopeId} {s : Scope} (h : heap.scopes[id]? = some s) :
    id < heap.scopes.size := (Array.getElem?_eq_some_iff.mp h).1

/-- Binding a name leaves the outer scopes as they are. -/
theorem Heap.scope_set {id : ScopeId} {s : Scope}
    (h : (heap.set scope name v).scopes[id]? = some s) :
    ∃ old, heap.scopes[id]? = some old ∧ s.outer = old.outer ∧
      (s.bindings = old.bindings ∨ s.bindings = old.bindings.set name v) := by
  unfold Heap.set at h
  rw [Array.getElem?_modify] at h
  split at h
  · obtain ⟨old, hold, rfl⟩ := Option.map_eq_some_iff.mp h
    exact ⟨old, hold, rfl, .inr rfl⟩
  · exact ⟨s, h, rfl, .inl rfl⟩

/-- A new scope is the only one that was not there before. -/
theorem Heap.scope_allocate {id : ScopeId} {s t : Scope}
    (h : (heap.allocate s).2.scopes[id]? = some t) :
    heap.scopes[id]? = some t ∨ id = heap.scopes.size ∧ t = s := by
  unfold Heap.allocate at h
  rw [Array.getElem?_push] at h
  split at h
  · exact .inr ⟨‹_›, (Option.some.inj h).symm⟩
  · exact .inl h

namespace Heap.InOrder

/-- What is found on a chain of scopes is good. -/
theorem get? (h : heap.InOrder D R) {depth : Nat} (hs : R.has scope)
    (hget : heap.get? name depth scope = .ok (some v)) : v.Good D R := by
  induction depth generalizing scope with
  | zero => cases hget
  | succ depth ih =>
    unfold Heap.get? at hget
    split at hget
    · cases hget
    · rename_i s hscope
      split at hget
      · rename_i value hbound
        cases hget
        exact h.bound hs hscope name v hbound
      · split at hget
        · rename_i outer houter
          exact ih (h.outer hs hscope houter) hget
        · cases hget

/-- Binding a good value keeps a region in order. -/
theorem set (h : heap.InOrder D R) (hv : v.Good D R) : (heap.set scope name v).InOrder D R where
  floor := by
    rw [Heap.size_set]
    exact h.floor
  outer ht hs houter := by
    obtain ⟨old, hold, hsame, -⟩ := Heap.scope_set hs
    exact h.outer ht hold (hsame ▸ houter)
  bound ht hs := by
    obtain ⟨old, hold, -, hsame | hset⟩ := Heap.scope_set hs
    · exact hsame ▸ h.bound ht hold
    · exact hset ▸ (h.bound ht hold).set hv

/-- Creating a scope of good bindings keeps a region in order. -/
theorem allocate (h : heap.InOrder D R) {s : Scope} (hb : s.bindings.Good D R)
    (ho : ∀ {outer}, s.outer = some outer → R.has outer) :
    R.has (heap.allocate s).1 ∧ (heap.allocate s).2.InOrder D R := by
  refine ⟨R.fresh h.floor, ?_, ?_, ?_⟩
  · rw [Heap.size_allocate]
    exact Nat.le_succ_of_le h.floor
  · intro target outer found ht hf houter
    rcases Heap.scope_allocate hf with hf | ⟨-, rfl⟩
    · exact h.outer ht hf houter
    · exact ho houter
  · intro target found ht hf
    rcases Heap.scope_allocate hf with hf | ⟨-, rfl⟩
    · exact h.bound ht hf
    · exact hb

end Heap.InOrder

/-- The bindings of a scope that exists are those it has. -/
theorem Heap.get?_bindings {target : ScopeId} {s : Scope} (h : heap.scopes[target]? = some s) :
    heap.bindings target = s.bindings := by
  unfold Heap.bindings
  rw [h]

/-- A scope that has a binding exists. -/
theorem Heap.mem_bindings {id : ScopeId} {binding : String × Value}
    (h : binding ∈ heap.bindings id) : ∃ s, heap.scopes[id]? = some s ∧ binding ∈ s.bindings := by
  unfold Heap.bindings at h
  split at h
  · exact ⟨_, ‹_›, h⟩
  · cases h

/-- The region of some scopes is in order if everything bound there keeps to the discipline. -/
theorem Heap.inOrder_region {scopes : ScopeId → Prop}
    (h : ∀ {scope}, scopes scope → heap.BoundFrom scope D.value) :
    heap.InOrder D (heap.region scopes) := by
  have hold : ∀ {target : ScopeId} {s : Scope}, (heap.region scopes).has target →
      heap.scopes[target]? = some s → ∃ scope, scopes scope ∧ heap.Reaches scope target := by
    intro target s ht hs
    rcases ht with ht | ht
    · exact ht
    · rw [Array.getElem?_eq_none ht] at hs
      cases hs
  constructor
  · exact Nat.le_refl _
  · intro target outer s ht hs houter
    obtain ⟨scope, hscope, hreach⟩ := hold ht hs
    exact .inl ⟨scope, hscope, hreach.tail ⟨s, hs, .inl houter⟩⟩
  · intro target s ht hs name value hget
    obtain ⟨scope, hscope, hreach⟩ := hold ht hs
    refine ⟨h hscope target name value hreach (by rwa [Heap.get?_bindings hs]), ?_⟩
    rintro parameters body captured rfl
    exact .inl ⟨scope, hscope, hreach.tail ⟨s, hs, .inr ⟨name, parameters, body, hget⟩⟩⟩

end Inkwell
