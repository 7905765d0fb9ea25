import Inkwell.Proofs.Evaluation.Coupling
import Inkwell.Proofs.Tree.Levels

/-!
# Heaps with other numbers

Evaluation never looks at the number of a scope: it only follows numbers to the scopes they stand
for. So a run on a heap where the same scopes have other numbers, between or beside any others, goes
the same way. Numbers change by an injective function that also says where new scopes will be, the
first new one of one heap being the first new one of the other. The trace shows no numbers at all,
so that both runs record the same events.
-/

namespace Inkwell

variable {f : ScopeId → ScopeId} {name : String} {v : Value} {depth more : Nat}

namespace Value

/-- The value with other numbers for the scopes of its functions. -/
def renumber (f : ScopeId → ScopeId) : Value → Value
  | int number => int number
  | bool truth => bool truth
  | null => null
  | error message => error message
  | returned value => returned (value.renumber f)
  | fn parameters body scope => fn parameters body (f scope)

/-- The scope that a function was created in, also behind the wrapper of a `return`. -/
def captured? : Value → Option ScopeId
  | returned value => value.captured?
  | fn _ _ scope => some scope
  | _ => none

/-- A value is like what it is with other numbers for scopes. -/
theorem alike_renumber (f : ScopeId → ScopeId) : ∀ v : Value, v.Alike (v.renumber f)
  | int _ => .int _
  | bool _ => .bool _
  | null => .null
  | error _ => .error _
  | returned v => .returned (alike_renumber f v)
  | fn _ _ _ => .fn

/-- The numbers of scopes are not printed. -/
@[simp]
theorem text_renumber : ∀ v : Value, (v.renumber f).text = v.text
  | int _ => rfl
  | bool _ => rfl
  | null => rfl
  | error _ => rfl
  | returned v => text_renumber v
  | fn _ _ _ => rfl

theorem fits_renumber (hle : depth ≤ more) : ∀ {v : Value}, v.fits depth = true →
    (v.renumber f).fits more = true
  | int _, _ => rfl
  | bool _, _ => rfl
  | null, _ => rfl
  | error _, _ => rfl
  | returned v, h => fits_renumber hle (v := v) h
  | fn _ _ _, h => Block.fits_mono h hle

/-- Only functions change, and only those whose scope has another number. -/
theorem renumber_eq_self : ∀ {v : Value}, (∀ id ∈ v.captured?, f id = id) → v.renumber f = v
  | int _, _ => rfl
  | bool _, _ => rfl
  | null, _ => rfl
  | error _, _ => rfl
  | returned _, h => congrArg returned (renumber_eq_self h)
  | fn _ _ id, h => congrArg (fn _ _) (h id rfl)

/-- Numbering a value as before changes nothing. -/
theorem renumber_id (v : Value) : v.renumber id = v := renumber_eq_self fun _ _ => rfl

/-- A value that is no function has no numbers in it. -/
theorem renumber_eq_of_plain (hf : v.kind ≠ .function) (hr : v.kind ≠ .returned) :
    v.renumber f = v := by
  cases v with
  | fn => exact absurd rfl hf
  | returned => exact absurd rfl hr
  | int => rfl
  | bool => rfl
  | null => rfl
  | error => rfl

end Value

/-- A heap in which all numbers stand for scopes. -/
structure Heap.Closed (heap : Heap) : Prop where
  outer {id outer : ScopeId} {s : Scope} : heap.scopes[id]? = some s → s.outer = some outer →
    outer < heap.scopes.size
  bound {id captured : ScopeId} {s : Scope} {name : String} {v : Value} :
    heap.scopes[id]? = some s → (name, v) ∈ s.bindings → v.captured? = some captured →
    captured < heap.scopes.size

/-- What a name is bound to stands in the bindings. -/
theorem Bindings.mem_of_get? {bindings : Bindings} (h : bindings.get? name = some v) :
    (name, v) ∈ bindings := by
  induction bindings with
  | nil => cases h
  | cons binding rest ih =>
    obtain ⟨key, value⟩ := binding
    rw [Bindings.get?] at h
    split at h
    · subst key
      cases h
      exact List.mem_cons_self
    · exact List.mem_cons_of_mem _ (ih h)

/-- A heap of one scope with one binding. -/
theorem Heap.closed_singleton {value : Value} (h : ∀ id ∈ value.captured?, id = 0) :
    Heap.Closed ⟨#[⟨[(name, value)], none⟩]⟩ where
  outer {id} _ s hs ho := by
    cases id <;> cases hs
    cases ho
  bound {id captured s key v} hs hv hc := by
    cases id <;> cases hs
    have hsame : (key, v) = (name, value) := List.mem_singleton.mp hv
    cases hsame
    exact h captured hc ▸ Nat.zero_lt_one

namespace Bindings

variable {g : Value → Value}

/-- The bindings of the same names to other values. -/
def mapValues (g : Value → Value) (bindings : Bindings) : Bindings :=
  bindings.map fun binding => (binding.1, g binding.2)

/-- The values are changed from the first one on. -/
theorem mapValues_cons {value : Value} {rest : Bindings} :
    mapValues g ((name, value) :: rest) = (name, g value) :: mapValues g rest := rfl

/-- A name is bound to its changed value. -/
theorem get?_mapValues (bindings : Bindings) :
    (bindings.mapValues g).get? name = (bindings.get? name).map g := by
  induction bindings with
  | nil => rfl
  | cons binding rest ih =>
    obtain ⟨key, value⟩ := binding
    rw [mapValues_cons, Bindings.get?, Bindings.get?]
    split
    · rfl
    · exact ih

/-- Setting a name goes on below the change of values. -/
theorem mapValues_set (bindings : Bindings) :
    (bindings.set name v).mapValues g = (bindings.mapValues g).set name (g v) := by
  induction bindings with
  | nil => rfl
  | cons binding rest ih =>
    obtain ⟨key, value⟩ := binding
    rw [mapValues_cons, Bindings.set, Bindings.set]
    split
    · rw [mapValues_cons]
    · rw [mapValues_cons, ih]

end Bindings

/-- The bindings of a call with other arguments. -/
theorem argumentBindings_mapValues {g : Value → Value} (hnull : g .null = .null)
    (parameters : List String) (arguments : List Value) :
    (argumentBindings parameters arguments).mapValues g =
      argumentBindings parameters (arguments.map g) := by
  have hgo : ∀ bindings : Bindings,
      (argumentBindings.go bindings parameters arguments).mapValues g =
        argumentBindings.go (bindings.mapValues g) parameters (arguments.map g) := by
    induction parameters generalizing arguments with
    | nil => exact fun _ => rfl
    | cons name names ih =>
      intro bindings
      cases arguments with
      | nil =>
        have hrest := ih [] (bindings.set name .null)
        rwa [Bindings.mapValues_set, hnull] at hrest
      | cons first rest =>
        have hrest := ih rest (bindings.set name first)
        rwa [Bindings.mapValues_set] at hrest
  exact hgo []

/-- The bindings of the same names to the values with other numbers. -/
def Bindings.renumber (f : ScopeId → ScopeId) (bindings : Bindings) : Bindings :=
  bindings.map fun binding => (binding.1, binding.2.renumber f)

/-- The scope with other numbers. -/
def Scope.renumber (f : ScopeId → ScopeId) (scope : Scope) : Scope :=
  ⟨scope.bindings.renumber f, scope.outer.map f⟩

/-- A heap that has the scopes of another one under other numbers. -/
structure Heap.Renumbered (f : ScopeId → ScopeId) (heap other : Heap) : Prop where
  injective : Function.Injective f
  /-- The scopes that are still to be created come in the same order. -/
  fresh (i : Nat) : f (heap.scopes.size + i) = other.scopes.size + i
  scope {id : ScopeId} {s : Scope} : heap.scopes[id]? = some s →
    other.scopes[f id]? = some (s.renumber f)

/-- A name is bound to its value, numbered anew. -/
theorem Bindings.get?_renumber (bindings : Bindings) :
    (bindings.renumber f).get? name = (bindings.get? name).map (Value.renumber f) :=
  bindings.get?_mapValues

/-- Setting a name goes on below the numbering. -/
theorem Bindings.renumber_set (bindings : Bindings) :
    (bindings.set name v).renumber f = (bindings.renumber f).set name (v.renumber f) :=
  bindings.mapValues_set

/-- Only scopes with functions or an outer scope change, and only if these have other numbers. -/
theorem Scope.renumber_eq_self {scope : Scope} (ho : ∀ id ∈ scope.outer, f id = id)
    (hb : ∀ name v, (name, v) ∈ scope.bindings → ∀ id ∈ v.captured?, f id = id) :
    scope.renumber f = scope := by
  obtain ⟨bindings, outer⟩ := scope
  have hbindings : bindings.renumber f = bindings := by
    have hid : ∀ binding ∈ bindings, (binding.1, binding.2.renumber f) = binding :=
      fun ⟨name, v⟩ h => by rw [Value.renumber_eq_self (hb name v h)]
    exact (List.map_congr_left hid).trans (List.map_id _)
  have houter : outer.map f = outer := by
    cases outer with
    | none => rfl
    | some id => exact congrArg some (ho id rfl)
  rw [Scope.renumber, hbindings, houter]

/-- Numbering a scope as before changes nothing. -/
theorem Scope.renumber_id (scope : Scope) : scope.renumber id = scope :=
  Scope.renumber_eq_self (fun _ _ => rfl) fun _ _ _ _ _ => rfl

/-- The bindings of a call are numbered by its arguments. -/
theorem argumentBindings_renumber (parameters : List String) (arguments : List Value) :
    (argumentBindings parameters arguments).renumber f =
      argumentBindings parameters (arguments.map (Value.renumber f)) :=
  argumentBindings_mapValues rfl parameters arguments

namespace Heap.Renumbered

variable {heap other : Heap} {target : ScopeId}

/-- A scope that does not exist does not do so under its other number. -/
theorem missing (h : heap.Renumbered f other) (hid : heap.scopes[target]? = none) :
    other.scopes[f target]? = none := by
  obtain ⟨i, rfl⟩ := Nat.exists_eq_add_of_le (Array.getElem?_eq_none_iff.mp hid)
  rw [h.fresh]
  exact Array.getElem?_eq_none (Nat.le_add_right _ _)

/-- What is found on a chain of scopes, within at least as much depth. -/
theorem get? (h : heap.Renumbered f other) (hle : depth ≤ more) {found : Option Value}
    (hget : heap.get? name depth target = .ok found) :
    other.get? name more (f target) = .ok (found.map (Value.renumber f)) := by
  induction depth generalizing target more with
  | zero => cases hget
  | succ depth ih =>
    obtain ⟨more, rfl⟩ : ∃ n, more = n + 1 := Nat.exists_eq_succ_of_ne_zero (by omega)
    unfold Heap.get? at hget ⊢
    cases hs : heap.scopes[target]? with
    | none =>
      rw [hs] at hget
      cases hget
      rw [h.missing hs]
      rfl
    | some s =>
      rw [hs] at hget
      rw [h.scope hs]
      simp only [Scope.renumber, Bindings.get?_renumber] at hget ⊢
      cases hv : s.bindings.get? name with
      | some v =>
        rw [hv] at hget
        cases hget
        rfl
      | none =>
        rw [hv] at hget
        cases ho : s.outer with
        | none =>
          rw [ho] at hget
          cases hget
          rfl
        | some outer =>
          rw [ho] at hget
          exact ih (Nat.le_of_succ_le_succ hle) hget

/-- Heaps are numbered alike after a name is set in both. -/
theorem set (h : heap.Renumbered f other) :
    (heap.set target name v).Renumbered f (other.set (f target) name (v.renumber f)) where
  injective := h.injective
  fresh i := by rw [Heap.size_set, Heap.size_set, h.fresh]
  scope {place s} hs := by
    unfold Heap.set at hs ⊢
    rw [Array.getElem?_modify] at hs ⊢
    split at hs
    · subst target
      obtain ⟨old, hold, rfl⟩ := Option.map_eq_some_iff.mp hs
      rw [if_pos rfl, h.scope hold, Option.map_some]
      simp only [Scope.renumber, Bindings.renumber_set]
    · rename_i hne
      rw [if_neg fun heq => hne (h.injective heq)]
      exact h.scope hs

/-- They are so after a scope is created in both. -/
theorem allocate (h : heap.Renumbered f other) (s : Scope) :
    (heap.allocate s).2.Renumbered f (other.allocate (s.renumber f)).2 where
  injective := h.injective
  fresh i := by
    rw [Heap.size_allocate, Heap.size_allocate, Nat.add_assoc, h.fresh, Nat.add_assoc]
  scope {place found} hfound := by
    unfold Heap.allocate at hfound ⊢
    rw [Array.getElem?_push] at hfound ⊢
    split at hfound
    · cases hfound
      subst place
      have hfresh : f heap.scopes.size = other.scopes.size := h.fresh 0
      rw [if_pos hfresh]
    · have hother := h.scope hfound
      have hlt := (Array.getElem?_eq_some_iff.mp hother).1
      rw [if_neg (Nat.ne_of_lt hlt), hother]

end Heap.Renumbered

/-- A heap is what it is when numbered as before. -/
theorem Heap.renumbered_id (heap : Heap) : heap.Renumbered id heap where
  injective := Function.injective_id
  fresh _ := rfl
  scope hs := by rw [Scope.renumber_id, id, hs]

/-- Where no number changes, the heaps are the same. -/
theorem Heap.Renumbered.eq_of_id {heap other : Heap} (h : heap.Renumbered id other) :
    other = heap := by
  have hscopes : other.scopes = heap.scopes := by
    refine Array.ext (h.fresh 0).symm fun i hi hi' => ?_
    have hscope := h.scope (Array.getElem?_eq_getElem hi')
    rw [Scope.renumber_id, id, Array.getElem?_eq_getElem hi] at hscope
    exact Option.some.inj hscope
  obtain ⟨scopes⟩ := other
  exact congrArg Heap.mk hscopes

/-- A machine on a heap with other numbers, where behind two different traces the same events were
recorded. -/
structure Machine.Renumbered (f : ScopeId → ScopeId) (start start' : Array Event)
    (machine other : Machine) : Prop where
  heap : machine.heap.Renumbered f other.heap
  openCalls : machine.openCalls = other.openCalls
  trace : ∃ events, machine.trace = start ++ events ∧ other.trace = start' ++ events

/-- Machines are numbered alike after both record the same. -/
theorem Machine.Renumbered.record {start start' : Array Event} {machine other : Machine}
    (h : machine.Renumbered f start start' other) (message : Message) :
    (machine.record message).Renumbered f start start' (other.record message) where
  heap := h.heap
  openCalls := h.openCalls
  trace := by
    obtain ⟨events, htrace, htrace'⟩ := h.trace
    refine ⟨events.push ⟨machine.openCalls, message⟩, ?_, ?_⟩
    · rw [Machine.record, htrace, Array.append_push]
    · rw [Machine.record, htrace', ← h.openCalls, Array.append_push]

/-- A run that has the same depth or more, on a heap with other numbers. -/
def Coupling.renumber (verbosity : Int) (f : ScopeId → ScopeId)
    (start start' : Array Event) : Coupling where
  loud := verbosity
  quiet := verbosity
  quiet_le := Int.le_refl _
  depth := (· ≤ ·)
  depth_succ hle := by
    obtain ⟨more, rfl⟩ := Nat.exists_eq_succ_of_ne_zero (Nat.ne_zero_of_lt hle)
    exact ⟨more, rfl, Nat.le_of_succ_le_succ hle⟩
  World := Unit
  later _ _ := True
  later_refl _ := trivial
  later_trans _ _ := trivial
  Mode := Unit
  name _ := Eq
  expr _ := Eq
  block _ := Eq
  stmt _ := Eq
  expr_shape := @Expr.Shape.of_eq Unit
  block_shape := @Block.Shape.of_eq Unit
  stmt_shape := @Stmt.Shape.of_eq Unit
  value _ v w := w = v.renumber f
  value_later _ h := h
  value_alike h := h ▸ Value.alike_renumber f _
  value_self hk hr := (Value.renumber_eq_of_plain hk hr).symm
  value_returned := ⟨fun h => Value.returned.inj h, congrArg Value.returned⟩
  scope _ _ s t := t = f s
  scope_later _ h := h
  fn hs h := by
    cases h
    rw [hs]
    rfl
  machine _ := Machine.Renumbered f start start'
  machine_enter h := ⟨h.heap, congrArg (· + 1) h.openCalls, h.trace⟩
  machine_leave h := ⟨h.heap, congrArg (· - 1) h.openCalls, h.trace⟩
  machine_get hm hs hx hd hget := by
    subst hs hx
    refine ⟨_, hm.heap.get? hd hget, ?_, fun _ => rfl⟩
    cases ‹Option Value› with
    | none => exact .none
    | some => exact .some rfl
  machine_set hm hs hx hv := by
    subst hs hx hv
    exact ⟨hm.heap.set, hm.openCalls, hm.trace⟩
  machine_call {w m n ps qs b c s t as bs} hm hv ha := by
    cases hv
    obtain rfl : bs = as.map (Value.renumber f) := by
      rw [← List.forall₂_eq_eq_eq, List.forall₂_map_right_iff]
      exact ha.flip
    have hheap := hm.heap.allocate ⟨argumentBindings ps as, some s⟩
    rw [Scope.renumber, argumentBindings_renumber] at hheap
    exact ⟨(), (), trivial, ⟨hheap, hm.openCalls, hm.trace⟩, (hm.heap.fresh 0).symm, rfl⟩
  text := Eq
  name_text h := h
  parameters_text h := by
    cases h
    rw [List.forall₂_eq_eq_eq]
  value_text hv hd hfit := by
    subst hv
    exact ⟨Value.fits_renumber hd hfit, (Value.text_renumber _).symm⟩
  expr_text h hd hfit := by
    subst h
    exact ⟨Expr.fits_mono hfit hd, rfl⟩
  machine_note {w m n a b} hm h := by
    obtain rfl : a = b := h.eq
    unfold Machine.note
    split
    · exact hm.record a
    · exact hm

end Inkwell
