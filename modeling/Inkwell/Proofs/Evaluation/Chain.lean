import Inkwell.Proofs.Evaluation.Renumber

/-!
# Chains of scopes

A scope is created after the scope around it, so outer scopes have smaller numbers and the way
outwards from any scope comes to an end: it is the chain of the scope. The value of a name is the
one that the first scope on the chain binds to it, and looking it up takes one unit of depth for
every scope on the chain at most.
-/

namespace Inkwell

variable {heap : Heap} {scope id : ScopeId} {name : String} {v : Value} {chain : List ScopeId}

namespace Bindings

variable {bindings : Bindings}

/-- The names that are bound. -/
def names (bindings : Bindings) : List String := bindings.map Prod.fst

/-- The names of bindings, from the first one on. -/
@[simp]
theorem names_cons (binding : String × Value) (rest : Bindings) :
    Bindings.names (binding :: rest) = binding.1 :: rest.names := rfl

/-- A name keeps its place where it is bound again, and gets the last one otherwise. -/
theorem names_set (bindings : Bindings) (name : String) (v : Value) :
    (bindings.set name v).names =
      if name ∈ bindings.names then bindings.names else bindings.names ++ [name] := by
  induction bindings with
  | nil => rfl
  | cons binding rest ih =>
    obtain ⟨key, old⟩ := binding
    by_cases h : key = name
    · simp [Bindings.set, h]
    · have hne : name ≠ key := Ne.symm h
      simp only [Bindings.set, if_neg h, names_cons, ih, List.mem_cons, hne, false_or]
      split
      · rfl
      · rw [List.cons_append]

/-- Setting a name keeps each name bound once. -/
theorem nodup_set (h : bindings.names.Nodup) : (bindings.set name v).names.Nodup := by
  rw [names_set]
  split
  · exact h
  · rename_i hnew
    rw [List.nodup_append]
    refine ⟨h, by simp, fun key hkey other hother heq => hnew ?_⟩
    rw [← List.mem_singleton.mp hother, ← heq]
    exact hkey

/-- Setting a name adds no other value than the given one. -/
theorem mem_set {binding : String × Value} (h : binding ∈ bindings.set name v) :
    binding ∈ bindings ∨ binding.2 = v := by
  induction bindings with
  | nil =>
    obtain rfl := List.mem_singleton.mp h
    exact .inr rfl
  | cons first rest ih =>
    obtain ⟨key, old⟩ := first
    rw [Bindings.set] at h
    split at h
    · rcases List.mem_cons.mp h with rfl | h
      · exact .inr rfl
      · exact .inl (List.mem_cons_of_mem _ h)
    · rcases List.mem_cons.mp h with rfl | h
      · exact .inl List.mem_cons_self
      · exact (ih h).imp_left (List.mem_cons_of_mem _)

/-- Where no name is bound twice, a name has the value that it is bound to. -/
theorem get?_eq_some_iff (h : bindings.names.Nodup) :
    bindings.get? name = some v ↔ (name, v) ∈ bindings := by
  refine ⟨Bindings.mem_of_get?, fun hmem => ?_⟩
  induction bindings with
  | nil => cases hmem
  | cons first rest ih =>
    obtain ⟨key, old⟩ := first
    rw [names_cons, List.nodup_cons] at h
    rw [Bindings.get?]
    rcases List.mem_cons.mp hmem with heq | hmem
    · cases heq
      exact if_pos rfl
    · have hne : key ≠ name := by
        rintro rfl
        exact h.1 (List.mem_map.mpr ⟨(key, v), hmem, rfl⟩)
      rw [if_neg hne]
      exact ih h.2 hmem

end Bindings

/-- What holds of no bindings and is kept when null or an argument is bound holds of the bindings of
a call. -/
theorem argumentBindings_induction {p : Bindings → Prop} {parameters : List String}
    {arguments : List Value} (nil : p [])
    (set : ∀ {bindings name v}, v = .null ∨ v ∈ arguments → p bindings → p (bindings.set name v)) :
    p (argumentBindings parameters arguments) := by
  have hgo : ∀ (names : List String) (values : List Value) (bindings : Bindings),
      (∀ v ∈ values, v ∈ arguments) → p bindings →
      p (argumentBindings.go bindings names values) := by
    intro names
    induction names with
    | nil => exact fun _ _ _ h => h
    | cons name names ih =>
      intro values bindings hvalues h
      cases values with
      | nil => exact ih [] _ nofun (set (.inl rfl) h)
      | cons first rest =>
        rw [List.forall_mem_cons] at hvalues
        exact ih rest _ hvalues.2 (set (.inr hvalues.1) h)
  exact hgo parameters arguments [] (fun _ h => h) nil

/-- Binding a name is seen in one scope, under this name. -/
theorem Heap.get?_bindings_set (h : scope < heap.scopes.size) (target : ScopeId) (key : String) :
    ((heap.set scope name v).bindings target).get? key =
      if target = scope ∧ name = key then some v else (heap.bindings target).get? key := by
  unfold Heap.bindings Heap.set
  rw [Array.getElem?_modify]
  by_cases heq : scope = target
  · subst heq
    obtain ⟨s, hs⟩ := Heap.exists_scope h
    simp only [hs, if_true, Option.map_some, true_and]
    exact Bindings.get?_set
  · rw [if_neg heq, if_neg fun h => heq h.1.symm]

/-- The chain of a scope: the scope, the one around it, and so on, up to one without an outer
scope. -/
inductive Heap.Chain (heap : Heap) : ScopeId → List ScopeId → Prop
  | last {id : ScopeId} {s : Scope} : heap.scopes[id]? = some s → s.outer = none →
    Chain heap id [id]
  | outer {id outer : ScopeId} {s : Scope} {rest : List ScopeId} : heap.scopes[id]? = some s →
    s.outer = some outer → Chain heap outer rest → Chain heap id (id :: rest)

namespace Heap.Chain

/-- A scope has one chain at most. -/
theorem unique {other : List ScopeId} (h : heap.Chain id chain) (h' : heap.Chain id other) :
    other = chain := by
  induction h generalizing other with
  | last hs ho =>
    cases h' with
    | last => rfl
    | outer hs' ho' =>
      rw [hs] at hs'
      cases hs'
      rw [ho] at ho'
      cases ho'
  | outer hs ho _ ih =>
    cases h' with
    | last hs' ho' =>
      rw [hs] at hs'
      cases hs'
      rw [ho] at ho'
      cases ho'
    | outer hs' ho' hrest =>
      rw [hs] at hs'
      cases hs'
      rw [ho] at ho'
      cases ho'
      rw [ih hrest]

/-- What is looked up is the value that the first scope on the chain binds to the name, if one
does. -/
theorem get?_found {depth : Nat} {found : Option Value} (h : heap.Chain scope chain)
    (hget : heap.get? name depth scope = .ok found) :
    found = chain.findSome? fun id => (heap.bindings id).get? name := by
  induction h generalizing depth with
  | last hs ho =>
    cases depth with
    | zero => cases hget
    | succ depth =>
      rw [List.findSome?_singleton, Heap.get?_bindings hs]
      simp only [Heap.get?, hs, ho] at hget
      cases hv : Bindings.get? name _ with
      | some => rw [hv] at hget; exact (Except.ok.inj hget).symm
      | none => rw [hv] at hget; exact (Except.ok.inj hget).symm
  | outer hs ho _ ih =>
    cases depth with
    | zero => cases hget
    | succ depth =>
      rw [List.findSome?_cons, Heap.get?_bindings hs]
      simp only [Heap.get?, hs, ho] at hget
      cases hv : Bindings.get? name _ with
      | some => rw [hv] at hget; exact (Except.ok.inj hget).symm
      | none => rw [hv] at hget; exact ih hget

/-- The length of the chain is depth enough to look a name up. -/
theorem exists_get? {depth : Nat} (h : heap.Chain scope chain) (hd : chain.length ≤ depth)
    (name : String) : ∃ found, heap.get? name depth scope = .ok found := by
  induction h generalizing depth with
  | last hs ho =>
    obtain ⟨depth, rfl⟩ := Nat.exists_eq_add_of_le' hd
    simp only [List.length_singleton, Heap.get?, hs, ho]
    cases Bindings.get? name _ with
    | some v => exact ⟨some v, rfl⟩
    | none => exact ⟨none, rfl⟩
  | outer hs ho _ ih =>
    obtain ⟨depth, rfl⟩ := Nat.exists_eq_add_of_le' hd
    have hrest := ih (Nat.le_add_left _ depth)
    simp only [List.length_cons, ← Nat.add_assoc, Heap.get?, hs, ho]
    cases Bindings.get? name _ with
    | some v => exact ⟨some v, rfl⟩
    | none => exact hrest

end Heap.Chain

/-- A heap in which scopes come after their outer scopes, functions were created in scopes that
there are, and no scope binds a name twice. -/
structure Heap.WellFormed (heap : Heap) : Prop where
  outer {id outer : ScopeId} {s : Scope} : heap.scopes[id]? = some s → s.outer = some outer →
    outer < id
  bound {id captured : ScopeId} {s : Scope} {name : String} {v : Value} :
    heap.scopes[id]? = some s → (name, v) ∈ s.bindings → v.captured? = some captured →
    captured < heap.scopes.size
  names {id : ScopeId} {s : Scope} : heap.scopes[id]? = some s → s.bindings.names.Nodup

namespace Heap.WellFormed

/-- Every scope has a chain, on which the numbers only fall. -/
theorem exists_chain (h : heap.WellFormed) (hid : id < heap.scopes.size) :
    ∃ chain, heap.Chain id chain ∧ chain.Pairwise (· > ·) ∧ ∀ i ∈ chain, i ≤ id := by
  -- outer scopes have smaller numbers
  induction id using Nat.strongRecOn with
  | ind id ih =>
    obtain ⟨s, hs⟩ := Heap.exists_scope hid
    cases ho : s.outer with
    | none => exact ⟨[id], .last hs ho, List.pairwise_singleton _ _, by simp⟩
    | some outer =>
      have hlt : outer < id := h.outer hs ho
      obtain ⟨rest, hchain, hfalls, hle⟩ := ih outer hlt (Nat.lt_trans hlt hid)
      have hbelow : ∀ i ∈ rest, i < id := fun i hi => Nat.lt_of_le_of_lt (hle i hi) hlt
      refine ⟨id :: rest, .outer hs ho hchain, List.pairwise_cons.mpr ⟨hbelow, hfalls⟩, ?_⟩
      rw [List.forall_mem_cons]
      exact ⟨Nat.le_refl id, fun i hi => Nat.le_of_lt (hbelow i hi)⟩

/-- Each of its names a scope binds once. -/
theorem get?_bindings_iff (h : heap.WellFormed) (id : ScopeId) (name : String) (v : Value) :
    (heap.bindings id).get? name = some v ↔ (name, v) ∈ heap.bindings id := by
  refine Bindings.get?_eq_some_iff ?_
  unfold Heap.bindings
  split
  · exact h.names ‹_›
  · exact List.nodup_nil

end Heap.WellFormed

end Inkwell
