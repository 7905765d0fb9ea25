import Inkwell.Proofs.Evaluation.Chain
import Inkwell.Proofs.Evaluation.Conduct
import Inkwell.Proofs.Evaluation.Confined
import Mathlib.Logic.Function.Basic

/-!
# The lengths of chains

The chain of a scope never changes, so that its length can be kept account of: a scope that is
created for a call has a chain that is longer by one than that of the scope which the function was
created in. A layout says which trees may be evaluated in scopes with chains of which lengths, and
then which functions may be created there. What evaluation does to a heap that is laid out keeps it
so, however it ends, and the values that come out of it fit in.
-/

namespace Inkwell

open EvalM

/-- Which trees may be evaluated in scopes with chains of which lengths, and which functions may be
created there. -/
structure Layout where
  /-- Function literals that may be evaluated. -/
  literal : Literal → Prop
  /-- Trees that stand inside a number of function literals may be evaluated in scopes with chains
  of a length. -/
  place (level length : Nat) : Prop
  /-- Functions that may have been created in scopes with chains of a length. -/
  function (length : Nat) (parameters : List String) (body : Block) : Prop
  closure {level length : Nat} {parameters : List String} {body : Block} :
    place level length → literal ⟨level, parameters, body⟩ → function length parameters body
  /-- The body of a function may be evaluated in the scope of a call. -/
  call {length : Nat} {parameters : List String} {body : Block} :
    function length parameters body →
    ∃ level, place level (length + 1) ∧ ∀ l ∈ body.literals level, literal l

/-- An account of the lengths of the chains of some scopes. -/
abbrev Lengths := ScopeId → Option Nat

/-- An account of more scopes. -/
def Lengths.Later (lengths more : Lengths) : Prop :=
  ∀ id n, lengths id = some n → more id = some n

/-- A value that may be bound: a function was created in a scope that is accounted for. -/
def Value.Laid (L : Layout) (lengths : Lengths) : Value → Prop
  | returned value => value.Laid L lengths
  | fn parameters body scope => ∃ n, lengths scope = some n ∧ L.function n parameters body
  | _ => True

/-- A heap that is laid out: an account of the scopes from `base` on, and maybe of some before. -/
structure Heap.Laid (L : Layout) (base : ScopeId) (lengths : Lengths) (heap : Heap) : Prop where
  all {id : ScopeId} : base ≤ id → id < heap.scopes.size → ∃ n, lengths id = some n
  exist {id n : Nat} : lengths id = some n → id < heap.scopes.size
  root {id n : Nat} {s : Scope} : lengths id = some n → heap.scopes[id]? = some s →
    s.outer = none → n = 1
  outer {id n : Nat} {s : Scope} {outer : ScopeId} : lengths id = some n →
    heap.scopes[id]? = some s → s.outer = some outer →
    outer < id ∧ ∃ k, lengths outer = some k ∧ n = k + 1
  place {id n : Nat} : lengths id = some n → ∃ level, L.place level n
  bound {id n : Nat} {s : Scope} {name : String} {v : Value} : lengths id = some n →
    heap.scopes[id]? = some s → (name, v) ∈ s.bindings → v.Laid L lengths
  names {id n : Nat} {s : Scope} : lengths id = some n → heap.scopes[id]? = some s →
    s.bindings.names.Nodup

variable {L : Layout} {base scope id : ScopeId} {lengths more : Lengths} {heap : Heap}
  {name : String} {n level depth : Nat} {v : Value}

namespace Value.Laid

/-- A value that fits in still does when more scopes are accounted for. -/
theorem later (hmore : lengths.Later more) : ∀ {v : Value}, v.Laid L lengths → v.Laid L more
  | .int _, _ => trivial
  | .bool _, _ => trivial
  | .null, _ => trivial
  | .error _, _ => trivial
  | .returned v, h => later hmore (v := v) h
  | .fn _ _ _, h => by
    obtain ⟨n, hn, hfunction⟩ := h
    exact ⟨n, hmore _ _ hn, hfunction⟩

/-- The scope that a function was created in is accounted for. -/
theorem captured : ∀ {v : Value}, v.Laid L lengths → v.captured? = some id →
    ∃ n, lengths id = some n
  | .returned v, h, hid => captured (v := v) h hid
  | .fn _ _ _, h, hid => by
    obtain ⟨n, hn, -⟩ := h
    cases hid
    exact ⟨n, hn⟩

/-- A value that is no function fits in anywhere. -/
theorem of_plain (hk : v.kind ≠ .function) (hi : v.interrupts = false) : v.Laid L lengths := by
  cases v with
  | int | bool | null | error => trivial
  | returned => cases hi
  | fn => exact absurd rfl hk

/-- A value fits in without the return around it. -/
theorem unwrap (h : v.Laid L lengths) : v.unwrap.Laid L lengths := by
  cases v with
  | int | bool | null | error | returned | fn => exact h

end Value.Laid

namespace Heap.Laid

/-- What is found from a scope that is accounted for fits in. -/
theorem get? (h : heap.Laid L base lengths) (hs : lengths scope = some n)
    (hget : heap.get? name depth scope = .ok (some v)) : v.Laid L lengths := by
  induction depth generalizing scope n with
  | zero => cases hget
  | succ depth ih =>
    unfold Heap.get? at hget
    split at hget
    · cases hget
    · rename_i s hscope
      split at hget
      · rename_i value hbound
        cases hget
        exact h.bound hs hscope (Bindings.mem_of_get? hbound)
      · split at hget
        · rename_i outer houter
          obtain ⟨-, k, hk, -⟩ := h.outer hs hscope houter
          exact ih hk hget
        · cases hget

/-- A heap stays laid out when a value that fits in is bound. -/
theorem set (h : heap.Laid L base lengths) (hv : v.Laid L lengths) :
    (heap.set scope name v).Laid L base lengths where
  all hbase hlt := by
    rw [Heap.size_set] at hlt
    exact h.all hbase hlt
  exist hn := by
    rw [Heap.size_set]
    exact h.exist hn
  root hn hs ho := by
    obtain ⟨old, hold, houter, -⟩ := Heap.scope_set hs
    exact h.root hn hold (houter ▸ ho)
  outer hn hs ho := by
    obtain ⟨old, hold, houter, -⟩ := Heap.scope_set hs
    exact h.outer hn hold (houter ▸ ho)
  place := h.place
  bound hn hs hmem := by
    obtain ⟨old, hold, -, hsame | hset⟩ := Heap.scope_set hs
    · exact h.bound hn hold (hsame ▸ hmem)
    · rw [hset] at hmem
      rcases Bindings.mem_set hmem with hmem | rfl
      · exact h.bound hn hold hmem
      · exact hv
  names hn hs := by
    obtain ⟨old, hold, -, hsame | hset⟩ := Heap.scope_set hs
    · exact hsame ▸ h.names hn hold
    · exact hset ▸ Bindings.nodup_set (h.names hn hold)

/-- The account with the next scope. -/
theorem later_update (h : heap.Laid L base lengths) (n : Nat) :
    lengths.Later (Function.update lengths heap.scopes.size (some n)) := by
  intro id k hid
  rw [Function.update_of_ne (Nat.ne_of_lt (h.exist hid))]
  exact hid

/-- A new scope has a chain of one scope, or one that is longer by one than that of its outer
scope. -/
theorem allocate (h : heap.Laid L base lengths) {s : Scope} (hplace : L.place level n)
    (hroot : s.outer = none → n = 1)
    (houter : ∀ outer ∈ s.outer, ∃ k, lengths outer = some k ∧ n = k + 1)
    (hbound : ∀ name v, (name, v) ∈ s.bindings → v.Laid L lengths)
    (hnames : s.bindings.names.Nodup) :
    (heap.allocate s).2.Laid L base (Function.update lengths heap.scopes.size (some n)) := by
  have hlater := h.later_update n
  -- the number of a scope is that of the new one, or it was accounted for before
  have hcases : ∀ {id k : Nat}, Function.update lengths heap.scopes.size (some n) id = some k →
      (id = heap.scopes.size ∧ k = n) ∨ lengths id = some k := by
    intro id k hk
    by_cases heq : id = heap.scopes.size
    · subst heq
      rw [Function.update_self] at hk
      exact .inl ⟨rfl, (Option.some.inj hk).symm⟩
    · rw [Function.update_of_ne heq] at hk
      exact .inr hk
  have hnew : ∀ {t : Scope}, (heap.allocate s).2.scopes[heap.scopes.size]? = some t → t = s := by
    intro t ht
    rcases Heap.scope_allocate ht with ht | ⟨-, ht⟩
    · exact absurd (Heap.scope_lt ht) (Nat.lt_irrefl _)
    · exact ht
  have hold : ∀ {id k : Nat} {t : Scope}, lengths id = some k →
      (heap.allocate s).2.scopes[id]? = some t → heap.scopes[id]? = some t := by
    intro id k t hk ht
    rcases Heap.scope_allocate ht with ht | ⟨heq, -⟩
    · exact ht
    · exact absurd (heq ▸ h.exist hk) (Nat.lt_irrefl _)
  constructor
  · intro id hbase hlt
    rw [Heap.size_allocate] at hlt
    rcases Nat.lt_succ_iff_lt_or_eq.mp hlt with hlt | rfl
    · obtain ⟨k, hk⟩ := h.all hbase hlt
      exact ⟨k, hlater _ _ hk⟩
    · exact ⟨n, Function.update_self ..⟩
  · intro id k hk
    rw [Heap.size_allocate]
    rcases hcases hk with ⟨rfl, -⟩ | hk
    · exact Nat.lt_succ_self _
    · exact Nat.lt_succ_of_lt (h.exist hk)
  · intro id k t hk ht ho
    rcases hcases hk with ⟨rfl, rfl⟩ | hk
    · exact hroot (hnew ht ▸ ho)
    · exact h.root hk (hold hk ht) ho
  · intro id k t outer hk ht ho
    rcases hcases hk with ⟨rfl, rfl⟩ | hk
    · obtain ⟨j, hj, hkj⟩ := houter outer (hnew ht ▸ ho)
      exact ⟨h.exist hj, j, hlater _ _ hj, hkj⟩
    · obtain ⟨hlt, j, hj, hkj⟩ := h.outer hk (hold hk ht) ho
      exact ⟨hlt, j, hlater _ _ hj, hkj⟩
  · intro id k hk
    rcases hcases hk with ⟨-, rfl⟩ | hk
    · exact ⟨level, hplace⟩
    · exact h.place hk
  · intro id k t key value hk ht hmem
    rcases hcases hk with ⟨rfl, rfl⟩ | hk
    · exact (hbound key value (hnew ht ▸ hmem)).later hlater
    · exact (h.bound hk (hold hk ht) hmem).later hlater
  · intro id k t hk ht
    rcases hcases hk with ⟨rfl, rfl⟩ | hk
    · exact hnew ht ▸ hnames
    · exact h.names hk (hold hk ht)

/-- Before anything is accounted for, any heap is laid out. -/
theorem start (heap : Heap) : heap.Laid L heap.scopes.size fun _ => none where
  all hle hlt := absurd hlt (Nat.not_lt_of_le hle)
  exist := nofun
  root := nofun
  outer := nofun
  place := nofun
  bound := nofun
  names := nofun

/-- A new scope on its own has a chain of length one. -/
theorem fresh (h : heap.Laid L base lengths) (hplace : L.place level 1) :
    heap.fresh.2.Laid L base (Function.update lengths heap.scopes.size (some 1)) := by
  have hnone : ∀ outer ∈ (none : Option ScopeId), ∃ k, lengths outer = some k ∧ 1 = k + 1 := nofun
  exact h.allocate hplace (fun _ => rfl) hnone nofun List.nodup_nil

/-- A new scope inside another one has a chain that is longer by one. -/
theorem enclosed (h : heap.Laid L base lengths) {outer : ScopeId} (ho : lengths outer = some n)
    (hplace : L.place level (n + 1)) : (heap.enclosed outer).2.Laid L base
      (Function.update lengths heap.scopes.size (some (n + 1))) := by
  have houter : ∀ o ∈ some outer, ∃ k, lengths o = some k ∧ n + 1 = k + 1 := by
    rintro o ⟨⟩
    exact ⟨n, ho, rfl⟩
  exact h.allocate hplace nofun houter nofun List.nodup_nil

/-- Every scope that is accounted for has a chain of this length. -/
theorem exists_chain (h : heap.Laid L base lengths) (hid : lengths id = some n) :
    ∃ chain, heap.Chain id chain ∧ chain.length = n := by
  induction n generalizing id with
  | zero =>
    obtain ⟨s, hs⟩ := Heap.exists_scope (h.exist hid)
    cases ho : s.outer with
    | none => cases h.root hid hs ho
    | some outer =>
      obtain ⟨-, k, -, hk⟩ := h.outer hid hs ho
      cases hk
  | succ n ih =>
    obtain ⟨s, hs⟩ := Heap.exists_scope (h.exist hid)
    cases ho : s.outer with
    | none =>
      have hone := h.root hid hs ho
      exact ⟨[id], .last hs ho, hone.symm⟩
    | some outer =>
      obtain ⟨-, k, hk, hn⟩ := h.outer hid hs ho
      cases hn
      obtain ⟨rest, hchain, hlength⟩ := ih hk
      exact ⟨id :: rest, .outer hs ho hchain, by rw [List.length_cons, hlength]⟩

/-- Where all scopes are accounted for, the heap is well-formed. -/
theorem wellFormed (h : heap.Laid L 0 lengths) : heap.WellFormed where
  outer hs ho := by
    obtain ⟨n, hn⟩ := h.all (Nat.zero_le _) (Heap.scope_lt hs)
    exact (h.outer hn hs ho).1
  bound hs hmem hcaptured := by
    obtain ⟨n, hn⟩ := h.all (Nat.zero_le _) (Heap.scope_lt hs)
    obtain ⟨k, hk⟩ := (h.bound hn hs hmem).captured hcaptured
    exact h.exist hk
  names hs := by
    obtain ⟨n, hn⟩ := h.all (Nat.zero_le _) (Heap.scope_lt hs)
    exact h.names hn hs

end Heap.Laid

/-- The arguments of a call are bound once each, under the names of the parameters. -/
theorem argumentBindings_laid (parameters : List String) {arguments : List Value}
    (h : ∀ v ∈ arguments, v.Laid L lengths) :
    (∀ name v, (name, v) ∈ argumentBindings parameters arguments → v.Laid L lengths) ∧
      (argumentBindings parameters arguments).names.Nodup := by
  refine argumentBindings_induction
    (p := fun bindings => (∀ name v, (name, v) ∈ bindings → v.Laid L lengths) ∧
      bindings.names.Nodup)
    ⟨nofun, List.nodup_nil⟩ fun {bindings name v} hv hbindings => ?_
  refine ⟨fun key value hmem => ?_, Bindings.nodup_set hbindings.2⟩
  rcases Bindings.mem_set hmem with hmem | hvalue
  · exact hbindings.1 key value hmem
  · rw [show value = v from hvalue]
    rcases hv with rfl | hv
    · trivial
    · exact h v hv

/-- Evaluation keeps a heap laid out. -/
def Conduct.laid (L : Layout) (base : ScopeId) (verbosity : Int) : Conduct where
  verbosity := verbosity
  World := Lengths
  later := Lengths.Later
  later_refl _ _ _ h := h
  later_trans first second := fun id n h => second id n (first id n h)
  literal := L.literal
  value lengths v := v.Laid L lengths
  value_later hmore h := h.later hmore
  value_plain := .of_plain
  value_unwrap h := h.unwrap
  scope lengths level s := ∃ n, lengths s = some n ∧ L.place level n
  scope_later hmore h := by
    obtain ⟨n, hn, hplace⟩ := h
    exact ⟨n, hmore _ _ hn, hplace⟩
  fn h hl := by
    obtain ⟨n, hn, hplace⟩ := h
    exact ⟨n, hn, L.closure hplace hl⟩
  heap lengths h := h.Laid L base lengths
  heap_get h hs hget := by
    obtain ⟨n, hn, -⟩ := hs
    exact h.get? hn hget
  heap_set h _ hv := h.set hv
  heap_call {lengths heap parameters body outer arguments} h hfn harguments := by
    obtain ⟨n, hn, hfunction⟩ := hfn
    obtain ⟨level, hplace, hliterals⟩ := L.call hfunction
    obtain ⟨hbound, hnames⟩ := argumentBindings_laid parameters harguments
    have houter : ∀ o ∈ some outer, ∃ k, lengths o = some k ∧ n + 1 = k + 1 := by
      rintro o ⟨⟩
      exact ⟨n, hn, rfl⟩
    exact ⟨Function.update lengths heap.scopes.size (some (n + 1)), level, h.later_update (n + 1),
      h.allocate hplace nofun houter hbound hnames, ⟨n + 1, Function.update_self .., hplace⟩,
      hliterals⟩
  course _ _ _ := True
  course_refl _ := trivial
  course_trans _ _ := trivial
  course_set := trivial
  course_note _ := trivial
  course_call _ _ _ := trivial
  halt _ _ := True
  halt_refl _ := trivial
  halt_allocate := trivial
  halt_trans _ _ := trivial
  halt_call _ := trivial

/-- An outcome fits in, whether or not it is wrapped in a return. -/
theorem Conduct.laid_of_outcome {verbosity : Int} {error : Option String}
    (h : (Conduct.laid L base verbosity).Outcome lengths v error) : v.Laid L lengths := by
  cases h with
  | value h => exact h
  | error => trivial
  | returned h => exact h

/-- A run of a program keeps the heap laid out, however it ends, and its value fits in. -/
theorem Heap.Laid.run {machine : Machine} (h : machine.heap.Laid L base lengths)
    (hs : lengths scope = some n) (hplace : L.place 0 n) (verbosity : Int) (depth : Nat)
    (program : Program) (hl : ∀ l ∈ program.literals, L.literal l) :
    ∃ more, lengths.Later more ∧
      (machine.run verbosity depth scope program).machine.heap.Laid L base more ∧
      ∀ v, (machine.run verbosity depth scope program).outcome = .ok (some v) →
        v.Laid L more := by
  let C := Conduct.laid L base verbosity
  have hscope : C.scope lengths 0 scope := ⟨n, hs, hplace⟩
  have hobeys : C.Obeys lengths (program.eval verbosity depth scope) C.Result :=
    Conduct.program_obeys hscope hl
  unfold Machine.run
  cases hr : (program.eval verbosity depth scope).run machine with
  | error exceeded after =>
    obtain ⟨⟨more, hmore, hafter⟩, -⟩ := hobeys.of_error h hr
    exact ⟨more, hmore, hafter, nofun⟩
  | ok result after =>
    obtain ⟨more, error, hmore, hafter, hresult, -⟩ := hobeys.of_ok h hr
    refine ⟨more, hmore, hafter, fun v hv => ?_⟩
    cases hv
    cases hresult with
    | some hvalue => exact Conduct.laid_of_outcome hvalue

theorem Heap.Laid.call {machine : Machine} {callee : Value} {arguments : List Value}
    (h : machine.heap.Laid L base lengths) (hcallee : callee.Laid L lengths)
    (harguments : ∀ a ∈ arguments, a.Laid L lengths) (verbosity : Int) (depth : Nat) :
    ∃ more, lengths.Later more ∧
      ((callee.call verbosity depth (Expr.eval verbosity depth) arguments).leaves
        machine).heap.Laid L base more ∧
      ∀ v after, (callee.call verbosity depth (Expr.eval verbosity depth) arguments).run machine =
        .ok v after → v.Laid L more := by
  let C := Conduct.laid L base verbosity
  have hobeys : C.Obeys lengths (callee.call verbosity depth (Expr.eval verbosity depth) arguments)
      C.Outcome := Conduct.call_obeys (C.expr_obeys depth) hcallee harguments
  unfold EvalM.leaves
  cases hr : (callee.call verbosity depth (Expr.eval verbosity depth) arguments).run machine with
  | error exceeded after =>
    obtain ⟨⟨more, hmore, hafter⟩, -⟩ := hobeys.of_error h hr
    exact ⟨more, hmore, hafter, nofun⟩
  | ok result after =>
    obtain ⟨more, error, hmore, hafter, hresult, -⟩ := hobeys.of_ok h hr
    refine ⟨more, hmore, hafter, fun v last hv => ?_⟩
    cases hv
    exact Conduct.laid_of_outcome hresult

end Inkwell
