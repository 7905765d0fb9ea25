import Inkwell.Proofs.Evaluation.Confined
import Inkwell.Proofs.Evaluation.Renumber

/-!
# Evaluating twice

An expression that binds no names outside of its function literals, and any call, leave all scopes
as they were and only add new ones. Evaluated once more, whatever was called in between, they find
the same bindings again, and the second run goes the way of the first: its new scopes stand behind
those that were created since, and apart from their numbers nothing is different.
-/

namespace Inkwell

open EvalM

variable {verbosity : Int} {depth more : Nat} {machine after again : Machine} {scope id : ScopeId}
  {e : Expr} {v : Value}

/-- Machines that calls lead to, one call after the other, and however they end. -/
def Machine.CallsTo : Machine → Machine → Prop :=
  Relation.ReflTransGen fun before after => ∃ verbosity depth callee arguments,
    after = ((callee : Value).call verbosity depth (Expr.eval verbosity depth) arguments).leaves
      before

/-- Steps that gave a value, between two machines, give it again on another machine: the functions
in it and all scopes are the same except for the numbers of scopes that are new, and the same events
are recorded. -/
def EvalM.Repeats (x : EvalM Value) (before : Machine) (v : Value) (after again : Machine) : Prop :=
  ∃ (f : ScopeId → ScopeId) (last : Machine) (events : Array Event),
    (∀ id < before.heap.scopes.size, f id = id) ∧ x.run again = .ok (v.renumber f) last ∧
    after.heap.Renumbered f last.heap ∧ after.openCalls = last.openCalls ∧
    after.trace = before.trace ++ events ∧ last.trace = again.trace ++ events

/-- Makes room for new numbers behind old ones. -/
def ScopeId.shift (old room id : Nat) : Nat := if id < old then id else id + room

/-- A number from before is not shifted. -/
theorem ScopeId.shift_of_lt {old room id : Nat} (h : id < old) : ScopeId.shift old room id = id :=
  if_pos h

/-- No two numbers are shifted to the same one. -/
theorem ScopeId.shift_injective (old room : Nat) : Function.Injective (ScopeId.shift old room) := by
  intro i j h
  unfold ScopeId.shift at h
  split at h <;> split at h <;> omega

/-- Calls write to no scope that existed before. -/
theorem Machine.CallsTo.confined (h : machine.CallsTo after) :
    machine.Confined (fun _ _ => False) after := by
  induction h with
  | refl => exact .refl _
  | tail _ hcall ih =>
    obtain ⟨verbosity, depth, callee, arguments, rfl⟩ := hcall
    exact ih.trans (Value.confines_call (Expr.confines verbosity depth) callee arguments _)

/-- What is left behind when nothing was written is the same heap, with room for new scopes. -/
theorem Machine.Confined.renumbered (h : machine.Confined (fun _ _ => False) again)
    (hclosed : machine.heap.Closed) :
    machine.Renumbered (ScopeId.shift machine.heap.scopes.size
      (again.heap.scopes.size - machine.heap.scopes.size)) machine.trace again.trace again where
  heap := by
    refine ⟨ScopeId.shift_injective _ _, fun i => ?_, fun {id s} hs => ?_⟩
    · have hle := h.size_le
      rw [ScopeId.shift, if_neg (Nat.not_lt.mpr (Nat.le_add_right _ _)), Nat.add_right_comm,
        Nat.add_sub_cancel' hle]
    · have hlt := (Array.getElem?_eq_some_iff.mp hs).1
      rw [ScopeId.shift_of_lt hlt, h.getElem?_eq hlt fun _ => not_false, hs]
      refine congrArg some
        (Scope.renumber_eq_self (fun outer ho => ?_) fun name v hv id hid => ?_).symm
      · exact ScopeId.shift_of_lt (hclosed.outer hs ho)
      · exact ScopeId.shift_of_lt (hclosed.bound hs hv hid)
  openCalls := h.openCalls.symm
  trace := ⟨#[], (Array.append_empty).symm, (Array.append_empty).symm⟩

/-- The second run of what follows itself in heaps with other numbers. -/
theorem EvalM.repeats_of_follows {x y : EvalM Value} {before : Machine} (verbosity : Int)
    (hclosed : before.heap.Closed) (hagain : before.Confined (fun _ _ => False) again)
    (hxy : ∀ f start start', (∀ id < before.heap.scopes.size, f id = id) →
      (Coupling.renumber verbosity f start start').Follows () x y
        (Coupling.renumber verbosity f start start').value)
    (hrun : x.run before = .ok v after) : y.Repeats before v after again := by
  have hfixed : ∀ id < before.heap.scopes.size, ScopeId.shift before.heap.scopes.size
      (again.heap.scopes.size - before.heap.scopes.size) id = id := fun _ => ScopeId.shift_of_lt
  have hfollows := hxy _ before.trace again.trace hfixed _ _ (hagain.renumbered hclosed) _ _ hrun
  obtain ⟨_, w, last, hlast, -, hm, rfl⟩ := hfollows
  obtain ⟨events, htrace, htrace'⟩ := Machine.Renumbered.trace hm
  exact ⟨_, last, events, hfixed, hlast, hm.heap, hm.openCalls, htrace, htrace'⟩

/-- An expression evaluated on a heap with no other differences than new scopes. -/
theorem Expr.repeats (hle : depth ≤ more) (hclosed : machine.heap.Closed)
    (hs : scope < machine.heap.scopes.size)
    (hrun : (e.eval verbosity depth scope).run machine = .ok v after)
    (hagain : machine.Confined (fun _ _ => False) again) :
    (e.eval verbosity more scope).Repeats machine v after again := by
  refine EvalM.repeats_of_follows verbosity hclosed hagain (fun f start start' hfixed => ?_) hrun
  let C := Coupling.renumber verbosity f start start'
  have hagrees : C.Agrees (Expr.eval verbosity depth) (Expr.eval verbosity more) :=
    C.expr_agrees hle
  exact @hagrees () () scope scope e e (hfixed scope hs).symm rfl

/-- A call made on a heap with no other differences than new scopes. -/
theorem Value.call_repeats {callee : Value} {arguments : List Value} (hle : depth ≤ more)
    (hclosed : machine.heap.Closed)
    (hcallee : ∀ id ∈ callee.captured?, id < machine.heap.scopes.size)
    (harguments : ∀ v ∈ arguments, ∀ id ∈ v.captured?, id < machine.heap.scopes.size)
    (hrun : (callee.call verbosity depth (Expr.eval verbosity depth) arguments).run machine =
      .ok v after) (hagain : machine.Confined (fun _ _ => False) again) :
    (callee.call verbosity more (Expr.eval verbosity more) arguments).Repeats machine v after
      again := by
  refine EvalM.repeats_of_follows verbosity hclosed hagain (fun f start start' hfixed => ?_) hrun
  have hsame : ∀ {w : Value}, (∀ id ∈ w.captured?, id < machine.heap.scopes.size) →
      w = w.renumber f := fun h => (Value.renumber_eq_self fun id hid => hfixed id (h id hid)).symm
  let C := Coupling.renumber verbosity f start start'
  exact Coupling.call_follows (C.expr_agrees hle) hle (hsame hcallee)
    (List.forall₂_same.mpr fun w hw => hsame (harguments w hw))

/-- An expression that binds nothing leaves no difference but new scopes. -/
theorem Expr.confined_of_lets (hlets : e.lets = [])
    (hrun : (e.eval verbosity depth scope).run machine = .ok v after) :
    machine.Confined (fun _ _ => False) after := by
  have he : Confines (fun _ _ => False) (e.eval verbosity depth scope) :=
    Expr.confines verbosity depth fun name hname => by rw [hlets] at hname; cases hname
  exact he.of_run hrun

/-- A call leaves no difference but new scopes. -/
theorem Value.confined_of_call {callee : Value} {arguments : List Value}
    (hrun : (callee.call verbosity depth (Expr.eval verbosity depth) arguments).run machine =
      .ok v after) : machine.Confined (fun _ _ => False) after := by
  have hcall : Confines (fun _ _ => False)
      (callee.call verbosity depth (Expr.eval verbosity depth) arguments) :=
    Value.confines_call (Expr.confines verbosity depth) callee arguments
  exact hcall.of_run hrun

/-- Integers and truth values are equal to themselves. -/
theorem Value.binary_equal_self (hv : v.kind = .integer ∨ v.kind = .boolean) :
    v.binary "==" v = .ok (.bool true) := by
  cases v with
  | int => simp [Value.binary, Value.arithmetic]
  | bool => simp [Value.binary]
  | _ => rcases hv with hv | hv <;> cases hv

/-- Integers and truth values contain no functions. -/
theorem Value.plain_of_comparable (hv : v.kind = .integer ∨ v.kind = .boolean) :
    v.kind ≠ .function ∧ v.kind ≠ .returned := by
  rcases hv with hv | hv <;> rw [hv] <;> exact ⟨nofun, nofun⟩

/-- An operation always has a value, even if it is a fault. -/
theorem EvalM.settle_ends (verbosity : Int) (outcome : Except Fault Value) (machine : Machine) :
    ∃ result last, (EvalM.settle verbosity outcome).run machine = .ok result last := by
  cases outcome with
  | ok => exact ⟨_, _, rfl⟩
  | error fault =>
    by_cases hv : 2 ≤ verbosity
    · refine ⟨.error fault.message, machine.record (.raised fault.message), ?_⟩
      rw [EvalM.settle, EvalM.raise, if_pos hv]
      rfl
    · refine ⟨.error fault.message, machine, ?_⟩
      rw [EvalM.settle, EvalM.raise, if_neg hv]
      rfl

/-- An expression compared with itself: the right operand repeats what the left one gives. -/
theorem Expr.eval_equal_self {token : Token} (hclosed : machine.heap.Closed)
    (hs : scope < machine.heap.scopes.size) (hlets : e.lets = [])
    (hrun : (e.eval verbosity depth scope).run machine = .ok v after) :
    ∃ result last,
      ((Expr.binary token e "==" e).eval verbosity (depth + 1) scope).run machine =
        .ok result last ∧
      (v.kind = .integer ∨ v.kind = .boolean → result = .bool true) ∧
      (v.kind = .error → result = v) := by
  obtain ⟨f, last, -, -, hagain, -⟩ :=
    Expr.repeats (Nat.le_refl depth) hclosed hs hrun (Expr.confined_of_lets hlets hrun)
  rw [Expr.eval, run_bind, hrun]
  dsimp only
  by_cases hi : v.interrupts = true
  · rw [if_pos hi]
    refine ⟨v, after, rfl, fun hv => ?_, fun _ => rfl⟩
    cases v with
    | int | bool | null | fn => cases hi
    | error | returned => rcases hv with hv | hv <;> cases hv
  · rw [if_neg hi, run_bind, hagain]
    dsimp only
    rw [← (Value.alike_renumber f v).interrupts_eq, if_neg hi]
    obtain ⟨result, final, hresult⟩ :=
      EvalM.settle_ends verbosity (v.binary "==" (v.renumber f)) last
    refine ⟨result, final, hresult, fun hv => ?_, fun hv => ?_⟩
    · obtain ⟨hf, hr⟩ := Value.plain_of_comparable hv
      rw [Value.renumber_eq_of_plain hf hr, Value.binary_equal_self hv] at hresult
      cases hresult
      rfl
    · cases v with
      | error => exact absurd rfl hi
      | _ => cases hv

/-- With more depth, an expression has the same value but for numbers, if it has one with less. -/
theorem Expr.eval_more {first second : Value} {after' : Machine} (hclosed : machine.heap.Closed)
    (hs : scope < machine.heap.scopes.size)
    (hrun : (e.eval verbosity depth scope).run machine = .ok first after)
    (hrun' : (e.eval verbosity more scope).run machine = .ok second after') :
    (∃ f, second = first.renumber f) ∨ ∃ f, first = second.renumber f := by
  rcases Nat.le_total depth more with hle | hle
  · obtain ⟨f, last, -, -, hlast, -⟩ := Expr.repeats hle hclosed hs hrun (.refl _)
    rw [hrun'] at hlast
    cases hlast
    exact .inl ⟨f, rfl⟩
  · obtain ⟨f, last, -, -, hlast, -⟩ := Expr.repeats hle hclosed hs hrun' (.refl _)
    rw [hrun] at hlast
    cases hlast
    exact .inr ⟨f, rfl⟩

/-- Values that are the same but for numbers are the same, unless they contain functions. -/
theorem Value.eq_of_renumber {w : Value} (h : (∃ f, w = v.renumber f) ∨ ∃ f, v = w.renumber f)
    (hf : v.kind ≠ .function) (hr : v.kind ≠ .returned) : w = v := by
  rcases h with ⟨f, rfl⟩ | ⟨f, rfl⟩
  · exact Value.renumber_eq_of_plain hf hr
  · rw [← (Value.alike_renumber f w).kind_eq] at hf hr
    exact (Value.renumber_eq_of_plain hf hr).symm

/-- On a heap in which all numbers stand for scopes, an expression that binds no names outside of
its function literals can be evaluated again, with as much depth or more: whatever calls are made in
between and however they end, it has the same value, but for the numbers of scopes that are new, and
records the same events. So can any call be made again. An expression compared with itself gives
true if it gives an integer or a truth value, and its own error if it gives one, within any depth
that is enough for it; and one unit more than the expression takes is enough. -/
theorem Heap.Closed.repeatable (hclosed : machine.heap.Closed) (verbosity : Int) :
    (∀ {depth more : Nat} {scope : ScopeId} {e : Expr} {v : Value} {after again : Machine},
      depth ≤ more → scope < machine.heap.scopes.size → e.lets = [] →
      (e.eval verbosity depth scope).run machine = .ok v after → after.CallsTo again →
      (e.eval verbosity more scope).Repeats machine v after again) ∧
    (∀ {depth more : Nat} {callee : Value} {arguments : List Value} {v : Value}
      {after again : Machine}, depth ≤ more →
      (∀ w ∈ callee :: arguments, ∀ id ∈ w.captured?, id < machine.heap.scopes.size) →
      (callee.call verbosity depth (Expr.eval verbosity depth) arguments).run machine =
        .ok v after → after.CallsTo again →
      (callee.call verbosity more (Expr.eval verbosity more) arguments).Repeats machine v after
        again) ∧
    ∀ {depth : Nat} {scope : ScopeId} {e : Expr} {token : Token} {v : Value} {after : Machine},
      scope < machine.heap.scopes.size → e.lets = [] →
      (e.eval verbosity depth scope).run machine = .ok v after →
      (∃ result last, ((Expr.binary token e "==" e).eval verbosity (depth + 1) scope).run machine =
        .ok result last) ∧
      ∀ {limit : Nat} {result : Value} {last : Machine},
        ((Expr.binary token e "==" e).eval verbosity limit scope).run machine = .ok result last →
        (v.kind = .integer ∨ v.kind = .boolean → result = .bool true) ∧
        (v.kind = .error → result = v) := by
  refine ⟨fun hle hs hlets hrun hcalls => ?_, fun hle hinside hrun hcalls => ?_,
    fun hs hlets hrun => ⟨?_, ?_⟩⟩
  · exact Expr.repeats hle hclosed hs hrun
      ((Expr.confined_of_lets hlets hrun).trans hcalls.confined)
  · rw [List.forall_mem_cons] at hinside
    exact Value.call_repeats hle hclosed hinside.1 hinside.2 hrun
      ((Value.confined_of_call hrun).trans hcalls.confined)
  · obtain ⟨result, last, hresult, -⟩ := Expr.eval_equal_self hclosed hs hlets hrun
    exact ⟨result, last, hresult⟩
  · intro limit result last hresult
    cases limit with
    | zero => cases hresult
    | succ limit =>
      cases hother : (Expr.eval verbosity limit _ _).run machine with
      | error exceeded after =>
        rw [Expr.eval, run_bind, hother] at hresult
        cases hresult
      | ok w after =>
        obtain ⟨result', last', hresult', hequal, herror⟩ :=
          Expr.eval_equal_self hclosed hs hlets hother
        rw [hresult] at hresult'
        cases hresult'
        have hsame := Expr.eval_more hclosed hs hrun hother
        refine ⟨fun hv => ?_, fun hv => ?_⟩
        · obtain ⟨hf, hr⟩ := Value.plain_of_comparable hv
          exact hequal (Value.eq_of_renumber hsame hf hr ▸ hv)
        · have hw := Value.eq_of_renumber hsame (by rw [hv]; decide) (by rw [hv]; decide)
          rw [herror (hw ▸ hv), hw]

/-- The call of an identity function, once more after another call, and compared with itself. -/
theorem Heap.Closed.repeatable_identity :
    let identity := Value.fn ["x"] (.mk default [.bare default (.ident ⟨default, "x"⟩)]) 0
    let machine := Machine.ofHeap ⟨#[⟨[("f", identity)], none⟩]⟩
    let e := Expr.call default (.ident ⟨default, "f"⟩) [.int default 7]
    let after := (e.eval 1 3 0).leaves machine
    let again := (identity.call 0 2 (Expr.eval 0 2) [.null]).leaves after
    (e.eval 1 3 0).Repeats machine (.int 7) after again ∧
      (identity.call 1 2 (Expr.eval 1 2) [.int 7]).Repeats machine (.int 7) after again ∧
      ∀ result last, ((Expr.binary default e "==" e).eval 1 4 0).run machine = .ok result last →
        result = .bool true := by
  intro identity machine e after again
  have hclosed : machine.heap.Closed :=
    Heap.closed_singleton fun id hid => (Option.some.inj hid).symm
  have hcalls : after.CallsTo again := .single ⟨0, 2, identity, [.null], rfl⟩
  have hall := hclosed.repeatable 1
  refine ⟨hall.1 (Nat.le_refl 3) Nat.zero_lt_one rfl rfl hcalls,
    hall.2.1 (Nat.le_refl 2) ?_ rfl hcalls, fun result last hresult => ?_⟩
  · rw [List.forall_mem_cons, List.forall_mem_singleton]
    exact ⟨fun id hid => Option.some.inj hid ▸ Nat.zero_lt_one, fun id hid => nomatch hid⟩
  · have hseven : (e.eval 1 3 0).run machine = .ok (.int 7) after := rfl
    exact ((hall.2.2 Nat.zero_lt_one rfl hseven).2 hresult).1 (.inl rfl)

end Inkwell
