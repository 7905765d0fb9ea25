import Inkwell.Proofs.Evaluation.Chain
import Inkwell.Proofs.Evaluation.Concatenation
import Inkwell.Proofs.Tree.Height

/-!
# The limit on depth

How much depth a run is given shows in one way only: whether it exceeds the depth. A run that ends
within some depth goes exactly the same way within any larger one, so all depths that are enough
give the same answer.

Without calls, an expression takes one unit of depth for each expression around it, and looking a
name up takes one for each scope on the chain. So the height of the tree and the length of the chain
together are enough, unless values have to be shown in the trace.
-/

namespace Inkwell

open EvalM

variable {α β : Type} {verbosity : Int} {depth levels : Nat} {machine : Machine} {scope : ScopeId}
  {chain : List ScopeId} {program : Program} {eval : Evaluator}

/-- A run that ends within its depth goes the same way within a larger one. -/
theorem Machine.run_eq_of_le {more : Nat} (hle : depth ≤ more)
    (h : (machine.run verbosity depth scope program).outcome ≠ .error .exceeded) :
    machine.run verbosity more scope program = machine.run verbosity depth scope program := by
  obtain ⟨value, hvalue⟩ := (machine.outcome_cases verbosity depth scope program).resolve_left h
  obtain ⟨events, htrace, hsame⟩ := Machine.run_retrace hle machine.trace hvalue
  have hrun : machine.run verbosity more scope program = _ := hsame
  rw [hrun, ← htrace, ← hvalue]

/-- Whatever was written, the chains of the scopes of before are the same. -/
theorem Heap.Chain.of_confined {writes : ScopeId → String → Prop} {before after : Machine}
    {id : ScopeId} (h : before.heap.Chain id chain) (hconfined : before.Confined writes after) :
    after.heap.Chain id chain := by
  induction h with
  | last hs ho =>
    obtain ⟨t, ht, houter, -⟩ := hconfined.scope hs
    exact .last ht (houter.trans ho)
  | outer hs ho _ ih =>
    obtain ⟨t, ht, houter, -⟩ := hconfined.scope hs
    exact .outer ht (houter.trans ho) ih

/-- Steps that end on every machine on which a scope has a certain chain, and leave the chain as it
is. -/
def Completes (scope : ScopeId) (chain : List ScopeId) (x : EvalM α) : Prop :=
  ∀ machine : Machine, machine.heap.Chain scope chain →
    ∃ a after, x.run machine = .ok a after ∧ after.heap.Chain scope chain

namespace Completes

/-- A result alone ends. -/
theorem pure (a : α) : Completes scope chain (pure a) := fun machine hm => ⟨a, machine, rfl, hm⟩

/-- Steps in sequence end if each of them does. -/
theorem bind {x : EvalM α} {f : α → EvalM β} (hx : Completes scope chain x)
    (hf : ∀ a, Completes scope chain (f a)) : Completes scope chain (x >>= f) := by
  intro machine hm
  obtain ⟨a, middle, hrun, hmiddle⟩ := hx machine hm
  obtain ⟨b, after, hrest, hafter⟩ := hf a middle hmiddle
  exact ⟨b, after, by rw [run_bind, hrun]; exact hrest, hafter⟩

/-- So does a choice between steps that do. -/
theorem ite {c : Prop} [Decidable c] {x y : EvalM α} (hx : c → Completes scope chain x)
    (hy : ¬ c → Completes scope chain y) : Completes scope chain (if c then x else y) := by
  split
  · exact hx ‹_›
  · exact hy ‹_›

/-- Recording an event ends, since it takes no depth. -/
theorem record (message : Message) : Completes scope chain (EvalM.record message) :=
  fun machine hm => ⟨(), machine.record message, rfl, hm⟩

theorem raise {fault : Fault} : Completes scope chain (EvalM.raise verbosity fault) := by
  unfold EvalM.raise
  exact .ite (fun _ => (record _).bind fun _ => .pure _) fun _ => .pure _

/-- The result of an operator is there at once, or an error value in its place. -/
theorem settle {result : Except Fault Value} :
    Completes scope chain (EvalM.settle verbosity result) := by
  unfold EvalM.settle
  split
  · exact .pure _
  · exact .raise

/-- Binding a name leaves all chains as they are. -/
theorem define {target : ScopeId} {name : String} {v : Value} :
    Completes scope chain (EvalM.define target name v) := by
  intro machine hm
  have hset : machine.Confined (fun _ _ => True) (machine.set target name v) := .set machine trivial
  exact ⟨(), machine.set target name v, rfl, hm.of_confined hset⟩

/-- The depth is enough for the way along the chain. -/
theorem lookup {name : String} (hd : chain.length ≤ depth) :
    Completes scope chain (EvalM.lookup depth scope name) := by
  intro machine hm
  obtain ⟨found, hfound⟩ := hm.exists_get? hd name
  exact ⟨found, machine, by rw [run_lookup, hfound], hm⟩

end Completes

/-- An evaluator that ends on expressions of some height without calls. -/
def Evaluator.Completes (levels : Nat) (scope : ScopeId) (chain : List ScopeId)
    (eval : Evaluator) : Prop :=
  ∀ {e : Expr}, e.height ≤ levels → (∀ f ∈ e.parts, ¬ f.isCall = true) →
    Inkwell.Completes scope chain (eval scope e)

mutual

/-- A statement without calls ends within as many levels as it has. -/
theorem Stmt.completes (hv : verbosity < 2) (he : eval.Completes levels scope chain) :
    ∀ {s : Stmt}, s.height ≤ levels → (∀ f ∈ s.parts, ¬ f.isCall = true) →
    Completes scope chain (s.eval verbosity depth eval scope)
  | .bare _ e, hs, hf => by
    rw [Stmt.height] at hs
    rw [Stmt.eval]
    exact (he (Nat.le_of_succ_le hs) hf).bind fun _ => .pure _
  | .define _ name e, hs, hf => by
    rw [Stmt.height] at hs
    rw [Stmt.eval]
    refine (he (Nat.le_of_succ_le hs) hf).bind fun v => .ite (fun _ => .pure _) fun _ => ?_
    exact Completes.define.bind fun _ => .ite (fun hshow => by omega) fun _ => .pure _
  | .ret _ none, _, _ => by
    rw [Stmt.eval]
    exact .pure _
  | .ret _ (some e), hs, hf => by
    rw [Stmt.height] at hs
    rw [Stmt.eval]
    exact (he (Nat.le_of_succ_le hs) hf).bind fun _ => .pure _
  | .block inner, hs, hf => by
    rw [Stmt.height] at hs
    rw [Stmt.eval]
    exact Block.completes hv he (Nat.le_of_succ_le hs) hf

theorem Block.completes (hv : verbosity < 2) (he : eval.Completes levels scope chain) :
    ∀ {b : Block}, b.height ≤ levels → (∀ f ∈ b.parts, ¬ f.isCall = true) →
    Completes scope chain (b.eval verbosity depth eval scope)
  | .mk _ ss, hb, hf => by
    rw [Block.height] at hb
    rw [Block.eval]
    exact Stmt.completes_all hv he (Nat.le_of_succ_le hb) hf

theorem Stmt.completes_all (hv : verbosity < 2) (he : eval.Completes levels scope chain) :
    ∀ {ss : List Stmt} {last : Option Value}, Stmt.heightAll ss ≤ levels →
    (∀ f ∈ Stmt.partsAll ss, ¬ f.isCall = true) →
    Completes scope chain (Stmt.evalAll verbosity depth eval scope last ss)
  | [], _, _, _ => by
    rw [Stmt.evalAll]
    exact .pure _
  | s :: ss, _, hs, hf => by
    rw [Stmt.heightAll, Nat.max_le] at hs
    rw [Stmt.partsAll, List.forall_mem_append] at hf
    rw [Stmt.evalAll]
    refine (Stmt.completes hv he hs.1 hf.1).bind fun result => ?_
    cases result with
    | none => exact Stmt.completes_all hv he hs.2 hf.2
    | some v => exact .ite (fun _ => .pure _) fun _ => Stmt.completes_all hv he hs.2 hf.2

end

/-- A choice between two branches, with nothing shown. -/
theorem Completes.cond {e : Expr} {x y z : EvalM Value} (hv : verbosity < 2)
    (hx : Completes scope chain x) (hy : Completes scope chain y) (hz : Completes scope chain z) :
    Completes scope chain (do
      let value ← x
      if value.interrupts then return value
      if 3 ≤ verbosity then
        let text ← EvalM.shownExpr depth e
        EvalM.record (.tested text (← EvalM.shown depth value) value.isTruthy)
      if value.isTruthy then y else z) := by
  refine hx.bind fun v => .ite (fun _ => .pure _) fun _ => ?_
  exact .ite (fun hshow => by omega) fun _ => .ite (fun _ => hy) fun _ => hz

/-- Without calls, an expression ends within its height and the length of the chain. -/
theorem Expr.completes (hv : verbosity < 2) :
    Evaluator.Completes levels scope chain (Expr.eval verbosity (levels + chain.length)) := by
  induction levels with
  | zero =>
    intro e hd _
    cases e <;> simp [Expr.height] at hd
  | succ levels ih =>
    intro e hd hf
    have hdepth : levels + 1 + chain.length = levels + chain.length + 1 := Nat.add_right_comm _ _ _
    rw [hdepth]
    cases e with
    | int =>
      rw [Expr.eval]
      exact .pure _
    | bool =>
      rw [Expr.eval]
      exact .pure _
    | fn =>
      rw [Expr.eval]
      exact .pure _
    | ident =>
      rw [Expr.eval]
      refine (Completes.lookup (Nat.le_add_left _ _)).bind fun found => ?_
      cases found with
      | none => exact .raise
      | some => exact .pure _
    | unary =>
      rw [Expr.eval]
      rw [Expr.height, Nat.add_le_add_iff_right] at hd
      rw [Expr.parts, List.forall_mem_cons] at hf
      exact (ih hd hf.2).bind fun v => .ite (fun _ => .pure _) fun _ => .settle
    | binary =>
      rw [Expr.eval]
      rw [Expr.height, Nat.add_le_add_iff_right, Nat.max_le] at hd
      rw [Expr.parts, List.forall_mem_cons, List.forall_mem_append] at hf
      refine (ih hd.1 hf.2.1).bind fun v => .ite (fun _ => .pure _) fun _ => ?_
      exact (ih hd.2 hf.2.2).bind fun w => .ite (fun _ => .pure _) fun _ => .settle
    | cond token condition consequence alternative =>
      rw [Expr.height, Nat.add_le_add_iff_right, Nat.max_le, Nat.max_le] at hd
      rw [Expr.parts, List.forall_mem_cons, List.forall_mem_append, List.forall_mem_append] at hf
      have hthen : Completes scope chain (do
          return (← consequence.eval verbosity (levels + chain.length)
            (Expr.eval verbosity (levels + chain.length)) scope).getD .null) :=
        (Block.completes hv ih hd.2.1 hf.2.2.1).bind fun _ => .pure _
      cases alternative with
      | none =>
        rw [Expr.eval]
        exact .cond hv (ih hd.1 hf.2.1) hthen (.pure _)
      | some block =>
        rw [Expr.eval]
        exact .cond hv (ih hd.1 hf.2.1) hthen
          ((Block.completes hv ih hd.2.2 hf.2.2.2).bind fun _ => .pure _)
    | call token callee arguments => exact absurd rfl (hf _ (Expr.mem_parts_self _))

/-- How much depth a run is given shows only in whether it exceeds the depth. If it ends within some
depth, it ends within any larger one with the same value, the same heap and the same trace, and so
all depths that are enough give the same answer. Without calls, and as long as no values are shown,
the height of the program and the length of the chain of its scope together are enough. -/
theorem Machine.run_limit (verbosity : Int) (machine : Machine) (scope : ScopeId)
    (program : Program) :
    let run := fun limit => machine.run verbosity limit scope program
    (∀ {limit more : Nat}, limit ≤ more → (run limit).outcome ≠ .error .exceeded →
      run more = run limit) ∧
    (∀ {limit other : Nat}, (run limit).outcome ≠ .error .exceeded →
      (run other).outcome ≠ .error .exceeded → run other = run limit) ∧
    ∀ {chain : List ScopeId}, verbosity < 2 → program.CallFree → machine.heap.Chain scope chain →
      ∀ {limit : Nat}, program.height + chain.length ≤ limit →
      ∃ value, (run limit).outcome = .ok value := by
  intro run
  have hmore : ∀ {limit more : Nat}, limit ≤ more → (run limit).outcome ≠ .error .exceeded →
      run more = run limit := fun hle h => Machine.run_eq_of_le hle h
  refine ⟨hmore, fun {limit other} h h' => ?_, fun {chain} hv hfree hchain limit hlimit => ?_⟩
  · rcases Nat.le_total limit other with hle | hle
    · exact hmore hle h
    · exact (hmore hle h').symm
  · have hcompletes : Completes scope chain
        (program.eval verbosity (program.height + chain.length) scope) :=
      (Stmt.completes_all hv (Expr.completes hv) (Nat.le_succ _) hfree).bind fun _ => .pure _
    obtain ⟨value, after, hrun, -⟩ := hcompletes machine hchain
    have hends : run (program.height + chain.length) = ⟨.ok value, after⟩ := by
      dsimp only [run]
      rw [Machine.run, hrun]
    refine ⟨value, ?_⟩
    rw [hmore hlimit (by rw [hends]; nofun), hends]

/-- A sum with a name from the outer of two scopes: four units of depth are enough, and six are
known to be enough from the height of the tree and the length of the chain. -/
theorem Machine.run_limit_sum :
    let program : Program :=
      ⟨[.bare default (.binary default (.ident ⟨default, "x"⟩) "+" (.int default 1))]⟩
    let machine := Machine.ofHeap ⟨#[⟨[("x", .int 1)], none⟩, ⟨[], some 0⟩]⟩
    let run := fun limit => machine.run 0 limit 1 program
    (run 4).outcome = .ok (some (.int 2)) ∧ run 9 = run 4 ∧ run 4 = run 5 ∧
      program.CallFree ∧ machine.heap.Chain 1 [1, 0] ∧
      ∀ limit, 6 ≤ limit → ∃ value, (run limit).outcome = .ok value := by
  intro program machine run
  have hall := Machine.run_limit 0 machine 1 program
  have hfour : (run 4).outcome = .ok (some (.int 2)) := by decide
  have hfive : (run 5).outcome = .ok (some (.int 2)) := by decide
  have hfree : program.CallFree := by decide
  have hchain : machine.heap.Chain 1 [1, 0] := .outer rfl rfl (.last rfl rfl)
  refine ⟨hfour, hall.1 (by decide) ?_, hall.2.1 ?_ ?_, hfree, hchain, fun limit hlimit => ?_⟩
  · rw [hfour]; nofun
  · rw [hfive]; nofun
  · rw [hfour]; nofun
  · exact hall.2.2 (by decide) hfree hchain hlimit

end Inkwell
