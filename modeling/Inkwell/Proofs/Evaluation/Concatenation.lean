import Inkwell.Proofs.Evaluation.Confined
import Inkwell.Proofs.Evaluation.Renumber
import Inkwell.Proofs.Grammar.Exact
import Inkwell.Proofs.Grammar.Seam
import Inkwell.Proofs.Token.Cutting
import Mathlib.Data.List.Induction

/-!
# Texts one after the other

Two texts evaluated one after the other, in one scope of one heap, do what the text of both does
that has the second behind the first. The second text starts on the machine that the first one left,
unless a statement of the first was interrupted; and what it does depends on the heap alone, not on
what was recorded before. Reading keeps the two apart if the first text is sealed.
-/

namespace Inkwell

open EvalM

variable {verbosity : Int} {depth : Nat} {machine after : Machine} {scope : ScopeId}
  {result last : Option Value} {ss rs : List Stmt}

/-- The result of statements behind others is their own. -/
theorem Stmt.evalAll_last {eval : Evaluator} (h : rs ≠ []) :
    Stmt.evalAll verbosity depth eval scope last rs =
      Stmt.evalAll verbosity depth eval scope none rs := by
  cases rs with
  | nil => exact absurd rfl h
  | cons => rfl

/-- The statements behind the first one are evaluated unless it is interrupted. -/
theorem Stmt.run_evalAll_cons {eval : Evaluator} {s : Stmt} :
    (Stmt.evalAll verbosity depth eval scope last (s :: rs)).run machine =
      match (s.eval verbosity depth eval scope).run machine with
      | .ok result after =>
        if result.any Value.interrupts then .ok result after
        else (Stmt.evalAll verbosity depth eval scope result rs).run after
      | .error exceeded after => .error exceeded after := by
  rw [Stmt.evalAll, run_bind]
  cases (s.eval verbosity depth eval scope).run machine with
  | error => rfl
  | ok result after =>
    cases result with
    | none => rfl
    | some v =>
      dsimp only [Option.any_some]
      split <;> rfl

/-- One statement in a row is evaluated as it is alone. -/
theorem Stmt.run_evalAll_singleton {eval : Evaluator} {s : Stmt} :
    (Stmt.evalAll verbosity depth eval scope last [s]).run machine =
      (s.eval verbosity depth eval scope).run machine := by
  rw [Stmt.run_evalAll_cons]
  cases (s.eval verbosity depth eval scope).run machine with
  | error => rfl
  | ok result after =>
    dsimp only
    split <;> rfl

/-- Statements behind others start where the others end, unless these are interrupted. -/
theorem Stmt.run_evalAll_append {eval : Evaluator} (hlast : last.any Value.interrupts = false) :
    (Stmt.evalAll verbosity depth eval scope last (ss ++ rs)).run machine =
      match (Stmt.evalAll verbosity depth eval scope last ss).run machine with
      | .ok result after =>
        if result.any Value.interrupts then .ok result after
        else (Stmt.evalAll verbosity depth eval scope result rs).run after
      | .error exceeded after => .error exceeded after := by
  induction ss generalizing last machine with
  | nil =>
    have hrun : (Stmt.evalAll verbosity depth eval scope last []).run machine = .ok last machine :=
      rfl
    rw [List.nil_append, hrun]
    dsimp only
    rw [hlast, if_neg Bool.false_ne_true]
  | cons s ss ih =>
    rw [List.cons_append, Stmt.run_evalAll_cons, Stmt.run_evalAll_cons]
    cases (s.eval verbosity depth eval scope).run machine with
    | error => rfl
    | ok result after =>
      dsimp only
      cases hr : result.any Value.interrupts with
      | true => simp [hr]
      | false => exact ih hr

/-- A program is interrupted by a statement of its own that gives an error, or the wrapper of a
`return`. -/
def Program.Interrupted (verbosity : Int) (depth : Nat) (machine : Machine) (scope : ScopeId)
    (program : Program) : Prop :=
  ∃ s middle v after,
    Starts verbosity (.statements depth scope program.statements, machine)
      (.statement depth scope s, middle) ∧
    (Task.run verbosity (.statement depth scope s)).run middle = .ok (some v) after ∧
    v.interrupts = true

/-- A statement behind some others would be evaluated: these end, and are not interrupted. -/
def Stmt.Reaches (verbosity : Int) (depth : Nat) (machine : Machine) (scope : ScopeId)
    (before : List Stmt) : Prop :=
  ∃ result middle, (Task.run verbosity (.statements depth scope before)).run machine =
    .ok result middle ∧ ∀ v ∈ result, ¬ v.interrupts = true

/-- A result does not interrupt if the value in it does not, if there is one. -/
theorem any_interrupts_eq_false : result.any Value.interrupts = false ↔
    ∀ v ∈ result, ¬ v.interrupts = true := by
  cases result <;> simp

/-- A program is interrupted if and only if its statements together are. -/
theorem Program.interrupted_iff {program : Program} :
    program.Interrupted verbosity depth machine scope ↔
      ∃ result after, (Stmt.evalAll verbosity depth (Expr.eval verbosity depth) scope none
        program.statements).run machine = .ok result after ∧
        result.any Value.interrupts = true := by
  unfold Program.Interrupted
  generalize program.statements = ss
  constructor
  · rintro ⟨s, middle, v, after, hstarts, hrun, hv⟩
    cases hstarts with
    | @statement _ _ before behind _ result _ _ hbefore hresult =>
      have hb : (Stmt.evalAll verbosity depth (Expr.eval verbosity depth) scope none before).run
          machine = .ok result middle := hbefore
      have hs : (s.eval verbosity depth (Expr.eval verbosity depth) scope).run middle =
          .ok (some v) after := hrun
      refine ⟨some v, after, ?_, hv⟩
      rw [Stmt.run_evalAll_append rfl, hb]
      dsimp only
      rw [any_interrupts_eq_false.mpr hresult, if_neg Bool.false_ne_true, Stmt.run_evalAll_cons, hs]
      exact if_pos hv
  · rintro ⟨result, after, hrun, hresult⟩
    induction ss using List.reverseRecOn generalizing result after with
    | nil =>
      cases hrun
      cases hresult
    | append_singleton ss s ih =>
      rw [Stmt.run_evalAll_append rfl] at hrun
      cases hfirst : (Stmt.evalAll verbosity depth (Expr.eval verbosity depth) scope none ss).run
          machine with
      | error =>
        rw [hfirst] at hrun
        cases hrun
      | ok earlier middle =>
        rw [hfirst] at hrun
        dsimp only at hrun
        by_cases hearlier : earlier.any Value.interrupts = true
        · -- a statement before the last one is interrupted
          obtain ⟨t, start, v, later, hstarts, ht, hv⟩ := ih earlier middle hfirst hearlier
          cases hstarts with
          | @statement _ _ before behind _ _ _ _ hbefore hnone =>
            refine ⟨t, start, v, later, ?_, ht, hv⟩
            rw [List.append_assoc, List.cons_append]
            exact .statement hbefore hnone
        · have hnone := any_interrupts_eq_false.mp (Bool.not_eq_true _ ▸ hearlier)
          rw [if_neg hearlier, Stmt.run_evalAll_singleton] at hrun
          cases result with
          | none => cases hresult
          | some v => exact ⟨s, middle, v, after, .statement hfirst hnone, hrun, hresult⟩

variable {first second program : Program}

/-- A run ends with the value of the last statement, unwrapped, or at the limit. -/
theorem Machine.run_eq : machine.run verbosity depth scope program =
    match (Stmt.evalAll verbosity depth (Expr.eval verbosity depth) scope none
      program.statements).run machine with
    | .ok result after => ⟨.ok (result.map Value.unwrap), after⟩
    | .error _ after => ⟨.error .exceeded, after⟩ := by
  unfold Machine.run Program.eval
  rw [run_bind]
  cases (Stmt.evalAll verbosity depth (Expr.eval verbosity depth) scope none
    program.statements).run machine <;> rfl

/-- Nothing is evaluated behind a program that is interrupted. -/
theorem Program.Interrupted.run_append (h : first.Interrupted verbosity depth machine scope)
    (more : List Stmt) : machine.run verbosity depth scope ⟨first.statements ++ more⟩ =
      machine.run verbosity depth scope first ∧
      ¬ Stmt.Reaches verbosity depth machine scope (first.statements ++ more) := by
  obtain ⟨result, after, hrun, hresult⟩ := Program.interrupted_iff.mp h
  have hall : (Stmt.evalAll verbosity depth (Expr.eval verbosity depth) scope none
      (first.statements ++ more)).run machine = .ok result after := by
    rw [Stmt.run_evalAll_append rfl, hrun]
    exact if_pos hresult
  constructor
  · rw [Machine.run_eq, Machine.run_eq, hrun, hall]
  · rintro ⟨other, middle, hother, hnone⟩
    obtain ⟨rfl, rfl⟩ := EStateM.Result.ok.inj (hall.symm.trans hother)
    rw [any_interrupts_eq_false.mpr hnone] at hresult
    cases hresult

/-- Nothing is evaluated behind a program that exceeds its depth. -/
theorem Machine.run_append_of_exceeded
    (h : (machine.run verbosity depth scope first).outcome = .error .exceeded)
    (more : List Stmt) : machine.run verbosity depth scope ⟨first.statements ++ more⟩ =
      machine.run verbosity depth scope first := by
  rw [Machine.run_eq] at h
  rw [Machine.run_eq, Machine.run_eq, Stmt.run_evalAll_append rfl]
  cases hrun : (Stmt.evalAll verbosity depth (Expr.eval verbosity depth) scope none
      first.statements).run machine with
  | error => rfl
  | ok result after =>
    rw [hrun] at h
    cases h

/-- A program behind one that ends uninterrupted is run on the machine that this one leaves. -/
theorem Machine.run_append (hfirst : ¬ first.Interrupted verbosity depth machine scope)
    (hends : (machine.run verbosity depth scope first).outcome ≠ .error .exceeded)
    (hsecond : second.statements ≠ []) :
    machine.run verbosity depth scope ⟨first.statements ++ second.statements⟩ =
      (machine.run verbosity depth scope first).machine.run verbosity depth scope second := by
  rw [Program.interrupted_iff] at hfirst
  rw [Machine.run_eq] at hends
  rw [Machine.run_eq, Machine.run_eq, Machine.run_eq, Stmt.run_evalAll_append rfl]
  cases hrun : (Stmt.evalAll verbosity depth (Expr.eval verbosity depth) scope none
      first.statements).run machine with
  | error =>
    rw [hrun] at hends
    exact absurd rfl hends
  | ok result after =>
    have hresult : ¬ result.any Value.interrupts = true := fun h => hfirst ⟨_, _, hrun, h⟩
    dsimp only
    rw [if_neg hresult, Stmt.evalAll_last hsecond]

/-- A run of a program has no other ends than these. -/
theorem Machine.outcome_cases (machine : Machine) (verbosity : Int) (depth : Nat) (scope : ScopeId)
    (program : Program) :
    (machine.run verbosity depth scope program).outcome = .error .exceeded ∨
      ∃ value, (machine.run verbosity depth scope program).outcome = .ok value := by
  unfold Machine.run
  cases (program.eval verbosity depth scope).run machine with
  | error => exact .inl rfl
  | ok value => exact .inr ⟨value, rfl⟩

/-- A run that ends within its depth does the same within a larger one, behind another trace. -/
theorem Machine.run_retrace {value : Option Value} {more : Nat} (hle : depth ≤ more)
    (start : Array Event)
    (h : (machine.run verbosity depth scope program).outcome = .ok value) :
    ∃ events, (machine.run verbosity depth scope program).machine.trace = machine.trace ++ events ∧
      Machine.run verbosity more { machine with trace := start } scope program =
        ⟨.ok value, { (machine.run verbosity depth scope program).machine with
          trace := start ++ events }⟩ := by
  -- two runs on the same heap, all numbers being the same, with different traces before them
  let C := Coupling.renumber verbosity id machine.trace start
  have hm : machine.Renumbered id machine.trace start { machine with trace := start } :=
    ⟨machine.heap.renumbered_id, rfl, #[], Array.append_empty.symm, Array.append_empty.symm⟩
  have hfollows : C.Follows () (program.eval verbosity depth scope)
      (program.eval verbosity more scope) C.result :=
    @C.program_follows () () scope scope depth more hle program program rfl
      (List.forall₂_same.mpr fun _ _ => rfl)
  unfold Machine.run at h ⊢
  cases hrun : (program.eval verbosity depth scope).run machine with
  | error =>
    rw [hrun] at h
    cases h
  | ok result after =>
    rw [hrun] at h
    cases h
    obtain ⟨_, other, last, hlast, -, hafter, hsame⟩ := hfollows _ _ hm _ _ hrun
    obtain ⟨heap, openCalls, events, htrace, htrace'⟩ := hafter
    have hvalue : other = value := by
      cases hsame with
      | none => rfl
      | some hv => rw [hv, Value.renumber_id]
    refine ⟨events, htrace, ?_⟩
    rw [hlast, hvalue]
    obtain ⟨lastHeap, lastTrace, lastCalls⟩ := last
    dsimp only at heap openCalls htrace' ⊢
    rw [heap.eq_of_id, openCalls, htrace']

/-- Whether a run ends within its depth, and with which value, does not depend on the trace. -/
theorem Machine.run_outcome_retrace (start : Array Event) :
    (Machine.run verbosity depth { machine with trace := start } scope program).outcome =
      (machine.run verbosity depth scope program).outcome := by
  rcases machine.outcome_cases verbosity depth scope program with h | ⟨value, h⟩
  · rcases Machine.outcome_cases { machine with trace := start } verbosity depth scope program with
      h' | ⟨value, h'⟩
    · rw [h, h']
    · obtain ⟨events, -, hback⟩ := Machine.run_retrace (Nat.le_refl depth) machine.trace h'
      have hsame : machine.run verbosity depth scope program = _ := hback
      rw [hsame] at h
      cases h
  · obtain ⟨events, -, hsame⟩ := Machine.run_retrace (Nat.le_refl depth) start h
    rw [hsame, h]

variable {heap : Heap} {source front back : String}

/-- Behind a sealed text that is accepted, another text is read as if it stood alone. -/
theorem Program.ofSource_append_line (hsealed : Grammar.Sealed (Token.scan front))
    (hfirst : Program.ofSource depth front = .ok first)
    (hsecond : Program.ofSource depth back = .ok second) :
    Program.ofSource depth (front ++ "\n" ++ back) =
      .ok ⟨first.statements ++ second.statements⟩ := by
  rw [Program.ofSource_eq_ok_iff] at hfirst hsecond ⊢
  rw [Token.scan_append_line]
  exact Program.read_append (Grammar.unended_scan front) hsealed hfirst hsecond

/-- A text that is accepted is run as its program. -/
theorem Heap.runSource_of_ok (h : Program.ofSource depth source = .ok program) :
    heap.runSource verbosity depth scope source =
      (Machine.ofHeap heap).run verbosity depth scope program := by
  rw [Heap.runSource, h]

/-- All calls are closed at the end of a run, so that it leaves a heap and a trace. -/
theorem Machine.run_ofHeap_machine :
    ((Machine.ofHeap heap).run verbosity depth scope program).machine =
      { Machine.ofHeap ((Machine.ofHeap heap).run verbosity depth scope program).machine.heap with
        trace := ((Machine.ofHeap heap).run verbosity depth scope program).machine.trace } := by
  have hconfined := Program.confines_eval verbosity depth scope program (.ofHeap heap)
  rw [← Machine.run_machine] at hconfined
  have hcalls := hconfined.openCalls
  generalize ((Machine.ofHeap heap).run verbosity depth scope program).machine = after at hcalls ⊢
  obtain ⟨scopes, trace, openCalls⟩ := after
  exact congrArg (Machine.mk scopes trace) hcalls

/-- A program behind one that ends uninterrupted does what it does in the heap that this one leaves,
and what it records comes behind what was recorded. -/
theorem Machine.run_ofHeap_append
    (hfirst : ¬ first.Interrupted verbosity depth (.ofHeap heap) scope)
    (hends : ((Machine.ofHeap heap).run verbosity depth scope first).outcome ≠ .error .exceeded)
    (hsecond : second.statements ≠ []) :
    let opening := (Machine.ofHeap heap).run verbosity depth scope first
    let closing := (Machine.ofHeap opening.machine.heap).run verbosity depth scope second
    let whole :=
      (Machine.ofHeap heap).run verbosity depth scope ⟨first.statements ++ second.statements⟩
    whole.outcome = closing.outcome ∧
      (closing.outcome ≠ .error .exceeded → whole = ⟨closing.outcome,
        { closing.machine with trace := opening.machine.trace ++ closing.machine.trace }⟩) := by
  intro opening closing whole
  have hwhole : whole = Machine.run verbosity depth
      { Machine.ofHeap opening.machine.heap with trace := opening.machine.trace } scope second :=
    (Machine.run_append hfirst hends hsecond).trans
      (congrArg (Machine.run verbosity depth · scope second) Machine.run_ofHeap_machine)
  refine ⟨hwhole ▸ Machine.run_outcome_retrace _, fun hclosing => ?_⟩
  obtain ⟨value, hvalue⟩ :=
    ((Machine.ofHeap opening.machine.heap).outcome_cases verbosity depth scope second).resolve_left
      hclosing
  obtain ⟨events, htrace, hsame⟩ :=
    Machine.run_retrace (Nat.le_refl depth) opening.machine.trace hvalue
  have hevents : closing.machine.trace = events := htrace.trans Array.empty_append
  rw [hwhole, hsame, hevents]
  exact congrArg (Run.mk · _) hvalue.symm

/-- Two texts are accepted, the first has a semicolon as its last token and closes as many braces
as it opens, and the second has at least one statement. Then the text of both, on two lines, is
accepted and has the statements of both. If a statement of the first is interrupted, this text does
what the first does alone, and no statement of the second is reached. Otherwise it ends as the
second does in the heap that the first leaves, with the same heap, and records what both record. It
exceeds its depth if and only if one of the two runs does. -/
theorem Heap.runSource_append_line (hfirst : Program.ofSource depth front = .ok first)
    (hsecond : Program.ofSource depth back = .ok second)
    (hlast : (Token.scan front).getLast?.map Token.kind = some .semicolon)
    (hbraces : Grammar.count .rbrace (Token.scan front) =
      Grammar.count .lbrace (Token.scan front))
    (hstatements : second.statements ≠ []) :
    Program.ofSource depth (front ++ "\n" ++ back) =
      .ok ⟨first.statements ++ second.statements⟩ ∧
    ∀ (verbosity : Int) (heap : Heap) (scope : ScopeId),
      let whole := heap.runSource verbosity depth scope (front ++ "\n" ++ back)
      let opening := heap.runSource verbosity depth scope front
      let closing := opening.machine.heap.runSource verbosity depth scope back
      (first.Interrupted verbosity depth (.ofHeap heap) scope →
        whole = opening ∧ ∀ before, before <+: second.statements →
          ¬ Stmt.Reaches verbosity depth (.ofHeap heap) scope (first.statements ++ before)) ∧
      (¬ first.Interrupted verbosity depth (.ofHeap heap) scope →
        opening.outcome ≠ .error .exceeded → closing.outcome ≠ .error .exceeded →
        whole = ⟨closing.outcome,
          { closing.machine with trace := opening.machine.trace ++ closing.machine.trace }⟩) ∧
      (whole.outcome = .error .exceeded ↔ opening.outcome = .error .exceeded ∨
        ¬ first.Interrupted verbosity depth (.ofHeap heap) scope ∧
          closing.outcome = .error .exceeded) := by
  have hsealed : Grammar.Sealed (Token.scan front) := by
    refine ⟨hbraces.symm, fun token ht => ?_⟩
    rw [Option.mem_def.mp ht] at hlast
    exact Option.some.inj hlast
  have hwhole := Program.ofSource_append_line hsealed hfirst hsecond
  refine ⟨hwhole, fun verbosity heap scope => ?_⟩
  rw [Heap.runSource_of_ok hwhole, Heap.runSource_of_ok hfirst]
  dsimp only
  rw [Heap.runSource_of_ok hsecond]
  by_cases hinterrupted : first.Interrupted verbosity depth (.ofHeap heap) scope
  · have hsame := (hinterrupted.run_append second.statements).1
    refine ⟨fun _ => ⟨hsame, fun before _ => (hinterrupted.run_append before).2⟩,
      fun h => absurd hinterrupted h, ?_⟩
    rw [hsame]
    exact ⟨.inl, fun h => h.resolve_right fun h => h.1 hinterrupted⟩
  · refine ⟨fun h => absurd h hinterrupted, fun _ hends hclosing => ?_, ?_⟩
    · exact (Machine.run_ofHeap_append hinterrupted hends hstatements).2 hclosing
    · by_cases hends :
          ((Machine.ofHeap heap).run verbosity depth scope first).outcome = .error .exceeded
      · rw [Machine.run_append_of_exceeded hends]
        simp [hends]
      · rw [(Machine.run_ofHeap_append hinterrupted hends hstatements).1]
        simp [hends, hinterrupted]

/-- A function bound on the first line and called on the second. -/
theorem Heap.runSource_append_line_identity :
    let heap : Heap := ⟨#[⟨[], none⟩]⟩
    let whole := heap.runSource 2 3 0 ("let f = fn(x) \x7bx\x7d;" ++ "\n" ++ "f(true)")
    whole.outcome = .ok (some (.bool true)) ∧
      whole.machine.trace.toList = [⟨0, .bound "f" "fn(x) \x7b\nx\n\x7d"⟩,
        ⟨0, .called ["x"] ["true"]⟩, ⟨0, .returned "true"⟩] := by
  intro heap whole
  have hfront : Token.scan "let f = fn(x) \x7bx\x7d;" = [⟨.letKw, "let"⟩, ⟨.ident, "f"⟩,
      ⟨.assign, "="⟩, ⟨.fnKw, "fn"⟩, ⟨.lparen, "("⟩, ⟨.ident, "x"⟩, ⟨.rparen, ")"⟩,
      ⟨.lbrace, "\x7b"⟩, ⟨.ident, "x"⟩, ⟨.rbrace, "\x7d"⟩, ⟨.semicolon, ";"⟩] := by
    iterate 11 refine Token.tokensOf_eq_cons rfl ?_
    exact Token.tokensOf_nil
  have hback : Token.scan "f(true)" =
      [⟨.ident, "f"⟩, ⟨.lparen, "("⟩, ⟨.trueKw, "true"⟩, ⟨.rparen, ")"⟩] := by
    iterate 4 refine Token.tokensOf_eq_cons rfl ?_
    exact Token.tokensOf_nil
  have hfirst : Program.ofSource 3 "let f = fn(x) \x7bx\x7d;" =
      .ok ⟨[.define ⟨.letKw, "let"⟩ ⟨⟨.ident, "f"⟩, "f"⟩
        (.fn ⟨.fnKw, "fn"⟩ [⟨⟨.ident, "x"⟩, "x"⟩]
          (.mk ⟨.lbrace, "\x7b"⟩ [.bare ⟨.ident, "x"⟩ (.ident ⟨⟨.ident, "x"⟩, "x"⟩)]))]⟩ := by
    rw [Program.ofSource, hfront]
    rfl
  have hsecond : Program.ofSource 3 "f(true)" =
      .ok ⟨[.bare ⟨.ident, "f"⟩ (.call ⟨.lparen, "("⟩ (.ident ⟨⟨.ident, "f"⟩, "f"⟩)
        [.bool ⟨.trueKw, "true"⟩ true])]⟩ := by
    rw [Program.ofSource, hback]
    rfl
  have hruns := (Heap.runSource_append_line hfirst hsecond (by rw [hfront]; rfl)
    (by rw [hfront]; rfl) (List.cons_ne_nil _ _)).2 2 heap 0
  rw [Heap.runSource_of_ok hfirst] at hruns
  dsimp only at hruns
  rw [Heap.runSource_of_ok hsecond] at hruns
  have hwhole : whole = _ := hruns.2.1 (fun hinterrupted => by
    obtain ⟨result, after, hrun, hresult⟩ := Program.interrupted_iff.mp hinterrupted
    cases hrun
    cases hresult) nofun nofun
  rw [hwhole]
  exact ⟨rfl, Array.toList_append.trans rfl⟩

end Inkwell
