import Inkwell.Console.Session
import Inkwell.Proofs.Evaluation.Bound
import Inkwell.Proofs.Evaluation.Retrace

/-!
# Lines of a session do not disturb each other

A session has one machine for all its lines. What a line leaves there that a later line can see is
the heap alone: the calls are closed again, and the trace is never read. So each line does what it
would do by itself in the heap that the lines before have left, and a line with diagnostics leaves
no mark at all.

A line ends the session if its text stops the reader, or if its value nests too deeply to be shown.
`Survives` says that some lines are worked on without this.
-/

namespace Inkwell

/-- The run of an accepted program fails: with a runtime error, or because it exceeds its depth. -/
def Run.Fails (run : Run) : Prop :=
  run.outcome = .error .exceeded ∨ ∃ message, run.outcome = .ok (some (.error message))

/-- The text of the run does not stop the reader, and its value can be shown. -/
def Run.Shown (depth : Nat) (run : Run) : Prop :=
  (∀ cause, run.outcome ≠ .error (.refused (.stopped cause))) ∧
    ∀ value, run.outcome = .ok (some value) → value.fits depth = true

namespace Console

variable {options : Options} {depth : Nat} {machine last : Machine} {scope : ScopeId}
  {line : String} {before after : List String} {written : List Written}

/-- A line is evaluated if it is accepted. -/
theorem turn_eq (hmode : options.mode = .evaluate) (line : String) :
    turn options depth machine scope line =
      match Program.ofSource depth line with
      | .ok program => evaluate options depth machine scope program
      | .error (.rejected diagnostics) =>
        ⟨machine, [.err (diagnosticBlock diagnostics)], .ok false⟩
      | .error (.stopped cause) => ⟨machine, [], .error (.stopped cause)⟩ := by
  unfold turn Program.ofSource
  rw [hmode, if_neg nofun]
  cases Program.read depth (Token.scan line) with
  | error => rfl
  | ok parsed =>
    obtain ⟨program, diagnostics⟩ := parsed
    cases diagnostics <;> rfl

/-- What a session does with a run of one of its lines, given the trace of the lines before. -/
def Turn.ofRun (depth : Nat) (trace : Array Event) (run : Run) : Turn :=
  let machine := run.machine.behind trace
  match run.outcome with
  | .error (.refused (.stopped cause)) => ⟨machine, [], .error (.stopped cause)⟩
  | .error (.refused (.rejected diagnostics)) =>
    ⟨machine, [.err (diagnosticBlock diagnostics)], .ok false⟩
  | .error .exceeded => ⟨machine, [.err exceededLine], .ok false⟩
  | .ok none => ⟨machine, [], .ok true⟩
  | .ok (some value) =>
    match value.text? depth with
    | some text => ⟨machine, [.out (text ++ "\n")], .ok !value.isError⟩
    | none => ⟨machine, [], .error .unshowable⟩

/-- A turn leaves the machine of its run, with the trace put before. -/
theorem Turn.ofRun_machine (depth : Nat) (trace : Array Event) (run : Run) :
    (Turn.ofRun depth trace run).machine = run.machine.behind trace := by
  unfold Turn.ofRun
  split <;> try rfl
  split <;> rfl

/-- Nothing else than a reader that stops and a value that cannot be shown ends a session. -/
theorem Turn.exists_ending_iff {trace : Array Event} {run : Run} :
    (∃ succeeded, (Turn.ofRun depth trace run).ending = .ok succeeded) ↔ run.Shown depth := by
  obtain ⟨outcome, machine⟩ := run
  unfold Turn.ofRun Run.Shown Value.text?
  cases outcome with
  | error failure =>
    cases failure with
    | refused refusal => cases refusal <;> simp
    | exceeded => simp
  | ok result =>
    cases result with
    | none => simp
    | some value => cases hfits : value.fits depth <;> simp [hfits]

/-- A program does on the machine of a session what it does by itself in the heap. -/
theorem evaluate_eq_ofRun (hcalls : machine.openCalls = 0) (program : Program) :
    evaluate options depth machine scope program = .ofRun depth machine.trace
      ((Machine.ofHeap machine.heap).run options.verbosity depth scope program) := by
  have hrun : machine.run options.verbosity depth scope program = _ :=
    Machine.behind_ofHeap hcalls ▸ Machine.run_behind machine.trace (.ofHeap machine.heap) program
  unfold evaluate Turn.ofRun
  rw [hrun]
  rcases (Machine.ofHeap machine.heap).outcome_cases options.verbosity depth scope program with
    h | ⟨value, h⟩
  · rw [h]
  · rw [h]
    cases value <;> rfl

/-- A line does what it would do by itself in the heap of the session. -/
theorem turn_eq_ofRun (hmode : options.mode = .evaluate) (hcalls : machine.openCalls = 0)
    (line : String) : turn options depth machine scope line = .ofRun depth machine.trace
      (machine.heap.runSource options.verbosity depth scope line) := by
  have hsame := Machine.behind_ofHeap hcalls
  rw [turn_eq hmode]
  unfold Heap.runSource
  cases Program.ofSource depth line with
  | ok program => exact evaluate_eq_ofRun hcalls program
  | error refusal =>
    unfold Turn.ofRun
    dsimp only
    rw [hsame]
    cases refusal <;> rfl

/-- The machine that a line leaves has all scopes of before, and no open calls. -/
theorem confined_turn (hmode : options.mode = .evaluate) (hcalls : machine.openCalls = 0)
    (line : String) : machine.heap.scopes.size ≤
      (turn options depth machine scope line).machine.heap.scopes.size ∧
      (turn options depth machine scope line).machine.openCalls = 0 := by
  rw [turn_eq_ofRun hmode hcalls, Turn.ofRun_machine]
  unfold Heap.runSource
  split
  · next program _ =>
    have hconfined :=
      (Task.run_confined options.verbosity).2.1 depth scope program (.ofHeap machine.heap)
    exact ⟨hconfined.size_le, hconfined.openCalls⟩
  · exact ⟨Nat.le_refl _, rfl⟩

/-- A line whose run fails does not end the session, and leaves the machine of its run. -/
theorem evaluate_of_fails {program : Program}
    (h : (machine.run options.verbosity depth scope program).Fails) :
    (evaluate options depth machine scope program).ending = .ok false ∧
      (evaluate options depth machine scope program).machine =
        (machine.run options.verbosity depth scope program).machine := by
  unfold evaluate
  dsimp only
  rcases h with h | ⟨message, h⟩
  · rw [h]
    exact ⟨rfl, rfl⟩
  · rw [h]
    exact ⟨rfl, rfl⟩

/-- Lines that a session works on one after the other without ending: on the way something is
written, and a machine is left. Each line may succeed or fail. -/
inductive Survives (options : Options) (depth : Nat) (scope : ScopeId) :
    Machine → List String → List Written → Machine → Prop
  | nil (machine : Machine) : Survives options depth scope machine [] [] machine
  | cons {machine last : Machine} {line : String} {rest : List String} {written : List Written}
    {succeeded : Bool} : line ≠ "" →
    (turn options depth machine scope line).ending = .ok succeeded →
    Survives options depth scope (turn options depth machine scope line).machine rest written
      last →
    Survives options depth scope machine (line :: rest)
      (.out options.prompt :: ((turn options depth machine scope line).written ++ written)) last

namespace Survives

/-- One more line. -/
theorem concat (h : Survives options depth scope machine before written last) (hline : line ≠ "")
    {succeeded : Bool} (hends : (turn options depth last scope line).ending = .ok succeeded) :
    Survives options depth scope machine (before ++ [line])
      (written ++ .out options.prompt :: (turn options depth last scope line).written)
      (turn options depth last scope line).machine := by
  induction h with
  | nil =>
    have hone := Survives.cons hline hends (.nil _)
    rwa [List.append_nil] at hone
  | cons hfirst hturn _ ih =>
    rw [List.cons_append, List.cons_append, List.append_assoc]
    exact .cons hfirst hturn (ih hends)

/-- No scope disappears, and all calls are closed. -/
theorem confined (h : Survives options depth scope machine before written last)
    (hmode : options.mode = .evaluate) (hcalls : machine.openCalls = 0) :
    machine.heap.scopes.size ≤ last.heap.scopes.size ∧ last.openCalls = 0 := by
  induction h with
  | nil => exact ⟨Nat.le_refl _, hcalls⟩
  | cons _ _ _ ih =>
    obtain ⟨hsize, hturn⟩ := confined_turn hmode hcalls _
    obtain ⟨hrest, hlast⟩ := ih hturn
    exact ⟨Nat.le_trans hsize hrest, hlast⟩

/-- Behind lines that it survives, a session goes on with the machine that they leave. -/
theorem interact_append (h : Survives options depth scope machine before written last)
    (after : List String) : interact options depth machine scope (before ++ after) =
      ⟨(interact options depth last scope after).machine,
        written ++ (interact options depth last scope after).written,
        (interact options depth last scope after).ending⟩ := by
  induction h with
  | nil => rfl
  | cons hline hturn _ ih =>
    rw [List.cons_append, interact, if_neg (by simpa using hline)]
    dsimp only
    rw [hturn]
    dsimp only
    rw [ih, List.cons_append, List.append_assoc]

end Survives

/-- A session survives some lines. Then a line with diagnostics can be put behind them, whatever
lines come after: the session does the same with it as without it, except that it writes one more
prompt and this block of diagnostics at this place. An accepted line that fails, with a runtime
error or for want of depth, is survived too. It leaves no call open and in the scope of the session
exactly the bindings that were made before it failed, each of them by a `let` statement that its run
got to. And each line does what it does by itself in the heap that the lines before it have left. It
is survived unless its text stops the reader, or its value cannot be shown. -/
theorem interact_isolates (hmode : options.mode = .evaluate) (hcalls : machine.openCalls = 0)
    (hscope : scope < machine.heap.scopes.size)
    (hbefore : Survives options depth scope machine before written last) :
    (∀ line diagnostics, line ≠ "" →
      Program.ofSource depth line = .error (.rejected diagnostics) → ∀ after,
      let plain := interact options depth machine scope (before ++ after)
      let session := interact options depth machine scope (before ++ line :: after)
      let rest := (interact options depth last scope after).written
      session.machine = plain.machine ∧ session.ending = plain.ending ∧
        plain.written = written ++ rest ∧
        session.written =
          written ++ .out options.prompt :: .err (diagnosticBlock diagnostics) :: rest) ∧
    (∀ line program, line ≠ "" → Program.ofSource depth line = .ok program →
      (last.run options.verbosity depth scope program).Fails →
      let failed := turn options depth last scope line
      Survives options depth scope machine (before ++ [line])
          (written ++ .out options.prompt :: failed.written) failed.machine ∧
        failed.ending = .ok false ∧ failed.machine.openCalls = 0 ∧
        failed.machine.heap.bindings scope = (last.heap.bindings scope).setAll
          (program.makes options.verbosity depth scope last) ∧
        ∀ binding ∈ program.makes options.verbosity depth scope last,
          Point.Binds options.verbosity scope binding
            (.statements depth scope program.statements, last)) ∧
    ∀ line,
      let own := last.heap.runSource options.verbosity depth scope line
      turn options depth last scope line = .ofRun depth last.trace own ∧
        ((∃ succeeded, (turn options depth last scope line).ending = .ok succeeded) ↔
          own.Shown depth) := by
  obtain ⟨hsize, hlast⟩ := hbefore.confined hmode hcalls
  refine ⟨fun line diagnostics hline hdiagnostics after => ?_,
    fun line program hline hprogram hfails => ?_, fun line => ?_⟩
  · have hturn : turn options depth last scope line =
        ⟨last, [.err (diagnosticBlock diagnostics)], .ok false⟩ := by
      rw [turn_eq hmode, hdiagnostics]
    have hsession := (hbefore.concat hline (congrArg Turn.ending hturn)).interact_append after
    rw [List.append_assoc, List.append_assoc, hturn] at hsession
    intro plain session rest
    have hplain : plain = _ := hbefore.interact_append after
    have hsession : session = _ := hsession
    rw [hplain, hsession]
    exact ⟨rfl, rfl, rfl, rfl⟩
  · intro failed
    have hfailed : failed = evaluate options depth last scope program := by
      unfold failed
      rw [turn_eq hmode, hprogram]
    obtain ⟨hends, hmachine⟩ := evaluate_of_fails hfails
    rw [← hfailed] at hends hmachine
    refine ⟨hbefore.concat hline hends, hends, (confined_turn hmode hlast line).2, ?_,
      fun _ => Program.binds_of_mem_makes⟩
    rw [hmachine]
    exact Machine.bindings_run (Nat.lt_of_lt_of_le hscope hsize) program
  · refine ⟨turn_eq_ofRun hmode hlast line, ?_⟩
    rw [turn_eq_ofRun hmode hlast]
    exact Turn.exists_ending_iff

/-- A closing parenthesis is refused for the expression that is missing before it. -/
theorem ofSource_parenthesis :
    Program.ofSource 3 ")" = .error (.rejected [.noOperand .rparen]) := by
  have hscan : Token.scan ")" = [⟨.rparen, ")"⟩] := by
    refine Token.tokensOf_eq_cons rfl ?_
    exact Token.tokensOf_nil
  rw [Program.ofSource, hscan]
  rfl

/-- A closing parenthesis, and a line that binds a name before it fails, behind a line that binds
another one. -/
theorem interact_isolates_parenthesis :
    let machine := Machine.ofHeap ⟨#[⟨[], none⟩]⟩
    let bound := turn {} 3 machine 0 "let a = 1"
    let failed := turn {} 3 bound.machine 0 "let b = a; c"
    Survives {} 3 0 machine ["let a = 1"] [.out ">> "] bound.machine ∧
      (interact {} 3 machine 0 ["let a = 1", ")"]).written =
        [.out ">> ", .out ">> ",
          .err "parser errors:\n\tno prefix parse function for ) found\n", .out ">> ", .out "\n"] ∧
      failed.ending = .ok false ∧
      failed.machine.heap.bindings 0 = [("a", .int 1), ("b", .int 1)] := by
  intro machine bound failed
  have hfirst : Token.scan "let a = 1" =
      [⟨.letKw, "let"⟩, ⟨.ident, "a"⟩, ⟨.assign, "="⟩, ⟨.int, "1"⟩] := by
    iterate 4 refine Token.tokensOf_eq_cons rfl ?_
    exact Token.tokensOf_nil
  have hfailing : Token.scan "let b = a; c" = [⟨.letKw, "let"⟩, ⟨.ident, "b"⟩, ⟨.assign, "="⟩,
      ⟨.ident, "a"⟩, ⟨.semicolon, ";"⟩, ⟨.ident, "c"⟩] := by
    iterate 6 refine Token.tokensOf_eq_cons rfl ?_
    exact Token.tokensOf_nil
  have hone : Program.ofSource 3 "let a = 1" =
      .ok ⟨[.define ⟨.letKw, "let"⟩ ⟨⟨.ident, "a"⟩, "a"⟩ (.int ⟨.int, "1"⟩ 1)]⟩ := by
    rw [Program.ofSource, hfirst]
    rfl
  have hturn : bound = ⟨machine.set 0 "a" (.int 1), [], .ok true⟩ := by
    unfold bound
    rw [turn_eq rfl, hone]
    rfl
  have hfails : Program.ofSource 3 "let b = a; c" =
      .ok ⟨[.define ⟨.letKw, "let"⟩ ⟨⟨.ident, "b"⟩, "b"⟩ (.ident ⟨⟨.ident, "a"⟩, "a"⟩),
        .bare ⟨.ident, "c"⟩ (.ident ⟨⟨.ident, "c"⟩, "c"⟩)]⟩ := by
    rw [Program.ofSource, hfailing]
    rfl
  have hsurvives : Survives {} 3 0 machine ["let a = 1"] [.out ">> "] bound.machine := by
    have hcons : Survives {} 3 0 machine ["let a = 1"] (.out ">> " :: (bound.written ++ []))
        bound.machine := .cons (by decide) (congrArg Turn.ending hturn) (.nil _)
    rw [hturn] at hcons ⊢
    exact hcons
  obtain ⟨hinsert, hfailed, -⟩ := interact_isolates rfl rfl Nat.one_pos hsurvives
  obtain ⟨-, -, -, hwritten⟩ := hinsert ")" _ (by decide) ofSource_parenthesis []
  obtain ⟨-, hends, -, hbindings, -⟩ := hfailed "let b = a; c" _ (by decide) hfails (by
    rw [hturn]
    exact .inr ⟨_, rfl⟩)
  refine ⟨hsurvives, ?_, hends, ?_⟩
  · exact hwritten.trans rfl
  · refine hbindings.trans ?_
    rw [hturn]
    rfl

/-- A value that cannot be shown ends a session. Behind such a line, another line with diagnostics
is not reported, and neither is the value of any other line. -/
theorem interact_not_isolates_unshowable :
    let machine := Machine.ofHeap ⟨#[⟨[], none⟩]⟩
    let plain := interact {} 3 machine 0 ["fn()\x7b1+1\x7d"]
    let session := interact {} 3 machine 0 ["fn()\x7b1+1\x7d", ")"]
    let later := turn {} 3 plain.machine 0 "true"
    Program.ofSource 3 ")" = .error (.rejected [.noOperand .rparen]) ∧
      (∀ front back, plain.written = front ++ back → session.written ≠
        front ++ .out ">> " :: .err (diagnosticBlock [.noOperand .rparen]) :: back) ∧
      later.written = [.out "true\n"] ∧
      (interact {} 3 machine 0 ["fn()\x7b1+1\x7d", "true"]).written = plain.written := by
  intro machine plain session later
  have hfunction : Token.scan "fn()\x7b1+1\x7d" = [⟨.fnKw, "fn"⟩, ⟨.lparen, "("⟩, ⟨.rparen, ")"⟩,
      ⟨.lbrace, "\x7b"⟩, ⟨.int, "1"⟩, ⟨.plus, "+"⟩, ⟨.int, "1"⟩, ⟨.rbrace, "\x7d"⟩] := by
    iterate 8 refine Token.tokensOf_eq_cons rfl ?_
    exact Token.tokensOf_nil
  have htrue : Token.scan "true" = [⟨.trueKw, "true"⟩] := by
    refine Token.tokensOf_eq_cons rfl ?_
    exact Token.tokensOf_nil
  have hturn : turn {} 3 machine 0 "fn()\x7b1+1\x7d" = ⟨machine, [], .error .unshowable⟩ := by
    unfold turn
    rw [hfunction]
    rfl
  have hends : ∀ rest, interact {} 3 machine 0 ("fn()\x7b1+1\x7d" :: rest) =
      ⟨machine, [.out ">> "], .error .unshowable⟩ := by
    intro rest
    rw [interact, hturn]
    rfl
  have hplain : plain = _ := hends []
  have hsession : session = _ := hends [")"]
  refine ⟨ofSource_parenthesis, fun front back hsplit heq => ?_, ?_, ?_⟩
  · rw [hplain] at hsplit
    rw [hsession] at heq
    have hlength := congrArg List.length hsplit
    have hmore := congrArg List.length heq
    simp only [List.length_append, List.length_cons, List.length_nil] at hlength hmore
    omega
  · have hlater : later = ⟨machine, [.out "true\n"], .ok true⟩ := by
      unfold later turn
      rw [hplain, htrue]
      rfl
    rw [hlater]
  · rw [hplain, hends]

end Console

end Inkwell
