import Inkwell.Proofs.Evaluation.Conduct
import Inkwell.Proofs.Evaluation.Confined
import Inkwell.Proofs.Evaluation.Renumber

/-!
# What the verbosity changes

A run records more at a higher verbosity, and nothing else changes: of two runs of the same program
the quieter one ends whenever the louder one does, with the same value and the same heap, and its
trace consists of those events of the louder one that have a low enough rank. The converse fails
where the depth is just enough to evaluate and not enough to show a value.

From the third level on there are no further messages, and at the levels up to zero there are none
at all; this holds of runs that exceed their depth too.
-/

namespace Inkwell

open EvalM

/-- Whether an event is recorded at a verbosity. -/
def Event.heard (verbosity : Int) (event : Event) : Bool := (event.message.rank : Int) ≤ verbosity

/-- Whether a message tells which way a choice went. -/
def Message.tests : Message → Bool
  | tested _ _ _ => true
  | called _ _ => false
  | returned _ => false
  | bound _ _ => false
  | raised _ => false

/-- Calls are heard first. -/
theorem Event.heard_one (event : Event) : event.heard 1 = event.message.marksCall := by
  unfold Event.heard
  cases event.message <;> rfl

/-- Choices are heard last. -/
theorem Event.heard_two (event : Event) : event.heard 2 = !event.message.tests := by
  unfold Event.heard
  cases event.message <;> rfl

/-- A machine that differs from another one in that, behind some start of the trace, it has recorded
only the events of a verbosity. -/
structure Machine.Quieter (verbosity : Int) (start : Array Event) (machine other : Machine) :
    Prop where
  heap : other.heap = machine.heap
  openCalls : other.openCalls = machine.openCalls
  trace : ∃ events, machine.trace = start ++ events ∧
    other.trace = start ++ events.filter (Event.heard verbosity)

section Quieter

variable {loud quiet : Int} {start : Array Event} {machine other : Machine}

/-- A machine that has just started has recorded nothing on either side. -/
theorem Machine.Quieter.refl (machine : Machine) :
    machine.Quieter quiet machine.trace machine where
  heap := rfl
  openCalls := rfl
  trace := ⟨#[], by simp, by simp⟩

/-- The louder machine records every message that the quieter one does. -/
theorem Machine.Quieter.note (h : machine.Quieter quiet start other) (hle : quiet ≤ loud)
    (message : Message) :
    (machine.note loud message).Quieter quiet start (other.note quiet message) where
  heap := by simp [h.heap]
  openCalls := by simp [h.openCalls]
  trace := by
    obtain ⟨events, htrace, htrace'⟩ := h.trace
    have hevent : (⟨other.openCalls, message⟩ : Event) = ⟨machine.openCalls, message⟩ := by
      rw [h.openCalls]
    by_cases hquiet : (message.rank : Int) ≤ quiet
    · have hloud : (message.rank : Int) ≤ loud := Int.le_trans hquiet hle
      refine ⟨events.push ⟨machine.openCalls, message⟩, ?_, ?_⟩
      · simp [Machine.note, hloud, Machine.record, htrace]
      · simp [Machine.note, hquiet, Machine.record, htrace', hevent, Event.heard]
    · by_cases hloud : (message.rank : Int) ≤ loud
      · refine ⟨events.push ⟨machine.openCalls, message⟩, ?_, ?_⟩
        · simp [Machine.note, hloud, Machine.record, htrace]
        · simp [Machine.note, hquiet, htrace', Event.heard]
      · refine ⟨events, ?_, ?_⟩
        · simp [Machine.note, hloud, htrace]
        · simp [Machine.note, hquiet, htrace']

/-- The same run at a lower verbosity. -/
def Coupling.quieten (hle : quiet ≤ loud) (start : Array Event) : Coupling where
  loud := loud
  quiet := quiet
  quiet_le := hle
  depth := Eq
  depth_succ := @Coupling.depth_succ_of_eq
  World := Unit
  later _ _ := True
  later_refl _ := trivial
  later_trans _ _ := trivial
  Mode := Unit
  name _ := Eq
  expr _ := Eq
  block _ := Eq
  stmt _ := Eq
  expr_shape := @Expr.Shape.of_eq Unit
  block_shape := @Block.Shape.of_eq Unit
  stmt_shape := @Stmt.Shape.of_eq Unit
  value _ := Eq
  value_later _ h := h
  value_alike {w v v'} h := by
    subst h
    have halike := v.alike_renumber id
    rwa [Value.renumber_id] at halike
  value_self _ _ := rfl
  value_returned := ⟨fun h => Value.returned.inj h, congrArg Value.returned⟩
  scope _ _ := Eq
  scope_later _ h := h
  fn hs h := by
    cases h
    rw [hs]
  machine _ := Machine.Quieter quiet start
  machine_enter h := ⟨h.heap, congrArg (· + 1) h.openCalls, h.trace⟩
  machine_leave h := ⟨h.heap, congrArg (· - 1) h.openCalls, h.trace⟩
  machine_get {w m n mode s t x y d e found} hm hs hx hd hget := by
    subst hs hx hd
    refine ⟨found, ?_, ?_, fun _ => rfl⟩
    · rw [hm.heap, hget]
    · cases found with
      | none => exact .none
      | some => exact .some rfl
  machine_set {w m n mode s t x y a b} hm hs hx hv := by
    subst hs hx hv
    have hheap : n.heap.set s x a = m.heap.set s x a := by rw [hm.heap]
    exact ⟨hheap, hm.openCalls, hm.trace⟩
  machine_call {w m n ps qs b c s t as bs} hm hv ha := by
    cases hv
    have harguments : as = bs := by rwa [List.forall₂_eq_eq_eq] at ha
    subst harguments
    have hheap : (n.heap.allocate ⟨argumentBindings ps as, some s⟩).2 =
        (m.heap.allocate ⟨argumentBindings ps as, some s⟩).2 := by rw [hm.heap]
    exact ⟨(), (), trivial, ⟨hheap, hm.openCalls, hm.trace⟩, by rw [hm.heap], rfl⟩
  text := Eq
  name_text h := h
  parameters_text h := by
    cases h
    rw [List.forall₂_eq_eq_eq]
  value_text h hd hfit := by
    subst h hd
    exact ⟨hfit, rfl⟩
  expr_text h hd hfit := by
    subst h hd
    exact ⟨hfit, rfl⟩
  machine_note {w m n a b} hm h := by
    have hsame : a = b := h.eq
    subst hsame
    exact hm.note hle a

end Quieter

variable {depth : Nat} {machine : Machine} {scope : ScopeId} {program : Program}

/-- A run that ends within its depth does the same at a lower verbosity, where it only leaves out
events. -/
theorem Machine.run_quieter {loud quiet : Int} {result : Option Value} (hle : quiet ≤ loud)
    (hrun : (machine.run loud depth scope program).outcome = .ok result) :
    (machine.run quiet depth scope program).outcome = .ok result ∧
      (machine.run loud depth scope program).machine.Quieter quiet machine.trace
        (machine.run quiet depth scope program).machine := by
  let C := Coupling.quieten hle machine.trace
  have hfollows : C.Follows () (program.eval loud depth scope) (program.eval quiet depth scope)
      C.result :=
    @C.program_follows () () scope scope depth depth rfl program program rfl
      (List.forall₂_same.mpr fun _ _ => rfl)
  unfold Machine.run at hrun ⊢
  cases heval : (program.eval loud depth scope).run machine with
  | error =>
    rw [heval] at hrun
    cases hrun
  | ok value after =>
    rw [heval] at hrun
    cases hrun
    obtain ⟨_, value', last, hlast, -, hquieter, hvalue⟩ :=
      hfollows _ _ (.refl machine) _ _ heval
    have hsame : value' = result := by
      cases hvalue with
      | none => rfl
      | some h => rw [h]
    rw [hlast, hsame]
    exact ⟨rfl, hquieter⟩

section Congruence

variable {first second : Int} {eval : Evaluator}

/-- A fault is raised alike at levels that agree about errors. -/
theorem EvalM.raise_congr (h₂ : 2 ≤ first ↔ 2 ≤ second) :
    raise first = raise second := by
  funext fault
  simp only [raise, h₂]

theorem EvalM.settle_congr (h₂ : 2 ≤ first ↔ 2 ≤ second) :
    settle first = settle second := by
  funext result
  cases result with
  | ok => rfl
  | error => simp only [settle, EvalM.raise_congr h₂]

mutual

/-- A statement is evaluated alike at such levels. -/
theorem Stmt.eval_congr (h₂ : 2 ≤ first ↔ 2 ≤ second) : ∀ a : Stmt,
    a.eval first depth eval scope = a.eval second depth eval scope
  | .bare _ _ => by simp only [Stmt.eval]
  | .define _ _ _ => by simp only [Stmt.eval, h₂]
  | .ret _ none => by simp only [Stmt.eval]
  | .ret _ (some _) => by simp only [Stmt.eval]
  | .block inner => by simp only [Stmt.eval, Block.eval_congr h₂ inner]

theorem Block.eval_congr (h₂ : 2 ≤ first ↔ 2 ≤ second) : ∀ b : Block,
    b.eval first depth eval scope = b.eval second depth eval scope
  | .mk _ ss => by simp only [Block.eval, Stmt.evalAll_congr h₂ ss]

theorem Stmt.evalAll_congr (h₂ : 2 ≤ first ↔ 2 ≤ second) : ∀ (ss : List Stmt) {last : Option Value},
    Stmt.evalAll first depth eval scope last ss = Stmt.evalAll second depth eval scope last ss
  | [], _ => by simp only [Stmt.evalAll]
  | a :: ss, _ => by
    simp only [Stmt.evalAll, Stmt.eval_congr h₂ a, Stmt.evalAll_congr h₂ ss]

end

/-- A call goes alike at levels that agree about calls as well. -/
theorem Value.call_congr (h₁ : 1 ≤ first ↔ 1 ≤ second) (h₂ : 2 ≤ first ↔ 2 ≤ second)
    (callee : Value) (arguments : List Value) :
    callee.call first depth eval arguments = callee.call second depth eval arguments := by
  cases callee with
  | fn => simp only [Value.call, h₁, Block.eval_congr h₂]
  | int | bool | null | error | returned => simp only [Value.call, EvalM.raise_congr h₂]

/-- Only the three levels at which messages are recorded make a difference. -/
theorem Expr.eval_congr (h₁ : 1 ≤ first ↔ 1 ≤ second) (h₂ : 2 ≤ first ↔ 2 ≤ second)
    (h₃ : 3 ≤ first ↔ 3 ≤ second) (depth : Nat) :
    Expr.eval first depth = Expr.eval second depth := by
  induction depth with
  | zero =>
    funext scope e
    simp only [Expr.eval]
  | succ depth ih =>
    funext scope e
    cases e with
    | int | bool | fn => simp only [Expr.eval]
    | ident => simp only [Expr.eval, EvalM.raise_congr h₂]
    | unary => simp only [Expr.eval, ih, EvalM.settle_congr h₂]
    | binary => simp only [Expr.eval, ih, EvalM.settle_congr h₂]
    | cond _ _ _ alternative =>
      cases alternative <;> simp only [Expr.eval, ih, h₃, Block.eval_congr h₂]
    | call => simp only [Expr.eval, ih, Value.call_congr h₁ h₂]

/-- A run goes alike at levels that agree about all the events. -/
theorem Machine.run_congr (h₁ : 1 ≤ first ↔ 1 ≤ second) (h₂ : 2 ≤ first ↔ 2 ≤ second)
    (h₃ : 3 ≤ first ↔ 3 ≤ second) :
    machine.run first depth scope program = machine.run second depth scope program := by
  simp only [Machine.run, Program.eval, Expr.eval_congr h₁ h₂ h₃, Stmt.evalAll_congr h₂]

end Congruence

/-- Behind a machine only events of a verbosity were recorded. -/
def Machine.Heard (verbosity : Int) (before after : Machine) : Prop :=
  ∃ events, after.trace = before.trace ++ events ∧ ∀ e ∈ events, e.heard verbosity = true

namespace Machine.Heard

variable {verbosity : Int} {m n last : Machine}

/-- Nothing new is heard if the trace is the same. -/
theorem of_trace_eq (h : n.trace = m.trace) : m.Heard verbosity n :=
  ⟨#[], by simp [h], by simp⟩

/-- What is heard in two runs is what is heard in one after the other. -/
theorem trans (first : m.Heard verbosity n) (second : n.Heard verbosity last) :
    m.Heard verbosity last := by
  obtain ⟨events, htrace, hheard⟩ := first
  obtain ⟨more, htrace', hheard'⟩ := second
  refine ⟨events ++ more, by simp [htrace, htrace'], fun e he => ?_⟩
  rcases Array.mem_append.mp he with he | he
  · exact hheard e he
  · exact hheard' e he

/-- An error is heard at a level that asks for it. -/
theorem note (m : Machine) (message : Message) : m.Heard verbosity (m.note verbosity message) := by
  by_cases h : (message.rank : Int) ≤ verbosity
  · refine ⟨#[⟨m.openCalls, message⟩], ?_, ?_⟩
    · simp [Machine.note, h, Machine.record]
    · simp [Event.heard, h]
  · exact .of_trace_eq (by simp [Machine.note, h])

theorem opened {parameters : List String} {arguments : List Value} {outer : ScopeId} :
    m.Heard verbosity (m.opened verbosity parameters arguments outer) := by
  let allocated : Machine := { m with
    heap := (m.heap.allocate ⟨argumentBindings parameters arguments, some outer⟩).2 }
  have hnote : allocated.Heard verbosity
      (allocated.note verbosity (.called parameters (arguments.map Value.text))) := note _ _
  exact hnote

theorem closed (v : Value) : m.Heard verbosity (m.closed verbosity v) :=
  note m.leave (.returned v.text)

end Machine.Heard

/-- A run records only events of its verbosity, whichever way it ends. -/
def Conduct.heard (verbosity : Int) : Conduct where
  verbosity := verbosity
  World := Unit
  later _ _ := True
  later_refl _ := trivial
  later_trans _ _ := trivial
  literal _ := True
  value _ _ := True
  value_later _ _ := trivial
  value_plain _ _ := trivial
  value_unwrap _ := trivial
  scope _ _ _ := True
  scope_later _ _ := trivial
  fn _ _ := trivial
  heap _ _ := True
  heap_get _ _ _ := trivial
  heap_set _ _ _ := trivial
  heap_call _ _ _ := ⟨(), 0, trivial, trivial, trivial, fun _ _ => trivial⟩
  course _ := Machine.Heard verbosity
  course_refl _ := .of_trace_eq rfl
  course_trans := .trans
  course_set := .of_trace_eq rfl
  course_note _ := .note _ _
  course_call _ _ h := (Machine.Heard.opened.trans h).trans (.closed _)
  halt := Machine.Heard verbosity
  halt_refl _ := .of_trace_eq rfl
  halt_allocate := .of_trace_eq rfl
  halt_trans := .trans
  halt_call h := (Machine.Heard.opened.trans h).trans (.of_trace_eq rfl)

/-- In a whole run nothing is heard that its level does not ask for. -/
theorem Machine.run_heard (verbosity : Int) :
    machine.Heard verbosity (machine.run verbosity depth scope program).machine := by
  have hscope : (Conduct.heard verbosity).scope () 0 scope := trivial
  have hobeys : (Conduct.heard verbosity).Obeys () (program.eval verbosity depth scope)
      (Conduct.heard verbosity).Result := Conduct.program_obeys hscope fun _ _ => trivial
  rw [Machine.run_machine, EvalM.leaves]
  cases hr : (program.eval verbosity depth scope).run machine with
  | error e after => exact (hobeys.of_error trivial hr).2
  | ok result after =>
    obtain ⟨_, _, -, -, -, hheard⟩ := hobeys.of_ok trivial hr
    exact hheard

/-- Every message has a rank of at least one. -/
theorem Machine.Heard.trace_eq {verbosity : Int} {m n : Machine} (h : m.Heard verbosity n)
    (hv : verbosity ≤ 0) : n.trace = m.trace := by
  obtain ⟨events, htrace, hheard⟩ := h
  have hempty : events = #[] := by
    refine Array.eq_empty_iff_forall_not_mem.mpr fun e he => ?_
    have hrank : (e.message.rank : Int) ≤ verbosity := by simpa [Event.heard] using hheard e he
    have hpos : 1 ≤ e.message.rank := by cases e.message <;> simp [Message.rank]
    omega
  rw [htrace, hempty, Array.append_empty]

/-- Runs of one program at two verbosities that both end within their depth have the same value and
the same heap. At the levels up to zero nothing is recorded. If a run ends, then so does every
quieter one, and its trace has those events of the louder one that are of its verbosity, in the same
order: the first level has the calls with their results out of what the third one has, and the
second level everything but the choices. Above the third level nothing changes. -/
theorem Machine.run_verbosity (machine : Machine) (depth : Nat) (scope : ScopeId)
    (program : Program) :
    let run := fun verbosity : Int => machine.run verbosity depth scope program
    (∀ {first second : Int} {result result' : Option Value},
      (run first).outcome = .ok result → (run second).outcome = .ok result' →
      result = result' ∧ (run first).machine.heap = (run second).machine.heap) ∧
    (∀ {verbosity : Int}, verbosity ≤ 0 → (run verbosity).machine.trace = machine.trace) ∧
    (∀ {quiet loud : Int} {result : Option Value}, quiet ≤ loud →
      (run loud).outcome = .ok result →
      (run quiet).outcome = .ok result ∧
      ∃ events, (run loud).machine.trace = machine.trace ++ events ∧
        (run quiet).machine.trace = machine.trace ++ events.filter (Event.heard quiet)) ∧
    (∀ {result : Option Value}, (run 3).outcome = .ok result →
      ∃ events, (run 3).machine.trace = machine.trace ++ events ∧
        (run 2).machine.trace = machine.trace ++ events.filter (fun e => !e.message.tests) ∧
        (run 1).machine.trace = machine.trace ++ events.filter (fun e => e.message.marksCall)) ∧
    ∀ {verbosity : Int}, 3 ≤ verbosity → run verbosity = run 3 := by
  intro run
  have hquieter : ∀ {quiet loud : Int} {result : Option Value}, quiet ≤ loud →
      (run loud).outcome = .ok result → (run quiet).outcome = .ok result ∧
        (run loud).machine.Quieter quiet machine.trace (run quiet).machine :=
    fun hle hloud => Machine.run_quieter hle hloud
  refine ⟨fun {first second result result'} hfirst hsecond => ?_,
    fun hv => (Machine.run_heard _).trace_eq hv, fun hle hloud => ?_, fun hthree => ?_,
    fun hv => Machine.run_congr (by omega) (by omega) (by omega)⟩
  · rcases Int.le_total first second with hle | hle
    · obtain ⟨houtcome, hsame⟩ := hquieter hle hsecond
      rw [hfirst] at houtcome
      exact ⟨Except.ok.inj houtcome, hsame.heap⟩
    · obtain ⟨houtcome, hsame⟩ := hquieter hle hfirst
      rw [hsecond] at houtcome
      exact ⟨(Except.ok.inj houtcome).symm, hsame.heap.symm⟩
  · obtain ⟨houtcome, hsame⟩ := hquieter hle hloud
    exact ⟨houtcome, hsame.trace⟩
  · obtain ⟨-, hsecond⟩ := hquieter (by decide : (2 : Int) ≤ 3) hthree
    obtain ⟨-, hfirst⟩ := hquieter (by decide : (1 : Int) ≤ 3) hthree
    obtain ⟨events, htrace, htwo⟩ := hsecond.trace
    obtain ⟨events', htrace', hone⟩ := hfirst.trace
    have hevents : events' = events := Array.append_right_inj machine.trace |>.mp
      (htrace'.symm.trans htrace)
    rw [funext Event.heard_two] at htwo
    rw [hevents, funext Event.heard_one] at hone
    exact ⟨events, htrace, htwo, hone⟩

/-- The call of a function that is bound first and makes a choice. -/
theorem Machine.run_verbosity_choice :
    let x : Ident := ⟨⟨.ident, "x"⟩, "x"⟩
    let f : Ident := ⟨⟨.ident, "f"⟩, "f"⟩
    let choice := Expr.cond ⟨.ifKw, "if"⟩ (.ident x)
      (.mk ⟨.lbrace, "\x7b"⟩ [.bare ⟨.ident, "x"⟩ (.ident x)]) none
    let program : Program := ⟨[
      .define ⟨.letKw, "let"⟩ f (.fn ⟨.fnKw, "fn"⟩ [x]
        (.mk ⟨.lbrace, "\x7b"⟩ [.bare ⟨.ifKw, "if"⟩ choice])),
      .bare ⟨.ident, "f"⟩ (.call ⟨.lparen, "("⟩ (.ident f) [.int ⟨.int, "1"⟩ 1])]⟩
    let run := fun verbosity : Int => (Machine.ofHeap (∅ : Heap).fresh.2).run verbosity 9 0 program
    (run 1).machine.heap = (run 3).machine.heap ∧
      (run (-5)).machine.trace = #[] ∧
      (run 2).outcome = (run 3).outcome ∧
      (∃ events, (run 3).machine.trace = #[] ++ events ∧
        (run 2).machine.trace = #[] ++ events.filter (fun e => !e.message.tests) ∧
        (run 1).machine.trace = #[] ++ events.filter (fun e => e.message.marksCall)) ∧
      run 7 = run 3 := by
  intro x f choice program run
  have hall := Machine.run_verbosity (.ofHeap (∅ : Heap).fresh.2) 9 0 program
  have hone : (run 1).outcome = .ok (some (.int 1)) := by decide
  have hthree : (run 3).outcome = .ok (some (.int 1)) := by decide
  refine ⟨(hall.1 hone hthree).2, hall.2.1 (by decide), ?_, hall.2.2.2.1 hthree,
    hall.2.2.2.2 (by decide)⟩
  exact (hall.2.2.1 (by decide) hthree).1.trans hthree.symm

end Inkwell
