import Inkwell.Proofs.Evaluation.Conduct
import Inkwell.Proofs.Evaluation.Confined
import Inkwell.Proofs.Evaluation.Exceptions

/-!
# The trace as a record of calls

From the second level on, the trace of a run that ends within its depth is a record of its calls: a
call and its result enclose what its body records, one step further in, and the result is the one
that the call has. Where nothing interrupting is bound, an error can arise only once in a run. It is
then the value of the program, and nothing is recorded after it but the results of the calls that
are still open.
-/

namespace Inkwell

open EvalM

/-- Events that match like brackets, with a number of calls open around them: what stands between a
call and its result is one step further in. -/
inductive Event.Nested : Nat → List Event → Prop
  | nil {around : Nat} : Nested around []
  | message {around : Nat} {message : Message} {events : List Event} :
    message.marksCall = false → Nested around events → Nested around (⟨around, message⟩ :: events)
  | call {around : Nat} {parameters arguments : List String} {result : String}
    {inside events : List Event} : Nested (around + 1) inside → Nested around events →
    Nested around (⟨around, .called parameters arguments⟩ ::
      (inside ++ ⟨around, .returned result⟩ :: events))

/-- The results of the calls that an error ends, innermost first: a number of calls, inside
others. -/
def Event.unwinding (message : String) (around : Nat) : (calls : Nat) → List Event
  | 0 => []
  | calls + 1 =>
    ⟨around + calls, .returned (Value.error message).text⟩ :: unwinding message around calls

/-- Whether an event tells that an error arises. -/
def Event.isError (event : Event) : Prop := event.message.error? ≠ none

/-- Events without an error, or with one behind which there are only the results of the calls that
it ends. -/
def Event.Fatal (around : Nat) (events : List Event) : Option String → Prop
  | none => ∀ e ∈ events, ¬ e.isError
  | some message => ∃ before calls, (∀ e ∈ before, ¬ Event.isError e) ∧
    events = before ++ ⟨around + calls, .raised message⟩ :: unwinding message around calls

namespace Event

variable {around calls indent : Nat} {events inside before rest : List Event}
  {error : Option String} {message : String}

/-- The outermost of the calls that an error ends has its result last. -/
theorem unwinding_succ (message : String) (around calls : Nat) :
    unwinding message around (calls + 1) = unwinding message (around + 1) calls ++
      [⟨around, .returned (Value.error message).text⟩] := by
  induction calls with
  | zero => rfl
  | succ calls ih =>
    have hindent : around + (calls + 1) = around + 1 + calls := by omega
    rw [unwinding, ih, unwinding, List.cons_append, hindent]

/-- The events of calls that are left are no errors. -/
theorem not_isError_of_mem_unwinding {e : Event} (he : e ∈ unwinding message around calls) :
    ¬ e.isError := by
  induction calls with
  | zero => cases he
  | succ calls ih =>
    rcases List.mem_cons.mp he with rfl | he
    · exact fun h => h rfl
    · exact ih he

namespace Fatal

/-- Events without an error in front change nothing. -/
theorem append (first : Fatal around before none) (second : Fatal around events error) :
    Fatal around (before ++ events) error := by
  cases error with
  | none =>
    intro e he
    rcases List.mem_append.mp he with he | he
    · exact first e he
    · exact second e he
  | some message =>
    obtain ⟨quiet, calls, hquiet, rfl⟩ := second
    refine ⟨before ++ quiet, calls, fun e he => ?_, (List.append_assoc ..).symm⟩
    rcases List.mem_append.mp he with he | he
    · exact first e he
    · exact hquiet e he

/-- A call that ends with the error that arose inside it is one more that the error ends. -/
theorem call {parameters arguments : List String} {result : String}
    (h : Fatal (around + 1) inside error)
    (hresult : ∀ message ∈ error, result = (Value.error message).text) :
    Fatal around (⟨around, .called parameters arguments⟩ ::
      (inside ++ [⟨around, .returned result⟩])) error := by
  have hcalled : ¬ Event.isError ⟨around, .called parameters arguments⟩ := fun h => h rfl
  cases error with
  | none =>
    intro e he
    rcases List.mem_cons.mp he with rfl | he
    · exact hcalled
    · rcases List.mem_append.mp he with he | he
      · exact h e he
      · obtain rfl := List.mem_singleton.mp he
        exact fun h => h rfl
  | some message =>
    obtain ⟨quiet, calls, hquiet, rfl⟩ := h
    have hindent : around + 1 + calls = around + (calls + 1) := by omega
    refine ⟨⟨around, .called parameters arguments⟩ :: quiet, calls + 1, fun e he => ?_, ?_⟩
    · rcases List.mem_cons.mp he with rfl | he
      · exact hcalled
      · exact hquiet e he
    · rw [hresult message rfl, unwinding_succ, hindent, List.append_assoc, List.cons_append,
        List.cons_append]

/-- The only error is the one that arose. -/
theorem raised_iff (h : Fatal around events error) :
    (∃ indent, ⟨indent, .raised message⟩ ∈ events) ↔ error = some message := by
  cases error with
  | none =>
    refine ⟨fun ⟨indent, hmem⟩ => ?_, nofun⟩
    exact absurd nofun (h _ hmem)
  | some arisen =>
    obtain ⟨before, calls, hquiet, rfl⟩ := h
    constructor
    · rintro ⟨indent, hmem⟩
      rcases List.mem_append.mp hmem with hmem | hmem
      · exact absurd nofun (hquiet _ hmem)
      · rcases List.mem_cons.mp hmem with heq | hmem
        · cases heq
          rfl
        · exact absurd nofun (not_isError_of_mem_unwinding hmem)
    · rintro ⟨⟩
      exact ⟨around + calls, List.mem_append_right before (List.mem_cons_self ..)⟩

/-- Wherever an error stands, there is none in front of it and only the results of the calls that it
ends behind it. -/
theorem split (h : Fatal around events error)
    (hsplit : events = before ++ ⟨indent, .raised message⟩ :: rest) :
    (∀ e ∈ before, ¬ Event.isError e) ∧
      ∃ calls, indent = around + calls ∧ rest = unwinding message around calls := by
  have herror : Event.isError ⟨indent, .raised message⟩ := nofun
  cases error with
  | none =>
    refine absurd herror (h _ ?_)
    rw [hsplit]
    exact List.mem_append_right before (List.mem_cons_self ..)
  | some arisen =>
    obtain ⟨quiet, calls, hquiet, heq⟩ := h
    rw [heq] at hsplit
    have hparts := (List.append_cons_inj_of_notMem (fun hmem => hquiet _ hmem herror)
      fun hmem => not_isError_of_mem_unwinding hmem herror).mp hsplit
    obtain ⟨rfl, hevent, rfl⟩ := hparts
    cases hevent
    exact ⟨hquiet, calls, rfl, rfl⟩

end Fatal

end Event

/-- What steps between two machines record: they bind names, record messages, and call functions. A
call records its arguments and what it gives, and in between there is what its body records. -/
inductive Recorded (verbosity : Int) : Machine → List Event → Machine → Prop
  | nil {m : Machine} : Recorded verbosity m [] m
  | set {m last : Machine} {scope : ScopeId} {name : String} {v : Value} {events : List Event} :
    Recorded verbosity (m.set scope name v) events last → Recorded verbosity m events last
  | message {m last : Machine} {message : Message} {events : List Event} :
    message.marksCall = false → Recorded verbosity (m.record message) events last →
    Recorded verbosity m (⟨m.openCalls, message⟩ :: events) last
  | call {m left last : Machine} {parameters : List String} {body : Block} {outer : ScopeId}
    {arguments : List Value} {depth : Nat} {v : Value} {inside events : List Event} :
    ((Value.fn parameters body outer).call verbosity depth (Expr.eval verbosity depth)
      arguments).run m = .ok v (left.closed verbosity v) →
    Recorded verbosity (m.opened verbosity parameters arguments outer) inside left →
    Recorded verbosity (left.closed verbosity v) events last →
    Recorded verbosity m (⟨m.openCalls, .called parameters (arguments.map Value.text)⟩ ::
      (inside ++ ⟨m.openCalls, .returned v.text⟩ :: events)) last

/-- Opening a call counts it. -/
@[simp]
theorem Machine.openCalls_opened (verbosity : Int) (m : Machine) (parameters : List String)
    (arguments : List Value) (outer : ScopeId) :
    (m.opened verbosity parameters arguments outer).openCalls = m.openCalls + 1 := by
  simp [Machine.opened, Machine.enter]

/-- Closing a call takes it off the count. -/
@[simp]
theorem Machine.openCalls_closed (verbosity : Int) (m : Machine) (v : Value) :
    (m.closed verbosity v).openCalls = m.openCalls - 1 := by
  simp [Machine.closed, Machine.leave]

/-- A call is recorded at the indentation from before it was opened. -/
theorem Machine.trace_opened {verbosity : Int} (h : 1 ≤ verbosity) (m : Machine)
    (parameters : List String) (arguments : List Value) (outer : ScopeId) :
    (m.opened verbosity parameters arguments outer).trace =
      m.trace.push ⟨m.openCalls, .called parameters (arguments.map Value.text)⟩ := by
  have hrank : ((Message.called parameters (arguments.map Value.text)).rank : Int) ≤ verbosity := h
  simp [Machine.opened, Machine.enter, Machine.note, hrank, Machine.record]

/-- The result of a call is recorded at the indentation of the call. -/
theorem Machine.trace_closed {verbosity : Int} (h : 1 ≤ verbosity) (m : Machine) (v : Value) :
    (m.closed verbosity v).trace = m.trace.push ⟨m.openCalls - 1, .returned v.text⟩ := by
  have hrank : ((Message.returned v.text).rank : Int) ≤ verbosity := h
  simp [Machine.closed, Machine.note, hrank, Machine.record, Machine.leave]

namespace Recorded

variable {verbosity : Int} {m n last : Machine} {events more : List Event}

/-- Records are put together as runs are. -/
theorem trans (first : Recorded verbosity m events n) (second : Recorded verbosity n more last) :
    Recorded verbosity m (events ++ more) last := by
  induction first with
  | nil => exact second
  | set _ ih => exact .set (ih second)
  | message hm _ ih => exact .message hm (ih second)
  | call hcall hinside _ _ ih =>
    rw [List.cons_append, List.append_assoc, List.cons_append]
    exact .call hcall hinside (ih second)

/-- Every call that was opened is closed. -/
theorem openCalls_eq (h : Recorded verbosity m events n) : n.openCalls = m.openCalls := by
  induction h with
  | nil => rfl
  | set _ ih => exact ih
  | message _ _ ih => exact ih
  | call _ _ _ hinside hrest =>
    rw [Machine.openCalls_opened] at hinside
    rw [hrest, Machine.openCalls_closed, hinside, Nat.add_sub_cancel]

/-- What is recorded is what the trace gets. -/
theorem trace_eq (h : Recorded verbosity m events n) (hv : 1 ≤ verbosity) :
    n.trace.toList = m.trace.toList ++ events := by
  induction h with
  | nil => rw [List.append_nil]
  | set _ ih => exact ih
  | message _ _ ih => simp [ih, Machine.record]
  | call _ hinside _ hbody hrest =>
    have hleft := hinside.openCalls_eq
    rw [Machine.openCalls_opened] at hleft
    rw [hrest, Machine.trace_closed hv, Array.toList_push, hbody, Machine.trace_opened hv,
      Array.toList_push, hleft, Nat.add_sub_cancel]
    simp

/-- The events of a record are nested. -/
theorem nested (h : Recorded verbosity m events n) : Event.Nested m.openCalls events := by
  induction h with
  | nil => exact .nil
  | set _ ih => exact ih
  | message hm _ ih => exact .message hm ih
  | @call m left last parameters body outer arguments depth v inside events _ hinside _ hbody
      hrest =>
    have hleft := hinside.openCalls_eq
    rw [Machine.openCalls_opened] at hbody hleft
    rw [Machine.openCalls_closed, hleft, Nat.add_sub_cancel] at hrest
    exact .call hbody hrest

end Recorded

/-- A run from the second level on is recorded, and an error that arises is the last of it. -/
def Conduct.recorded (R : Region) (verbosity : Int) (hv : 2 ≤ verbosity) : Conduct where
  verbosity := verbosity
  World := Unit
  later _ _ := True
  later_refl _ := trivial
  later_trans _ _ := trivial
  literal _ := True
  value _ v := v.Good .calmValues R
  value_later _ h := h
  value_plain hk hi := .of_value hi hk
  value_unwrap {w v} h := by
    have hi : v.interrupts = false := h.value
    cases v with
    | returned => cases hi
    | int | bool | null | error | fn => exact h
  scope _ _ s := R.has s
  scope_later _ h := h
  fn hs _ := ⟨rfl, fun heq => by cases heq; exact hs⟩
  heap _ h := h.InOrder .calmValues R
  heap_get h hs hget := h.get? hs hget
  heap_set h _ hv := h.set hv
  heap_call {w h parameters body outer arguments} hm hfn harguments := by
    have hb : (argumentBindings parameters arguments).Good .calmValues R :=
      argumentBindings_good harguments
    have hallocate := hm.allocate (s := ⟨argumentBindings parameters arguments, some outer⟩) hb
      fun heq => Option.some.inj heq ▸ hfn.inside rfl
    exact ⟨(), 0, trivial, hallocate.2, hallocate.1, fun _ _ => trivial⟩
  course error m n := ∃ events, Recorded verbosity m events n ∧
    Event.Fatal m.openCalls events error
  course_refl _ := ⟨[], .nil, nofun⟩
  course_trans first second := by
    obtain ⟨events, hfirst, hquiet⟩ := first
    obtain ⟨more, hsecond, hfatal⟩ := second
    rw [hfirst.openCalls_eq] at hfatal
    exact ⟨events ++ more, hfirst.trans hsecond, hquiet.append hfatal⟩
  course_set := ⟨[], .set .nil, nofun⟩
  course_note {m message} hmarks := by
    by_cases hrank : (message.rank : Int) ≤ verbosity
    · have hnote : m.note verbosity message = m.record message := if_pos hrank
      rw [hnote]
      refine ⟨[⟨m.openCalls, message⟩], .message hmarks .nil, ?_⟩
      cases message with
      | raised text => exact ⟨[], 0, nofun, rfl⟩
      | bound | tested => exact fun e he => List.mem_singleton.mp he ▸ fun h => h rfl
      | called | returned => cases hmarks
    · have hnote : m.note verbosity message = m := if_neg hrank
      rw [hnote]
      cases message with
      | raised => exact absurd hv hrank
      | bound => exact absurd hv hrank
      | tested => exact ⟨[], .nil, nofun⟩
      | called | returned => cases hmarks
  course_call {error parameters body outer arguments depth m left v} hrun hv hinside := by
    obtain ⟨inside, hrecorded, hfatal⟩ := hinside
    rw [Machine.openCalls_opened] at hfatal
    refine ⟨_, .call hrun hrecorded .nil, hfatal.call fun message hmessage => ?_⟩
    rw [hv message hmessage]
  halt _ _ := True
  halt_refl _ := trivial
  halt_allocate := trivial
  halt_trans _ _ := trivial
  halt_call _ := trivial

/-- A result that is an error is one that arose. -/
theorem Conduct.recorded_eq_error_iff {R : Region} {verbosity : Int} {hv : 2 ≤ verbosity}
    {result : Option Value} {error : Option String} {message : String}
    (h : (Conduct.recorded R verbosity hv).Result () result error) :
    result = some (.error message) ↔ error = some message := by
  cases h with
  | none => simp
  | some h =>
    cases h with
    | value h =>
      have hcalm := h.value
      constructor
      · rintro ⟨⟩
        cases hcalm
      · nofun
    | error => simp
    | returned => simp

/-- From the second level on, a run that ends within its depth leaves a record of its calls, whose
brackets match, where nothing interrupting can be found from its scope. A message that tells of an
error is there if and only if the program has this error for its value; there is none in front of
it, and behind it there are only the results of the calls that were open, innermost first. Whatever
is evaluated, on whatever machine and however it ends, closes the calls that it opens. -/
theorem Machine.run_recorded :
    (∀ {verbosity : Int} {depth : Nat} {machine : Machine} {scope : ScopeId} {program : Program}
      {result : Option Value}, 2 ≤ verbosity →
      machine.heap.BoundFrom scope (fun v => v.interrupts = false) →
      (machine.run verbosity depth scope program).outcome = .ok result →
      ∃ events,
        (machine.run verbosity depth scope program).machine.trace.toList =
          machine.trace.toList ++ events ∧
        Event.Nested machine.openCalls events ∧
        Recorded verbosity machine events (machine.run verbosity depth scope program).machine ∧
        (∀ message, (∃ indent, ⟨indent, .raised message⟩ ∈ events) ↔
          result = some (.error message)) ∧
        ∀ before indent message rest, events = before ++ ⟨indent, .raised message⟩ :: rest →
          (∀ e ∈ before, ¬ Event.isError e) ∧ ∃ calls, indent = machine.openCalls + calls ∧
            rest = Event.unwinding message machine.openCalls calls) ∧
    ∀ (verbosity : Int) (machine : Machine),
      (∀ t : Task, ((t.run verbosity).leaves machine).openCalls = machine.openCalls) ∧
      ∀ (depth : Nat) (scope : ScopeId) (program : Program),
        (machine.run verbosity depth scope program).machine.openCalls = machine.openCalls := by
  refine ⟨fun {verbosity depth machine scope program result} hv hbound hrun => ?_,
    fun verbosity machine => ⟨fun t => ?_, fun depth scope program => ?_⟩⟩
  · have hm : machine.heap.InOrder .calmValues (machine.heap.region (· = scope)) := by
      refine Heap.inOrder_region fun {target} ht => ?_
      subst ht
      exact hbound
    let C := Conduct.recorded (machine.heap.region (· = scope)) verbosity hv
    have hscope : C.scope () 0 scope := Heap.region_has
    have hobeys : C.Obeys () (program.eval verbosity depth scope) C.Result :=
      Conduct.program_obeys hscope fun _ _ => trivial
    unfold Machine.run at hrun ⊢
    cases heval : (program.eval verbosity depth scope).run machine with
    | error =>
      rw [heval] at hrun
      cases hrun
    | ok value after =>
      rw [heval] at hrun
      cases hrun
      obtain ⟨_, error, -, -, hresult, events, hrecorded, hfatal⟩ := hobeys.of_ok hm heval
      have hone : 1 ≤ verbosity := by omega
      refine ⟨events, hrecorded.trace_eq hone, hrecorded.nested, hrecorded, fun message => ?_,
        fun before indent message rest hsplit => hfatal.split hsplit⟩
      rw [hfatal.raised_iff, Conduct.recorded_eq_error_iff hresult]
  · exact (Task.confines_run verbosity t machine).openCalls
  · rw [Machine.run_machine]
    exact (Program.confines_eval verbosity depth scope program machine).openCalls

/-- A call that is ended by an error, in a scope without bindings. -/
theorem Machine.run_recorded_negation :
    let x : Ident := ⟨⟨.ident, "x"⟩, "x"⟩
    let f : Ident := ⟨⟨.ident, "f"⟩, "f"⟩
    let program : Program := ⟨[
      .define ⟨.letKw, "let"⟩ f (.fn ⟨.fnKw, "fn"⟩ [x]
        (.mk ⟨.lbrace, "\x7b"⟩ [.bare ⟨.minus, "-"⟩ (.unary ⟨.minus, "-"⟩ "-" (.ident x))])),
      .bare ⟨.ident, "f"⟩ (.call ⟨.lparen, "("⟩ (.ident f) [.bool ⟨.trueKw, "true"⟩ true])]⟩
    let machine := Machine.ofHeap (∅ : Heap).fresh.2
    let run := machine.run 2 9 0 program
    ∃ events, run.machine.trace.toList = machine.trace.toList ++ events ∧
      Event.Nested 0 events ∧ Recorded 2 machine events run.machine ∧
      (∃ indent, ⟨indent, .raised "unknown operator: -BOOLEAN"⟩ ∈ events) ∧
      run.machine.openCalls = 0 := by
  intro x f program machine run
  have hbound : machine.heap.BoundFrom 0 fun v => v.interrupts = false := by
    intro target name value _ hget
    cases target with
    | zero => cases hget
    | succ => cases hget
  have hend : run.outcome = .ok (some (.error "unknown operator: -BOOLEAN")) := by decide
  obtain ⟨hruns, hcloses⟩ := Machine.run_recorded
  obtain ⟨events, htrace, hnested, hrecorded, hraised, -⟩ := hruns (by decide) hbound hend
  have hmessage := (hraised "unknown operator: -BOOLEAN").mpr rfl
  exact ⟨events, htrace, hnested, hrecorded, hmessage, (hcloses 2 machine).2 9 0 program⟩

end Inkwell
