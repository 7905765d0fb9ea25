import Inkwell.Proofs.Evaluation.Points
import Inkwell.Proofs.Grammar.Lawful
import Inkwell.Proofs.Value.Wrap

/-!
# Soundness of values

A value is sound if a program may hold it: an integer of 64 bits, a truth value, null, or a function
whose body was read from a text. In environments with sound bindings, programs that were read from
texts keep all bindings sound at every point of every run, one run after the other. What they give
is sound or an error, and no error speaks of a wrapper, of another error or of an operator that
integers do not have.
-/

namespace Inkwell

/-- A program that was read from some text without diagnostics. -/
def Program.Accepted (program : Program) : Prop :=
  ∃ depth source, Program.ofSource depth source = .ok program

/-- The body of a function literal in an accepted program. -/
def Block.ParserMade (body : Block) : Prop :=
  ∃ program token parameters, Program.Accepted program ∧ .fn token parameters body ∈ program.parts

/-- A value that a program may hold. -/
def Value.Sound : Value → Prop
  | .int number => -(maxInteger : Int) - 1 ≤ number ∧ number ≤ maxInteger
  | .bool _ => True
  | .null => True
  | .fn _ body _ => body.ParserMade
  | .error _ => False
  | .returned _ => False

/-- The types that operands have. -/
def Value.Kind.Ordinary (kind : Value.Kind) : Prop :=
  kind ∈ [Value.Kind.integer, .boolean, .null, .function]

/-- A fault of operands that a program may hold, and of operators that there are. Integers have
every operator. -/
def Fault.Ordinary : Fault → Prop
  | .unbound _ => True
  | .notFunction found => found.Ordinary ∧ found ≠ .function
  | .mismatch operator left right =>
    operator ∈ Expr.binaryOperators ∧ left.Ordinary ∧ right.Ordinary ∧ left ≠ right
  | .unknownUnary operator operand => operator ∈ Expr.unaryOperators ∧ operand.Ordinary
  | .unknownBinary operator left right =>
    operator ∈ Expr.binaryOperators ∧ left.Ordinary ∧ left = right ∧ left ≠ .integer
  | .divisionByZero => True

/-- A sound value is of a kind that programs can have to do with. -/
theorem Value.Sound.ordinary {v : Value} (h : v.Sound) : v.kind.Ordinary := by
  cases v with
  | int => exact List.mem_cons_self
  | bool => exact List.mem_cons_of_mem _ List.mem_cons_self
  | null => exact List.mem_cons_of_mem _ (List.mem_cons_of_mem _ List.mem_cons_self)
  | fn =>
    exact List.mem_cons_of_mem _
      (List.mem_cons_of_mem _ (List.mem_cons_of_mem _ List.mem_cons_self))
  | error => exact h.elim
  | returned => exact h.elim

/-- A wrapped number is a sound value. -/
theorem Value.sound_wrap (number : Int) : (Value.int (wrap number)).Sound := by
  obtain ⟨hlow, hhigh⟩ := signed_wrap number
  unfold Value.Sound maxInteger
  omega

/-- The faults of operators between integers: there is but one. -/
theorem Value.fault_arithmetic {operator : String} {a b : Int} {f : Fault}
    (ho : operator ∈ Expr.binaryOperators) (h : Value.arithmetic operator a b = .error f) :
    f = .divisionByZero := by
  simp only [Expr.binaryOperators, List.mem_cons, List.not_mem_nil, or_false] at ho
  rcases ho with rfl | rfl | rfl | rfl | rfl | rfl | rfl | rfl
  case inr.inr.inr.inr.inr.inr.inr =>
    have hdiv : (if b = 0 then .error .divisionByZero else .ok (.int (wrap (a.fdiv b)))) =
      (.error f : Except Fault Value) := h
    split at hdiv
    · cases hdiv
      rfl
    · cases hdiv
  all_goals cases h

/-- A value of the kind of integers is one. -/
theorem Value.eq_int {v : Value} (h : v.kind = .integer) : ∃ number, v = .int number := by
  cases v with
  | int number => exact ⟨number, rfl⟩
  | bool => cases h
  | null => cases h
  | error => cases h
  | returned => cases h
  | fn => cases h

/-- A prefix operator of the language can only fail in an ordinary way. -/
theorem Value.fault_unary {operator : String} {v : Value} {f : Fault} (hv : v.Sound)
    (ho : operator ∈ Expr.unaryOperators) (h : v.unary operator = .error f) : f.Ordinary := by
  unfold Value.unary at h
  split at h
  · cases h
  · cases h
  · cases h
    exact ⟨ho, hv.ordinary⟩

/-- Any other operator of the language can only do so, too. -/
theorem Value.fault_binary {operator : String} {v w : Value} {f : Fault} (hv : v.Sound)
    (hw : w.Sound) (ho : operator ∈ Expr.binaryOperators) (h : v.binary operator w = .error f) :
    f.Ordinary := by
  unfold Value.binary at h
  split at h
  · rw [Value.fault_arithmetic ho h]
    trivial
  · split at h
    · cases h
    · cases h
    · cases h
      exact ⟨ho, hv.ordinary, rfl, nofun⟩
  · rename_i hints _
    split at h
    · rename_i hkind
      cases h
      refine ⟨ho, hv.ordinary, hkind, fun hint => ?_⟩
      obtain ⟨a, rfl⟩ := Value.eq_int hint
      obtain ⟨b, rfl⟩ := Value.eq_int (hkind.symm.trans hint)
      exact hints a b rfl rfl
    · rename_i hkind
      cases h
      exact ⟨ho, hv.ordinary, hw.ordinary, hkind⟩

/-- Accepted programs consist of lawful nodes, and of functions with parser-made bodies. -/
def Expr.Admissible (e : Expr) : Prop :=
  e.Lawful ∧ ∀ token parameters body, e = .fn token parameters body → body.ParserMade

/-- The expressions in an accepted program may be evaluated. -/
theorem Program.Accepted.admissible {program : Program} (h : program.Accepted) :
    ∀ e ∈ program.parts, e.Admissible := by
  intro e he
  refine ⟨?_, ?_⟩
  · obtain ⟨depth, source, hread⟩ := h
    exact Program.lawful_of_ofSource hread e he
  · rintro token parameters body rfl
    exact ⟨program, token, parameters, h, he⟩

/-- The parts of a parser-made body are parts of the program around it. -/
theorem Block.ParserMade.admissible {body : Block} (h : body.ParserMade) :
    ∀ e ∈ body.parts, e.Admissible := by
  obtain ⟨program, token, parameters, haccepted, hmem⟩ := h
  exact fun e he => haccepted.admissible e (Program.mem_parts_of_body hmem he)

/-- The discipline of accepted programs: values are sound and faults are ordinary. -/
def Discipline.sound : Discipline where
  node := Expr.Admissible
  value := Value.Sound
  fault := Fault.Ordinary
  calm {v} h := by
    cases v with
    | error => exact h.elim
    | returned => exact h.elim
    | int => rfl
    | bool => rfl
    | null => rfl
    | fn => rfl
  null := trivial
  bool _ := trivial
  int {token number} h := by
    have hlow : 0 ≤ number := h.1.1
    have hhigh : number ≤ maxInteger := h.1.2
    unfold Value.Sound
    omega
  fn _ h := h.2 _ _ _ rfl
  body h := Block.ParserMade.admissible h
  wrapped := Value.sound_wrap
  unary h hv := Value.fault_unary hv h.1
  binary h hv hw := Value.fault_binary hv hw h.1
  unbound _ := trivial
  notFunction hv hk := ⟨Value.Sound.ordinary hv, hk⟩

/-- A sequence of runs from one heap to another, in environments of a region. Between runs new
environments may be created. -/
inductive Session (R : Region) (heap : Heap) : Heap → Prop
  | start : Session R heap heap
  | run {later : Heap} {verbosity : Int} {depth : Nat} {machine : Machine} {scope : ScopeId}
    {program : Program} : Session R heap later → machine.heap = later → R.has scope →
    program.Accepted → Session R heap (machine.run verbosity depth scope program).machine.heap
  | fresh {later : Heap} : Session R heap later → Session R heap later.fresh.2
  | enclosed {later : Heap} {outer : ScopeId} : Session R heap later → R.has outer →
    Session R heap (later.enclosed outer).2

variable {R : Region} {heap later : Heap}

/-- A run of an accepted program keeps the region in order. Its value is an ending. -/
theorem Machine.run_inOrder {verbosity : Int} {depth : Nat} {machine : Machine} {scope : ScopeId}
    {program : Program} (hm : machine.heap.InOrder .sound R) (hs : R.has scope)
    (hp : program.Accepted) :
    (machine.run verbosity depth scope program).machine.heap.InOrder .sound R ∧
      ∀ v, (machine.run verbosity depth scope program).outcome = .ok (some v) →
        v.Ending .sound R := by
  have hk : Keeps .sound R (program.eval verbosity depth scope)
      fun result => ∀ v ∈ result, v.Ending .sound R := Program.keeps_eval hs hp.admissible
  have hkeeps := hk machine hm
  unfold Machine.run
  cases hr : (program.eval verbosity depth scope).run machine with
  | error e after =>
    rw [hr] at hkeeps
    exact ⟨hkeeps, fun _ h => nomatch h⟩
  | ok result after =>
    rw [hr] at hkeeps
    refine ⟨hkeeps.1, fun v hv => hkeeps.2 v ?_⟩
    exact Except.ok.inj hv

/-- A session keeps the heap in order. -/
theorem Session.inOrder (h : Session R heap later) (hheap : heap.InOrder .sound R) :
    later.InOrder .sound R := by
  induction h with
  | start => exact hheap
  | run _ hm hs hp ih => exact (Machine.run_inOrder (hm ▸ ih) hs hp).1
  | fresh _ ih => exact (ih.allocate (s := ⟨[], none⟩) .nil fun h => nomatch h).2
  | enclosed _ ho ih =>
    refine (ih.allocate (s := ⟨[], some _⟩) .nil fun h => ?_).2
    cases h
    exact ho

/-- In environments with sound bindings, at every point of every run of a session of accepted
programs all bindings are sound, and so are the values that are called and passed. Expressions give
a sound value, an ordinary fault or a sound value on its way out of a function; calls and programs
give a sound value or an ordinary fault. -/
theorem Session.sound {scopes : ScopeId → Prop} {verbosity : Int} {depth : Nat}
    {machine : Machine} {scope : ScopeId} {program : Program}
    (h : ∀ {scope}, scopes scope → heap.BoundFrom scope Value.Sound)
    (hsession : Session (heap.region scopes) heap machine.heap)
    (hs : (heap.region scopes).has scope) (hp : program.Accepted) :
    (∀ p : Point, Point.Leads verbosity (.statements depth scope program.statements, machine) p →
      p.InOrder .sound (heap.region scopes) ∧ match (p.1.run verbosity).run p.2 with
        | .ok result after => after.heap.InOrder .sound (heap.region scopes) ∧
          p.1.Delivers .sound (heap.region scopes) result
        | .error _ after => after.heap.InOrder .sound (heap.region scopes)) ∧
      ∀ v, (machine.run verbosity depth scope program).outcome = .ok (some v) →
        v.Ending .sound (heap.region scopes) := by
  have hheap : heap.InOrder .sound (heap.region scopes) := Heap.inOrder_region h
  have hm := hsession.inOrder hheap
  refine ⟨fun p hleads => ?_, (Machine.run_inOrder hm hs hp).2⟩
  have hpoint : p.InOrder .sound (heap.region scopes) :=
    hleads.inOrder ⟨hm, hs, hp.admissible⟩
  exact ⟨hpoint, hpoint.run verbosity⟩

/-- The program `x + 1` is accepted. -/
theorem Program.accepted_successor :
    Program.Accepted ⟨[.bare ⟨.ident, "x"⟩ (.binary ⟨.plus, "+"⟩ (.ident ⟨⟨.ident, "x"⟩, "x"⟩) "+"
      (.int ⟨.int, "1"⟩ 1))]⟩ := by
  have hscan : Token.scan "x + 1" = [⟨.ident, "x"⟩, ⟨.plus, "+"⟩, ⟨.int, "1"⟩] := by
    rw [Token.scan_eq, Token.tokensOf_of_some rfl, Token.tokensOf_of_some rfl,
      Token.tokensOf_of_some rfl, Token.tokensOf_of_none rfl]
    rfl
  refine ⟨2, "x + 1", ?_⟩
  unfold Program.ofSource
  rw [hscan]
  rfl

/-- The same program twice, in a scope with one binding. -/
theorem Session.sound_successor :
    (Value.int 6).Ending .sound (Heap.region ⟨#[⟨[("x", .int 5)], none⟩]⟩ (· = 0)) := by
  have hs : (Heap.region ⟨#[⟨[("x", .int 5)], none⟩]⟩ (· = 0)).has 0 := .inl ⟨0, rfl, .refl⟩
  refine (@Session.sound ⟨#[⟨[("x", .int 5)], none⟩]⟩ (· = 0) 0 3
    (Machine.run 0 3 (.ofHeap ⟨#[⟨[("x", .int 5)], none⟩]⟩) 0 _).machine 0 _ ?_
    (.run .start rfl hs Program.accepted_successor) hs Program.accepted_successor).2 _ rfl
  intro scope _ target name value _ hget
  cases target with
  | zero =>
    have hbound : (if "x" = name then some (Value.int 5) else none) = some value := hget
    split at hbound
    · cases hbound
      exact ⟨by decide, by decide⟩
    · cases hbound
  | succ => cases hget

end Inkwell
