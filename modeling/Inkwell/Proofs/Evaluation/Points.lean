import Inkwell.Proofs.Evaluation.Keeps

/-!
# The points of a run

A run consists of tasks: a program or a block evaluates its statements, a statement its expression,
an expression its operands, and a call the body of a function. `Starts` says which task starts which
other one, and on which machine; recording a message in between leaves the heap alone. The tasks
that a program starts in any number of steps are the points of its run. At each of them the region
is in order and what is evaluated keeps to the discipline, and so does what comes out of it.
-/

namespace Inkwell

/-- A part of a run, within a depth. -/
inductive Task where
  /-- The statements of a program or of a block, in a scope. -/
  | statements (depth : Nat) (scope : ScopeId) (statements : List Stmt)
  /-- A statement in a scope. -/
  | statement (depth : Nat) (scope : ScopeId) (statement : Stmt)
  /-- An expression in a scope. -/
  | expression (depth : Nat) (scope : ScopeId) (expression : Expr)
  /-- A call of a value with arguments. -/
  | call (depth : Nat) (callee : Value) (arguments : List Value)

/-- What a task does. -/
def Task.run (verbosity : Int) : Task → EvalM (Option Value)
  | statements depth scope ss =>
    Stmt.evalAll verbosity depth (Expr.eval verbosity depth) scope none ss
  | statement depth scope s => s.eval verbosity depth (Expr.eval verbosity depth) scope
  | expression depth scope e => return some (← e.eval verbosity depth scope)
  | call depth callee arguments =>
    return some (← callee.call verbosity depth (Expr.eval verbosity depth) arguments)

/-- A task and the machine on which it starts. -/
abbrev Point := Task × Machine

/-- Evaluating an expression on a machine ends uninterrupted with a value, on another machine. -/
def Expr.Ends (verbosity : Int) (depth : Nat) (scope : ScopeId) (e : Expr) (before : Machine)
    (v : Value) (after : Machine) : Prop :=
  (e.eval verbosity depth scope).run before = .ok v after ∧ ¬ v.interrupts = true

/-- A task starts another one. -/
inductive Starts (verbosity : Int) : Point → Point → Prop
  /-- A statement behind others that were not interrupted. -/
  | statement {depth : Nat} {scope : ScopeId} {before after : List Stmt} {s : Stmt}
    {result : Option Value} {m n : Machine} :
    (Task.run verbosity (.statements depth scope before)).run m = .ok result n →
    (∀ v ∈ result, ¬ v.interrupts = true) →
    Starts verbosity (.statements depth scope (before ++ s :: after), m)
      (.statement depth scope s, n)
  | bare {depth : Nat} {scope : ScopeId} {token : Token} {e : Expr} {m : Machine} :
    Starts verbosity (.statement depth scope (.bare token e), m) (.expression depth scope e, m)
  | bound {depth : Nat} {scope : ScopeId} {token : Token} {name : Ident} {e : Expr} {m : Machine} :
    Starts verbosity (.statement depth scope (.define token name e), m)
      (.expression depth scope e, m)
  | operand {depth : Nat} {scope : ScopeId} {token : Token} {e : Expr} {m : Machine} :
    Starts verbosity (.statement depth scope (.ret token (some e)), m)
      (.expression depth scope e, m)
  | inner {depth : Nat} {scope : ScopeId} {token : Token} {ss : List Stmt} {m : Machine} :
    Starts verbosity (.statement depth scope (.block (.mk token ss)), m)
      (.statements depth scope ss, m)
  | unary {depth : Nat} {scope : ScopeId} {token : Token} {operator : String} {e : Expr}
    {m : Machine} :
    Starts verbosity (.expression (depth + 1) scope (.unary token operator e), m)
      (.expression depth scope e, m)
  | left {depth : Nat} {scope : ScopeId} {token : Token} {operator : String} {a b : Expr}
    {m : Machine} :
    Starts verbosity (.expression (depth + 1) scope (.binary token a operator b), m)
      (.expression depth scope a, m)
  | right {depth : Nat} {scope : ScopeId} {token : Token} {operator : String} {a b : Expr}
    {v : Value} {m n : Machine} :
    a.Ends verbosity depth scope m v n →
    Starts verbosity (.expression (depth + 1) scope (.binary token a operator b), m)
      (.expression depth scope b, n)
  | condition {depth : Nat} {scope : ScopeId} {token : Token} {c : Expr} {b : Block}
    {alternative : Option Block} {m : Machine} :
    Starts verbosity (.expression (depth + 1) scope (.cond token c b alternative), m)
      (.expression depth scope c, m)
  | consequence {depth : Nat} {scope : ScopeId} {token brace : Token} {c : Expr}
    {ss : List Stmt} {alternative : Option Block} {v : Value} {m n later : Machine} :
    c.Ends verbosity depth scope m v n → v.isTruthy = true → later.heap = n.heap →
    Starts verbosity (.expression (depth + 1) scope (.cond token c (.mk brace ss) alternative), m)
      (.statements depth scope ss, later)
  | alternative {depth : Nat} {scope : ScopeId} {token brace : Token} {c : Expr} {b : Block}
    {ss : List Stmt} {v : Value} {m n later : Machine} :
    c.Ends verbosity depth scope m v n → ¬ v.isTruthy = true → later.heap = n.heap →
    Starts verbosity (.expression (depth + 1) scope (.cond token c b (some (.mk brace ss))), m)
      (.statements depth scope ss, later)
  | callee {depth : Nat} {scope : ScopeId} {token : Token} {f : Expr} {es : List Expr}
    {m : Machine} :
    Starts verbosity (.expression (depth + 1) scope (.call token f es), m)
      (.expression depth scope f, m)
  /-- An argument behind others that were not interrupted. -/
  | argument {depth : Nat} {scope : ScopeId} {token : Token} {f e : Expr} {before after : List Expr}
    {v : Value} {values : List Value} {m n last : Machine} :
    f.Ends verbosity depth scope m v n →
    (Expr.evalArguments (Expr.eval verbosity depth) scope before).run n = .ok (.ok values) last →
    Starts verbosity (.expression (depth + 1) scope (.call token f (before ++ e :: after)), m)
      (.expression depth scope e, last)
  /-- The call, behind the callee and all arguments. -/
  | call {depth : Nat} {scope : ScopeId} {token : Token} {f : Expr} {es : List Expr}
    {v : Value} {values : List Value} {m n last : Machine} :
    f.Ends verbosity depth scope m v n →
    (Expr.evalArguments (Expr.eval verbosity depth) scope es).run n = .ok (.ok values) last →
    Starts verbosity (.expression (depth + 1) scope (.call token f es), m)
      (.call depth v values, last)
  /-- The body of a function, in a new scope. -/
  | body {depth : Nat} {parameters : List String} {brace : Token} {ss : List Stmt}
    {outer : ScopeId} {arguments : List Value} {m later : Machine} :
    later.heap = (m.heap.allocate ⟨argumentBindings parameters arguments, some outer⟩).2 →
    Starts verbosity (.call depth (.fn parameters (.mk brace ss) outer) arguments, m)
      (.statements depth (m.heap.allocate ⟨argumentBindings parameters arguments, some outer⟩).1 ss,
        later)

/-- A point of a run. -/
def Point.Leads (verbosity : Int) : Point → Point → Prop :=
  Relation.ReflTransGen (Starts verbosity)

variable {D : Discipline} {R : Region} {verbosity : Int}

/-- A task that keeps to a discipline: its scope belongs to the region and its nodes may occur, or
it calls a good value with good arguments. -/
def Task.Admitted (D : Discipline) (R : Region) : Task → Prop
  | statements _ scope ss => R.has scope ∧ ∀ p ∈ Stmt.partsAll ss, D.node p
  | statement _ scope s => R.has scope ∧ ∀ p ∈ s.parts, D.node p
  | expression _ scope e => R.has scope ∧ ∀ p ∈ e.parts, D.node p
  | call _ callee arguments => callee.Good D R ∧ ∀ v ∈ arguments, v.Good D R

/-- What comes out of a task: of an expression always an outcome, of a call always an ending. -/
def Task.Delivers (D : Discipline) (R : Region) : Task → Option Value → Prop
  | statements _ _ _, result => ∀ v ∈ result, v.Outcome D R
  | statement _ _ _, result => ∀ v ∈ result, v.Outcome D R
  | expression _ _ _, result => ∃ v, result = some v ∧ v.Outcome D R
  | call _ _ _, result => ∃ v, result = some v ∧ v.Ending D R

/-- A point at which the region is in order and the task keeps to the discipline. -/
def Point.InOrder (D : Discipline) (R : Region) (p : Point) : Prop :=
  p.2.heap.InOrder D R ∧ p.1.Admitted D R

/-- A task that is admitted keeps the heap in order and delivers what it shall. -/
theorem Task.keeps_run (verbosity : Int) {t : Task} (h : t.Admitted D R) :
    Keeps D R (t.run verbosity) (t.Delivers D R) := by
  cases t with
  | statements depth scope ss =>
    exact Stmt.keeps_evalAll (Expr.keeps_eval verbosity depth) h.1 Stmt.result_none h.2
  | statement depth scope s => exact Stmt.keeps_eval (Expr.keeps_eval verbosity depth) h.1 h.2
  | expression depth scope e =>
    exact (Expr.keeps_eval verbosity depth h.1 h.2).bind fun v hv => .pure ⟨v, rfl, hv⟩
  | call depth callee arguments =>
    exact (Value.keeps_call (Expr.keeps_eval verbosity depth) h.1 h.2).bind
      fun v hv => .pure ⟨v, rfl, hv⟩

/-- A task leaves the region in order, and delivers what its kind says. -/
theorem Point.InOrder.run {p : Point} (h : p.InOrder D R) (verbosity : Int) :
    match (p.1.run verbosity).run p.2 with
    | .ok result after => after.heap.InOrder D R ∧ p.1.Delivers D R result
    | .error _ after => after.heap.InOrder D R := by
  have hk := Task.keeps_run verbosity h.2 p.2 h.1
  cases hr : (p.1.run verbosity).run p.2 with
  | ok result after =>
    rw [hr] at hk
    exact hk
  | error e after =>
    rw [hr] at hk
    exact hk

/-- What an expression leaves behind where it is not interrupted. -/
theorem Expr.Ends.inOrder {depth : Nat} {scope : ScopeId} {e : Expr} {v : Value} {m n : Machine}
    (h : e.Ends verbosity depth scope m v n) (hs : R.has scope) (hp : ∀ p ∈ e.parts, D.node p)
    (hm : m.heap.InOrder D R) : n.heap.InOrder D R ∧ v.Good D R := by
  have hk := Expr.keeps_eval verbosity depth hs hp m hm
  rw [h.1] at hk
  exact ⟨hk.1, hk.2.good h.2⟩

/-- Arguments keep the heap in order, and their values are good. -/
theorem Expr.arguments_inOrder {depth : Nat} {scope : ScopeId} {es : List Expr}
    {values : List Value} {m n : Machine}
    (h : (Expr.evalArguments (Expr.eval verbosity depth) scope es).run m = .ok (.ok values) n)
    (hs : R.has scope) (hp : ∀ p ∈ Expr.partsAll es, D.node p) (hm : m.heap.InOrder D R) :
    n.heap.InOrder D R ∧ ∀ v ∈ values, v.Good D R := by
  have hk := Expr.keeps_evalArguments (Expr.keeps_eval verbosity depth) hs hp m hm
  rw [h] at hk
  exact ⟨hk.1, hk.2.2⟩

/-- The expressions in two rows of statements are those of the one and those of the other. -/
theorem Stmt.forall_partsAll_append {p : Expr → Prop} {before after : List Stmt} :
    (∀ e ∈ Stmt.partsAll (before ++ after), p e) ↔
      (∀ e ∈ Stmt.partsAll before, p e) ∧ ∀ e ∈ Stmt.partsAll after, p e := by
  induction before with
  | nil => simp [Stmt.partsAll]
  | cons s ss ih =>
    rw [List.cons_append, Stmt.partsAll, Stmt.partsAll, List.forall_mem_append,
      List.forall_mem_append, ih, and_assoc]

/-- So are those in two rows of expressions. -/
theorem Expr.forall_partsAll_append {p : Expr → Prop} {before after : List Expr} :
    (∀ e ∈ Expr.partsAll (before ++ after), p e) ↔
      (∀ e ∈ Expr.partsAll before, p e) ∧ ∀ e ∈ Expr.partsAll after, p e := by
  induction before with
  | nil => simp [Expr.partsAll]
  | cons s ss ih =>
    rw [List.cons_append, Expr.partsAll, Expr.partsAll, List.forall_mem_append,
      List.forall_mem_append, ih, and_assoc]

/-- A heap that is the same is in order. -/
theorem Heap.InOrder.of_eq {heap other : Heap} (h : heap.InOrder D R) (heq : other = heap) :
    other.InOrder D R := heq ▸ h

/-- One step of a run: what a task starts is in order if the task is. -/
theorem Starts.inOrder {p q : Point} (h : Starts verbosity p q) (hp : p.InOrder D R) :
    q.InOrder D R := by
  obtain ⟨hm, ht⟩ := hp
  cases h with
  | @statement depth scope before after s result m n hrun _ =>
    have hparts := Stmt.forall_partsAll_append.mp ht.2
    have hbefore : Point.InOrder D R (.statements depth scope before, m) := ⟨hm, ht.1, hparts.1⟩
    have hk := hbefore.run verbosity
    rw [hrun] at hk
    exact ⟨hk.1, ht.1, (List.forall_mem_append.mp hparts.2).1⟩
  | bare => exact ⟨hm, ht⟩
  | bound => exact ⟨hm, ht⟩
  | operand => exact ⟨hm, ht⟩
  | inner => exact ⟨hm, ht⟩
  | unary => exact ⟨hm, ht.1, (List.forall_mem_cons.mp ht.2).2⟩
  | left => exact ⟨hm, ht.1, (List.forall_mem_append.mp (List.forall_mem_cons.mp ht.2).2).1⟩
  | right ha =>
    have hparts := List.forall_mem_append.mp (List.forall_mem_cons.mp ht.2).2
    exact ⟨(ha.inOrder ht.1 hparts.1 hm).1, ht.1, hparts.2⟩
  | condition => exact ⟨hm, ht.1, (List.forall_mem_append.mp (List.forall_mem_cons.mp ht.2).2).1⟩
  | consequence hc _ heap =>
    have hparts := List.forall_mem_append.mp (List.forall_mem_cons.mp ht.2).2
    exact ⟨(hc.inOrder ht.1 hparts.1 hm).1.of_eq heap, ht.1,
      (List.forall_mem_append.mp hparts.2).1⟩
  | alternative hc _ heap =>
    have hparts := List.forall_mem_append.mp (List.forall_mem_cons.mp ht.2).2
    exact ⟨(hc.inOrder ht.1 hparts.1 hm).1.of_eq heap, ht.1,
      (List.forall_mem_append.mp hparts.2).2⟩
  | callee => exact ⟨hm, ht.1, (List.forall_mem_append.mp (List.forall_mem_cons.mp ht.2).2).1⟩
  | argument hf hargs =>
    have hparts := List.forall_mem_append.mp (List.forall_mem_cons.mp ht.2).2
    have hall := Expr.forall_partsAll_append.mp hparts.2
    have hn := (hf.inOrder ht.1 hparts.1 hm).1
    exact ⟨(Expr.arguments_inOrder hargs ht.1 hall.1 hn).1, ht.1,
      (List.forall_mem_append.mp hall.2).1⟩
  | call hf hargs =>
    have hparts := List.forall_mem_append.mp (List.forall_mem_cons.mp ht.2).2
    have hn := hf.inOrder ht.1 hparts.1 hm
    have hlast := Expr.arguments_inOrder hargs ht.1 hparts.2 hn.1
    exact ⟨hlast.1, hn.2, hlast.2⟩
  | @body depth parameters brace ss outer arguments m later heap =>
    have hb : (argumentBindings parameters arguments).Good D R := argumentBindings_good ht.2
    have ho : ∀ {target}, some outer = some target → R.has target := fun heq => by
      cases heq
      exact ht.1.inside rfl
    have ha := hm.allocate (s := ⟨argumentBindings parameters arguments, some outer⟩) hb ho
    exact ⟨ha.2.of_eq heap, ha.1, D.body ht.1.value⟩

/-- The points of a run are in order if its start is. -/
theorem Point.Leads.inOrder {p q : Point} (h : p.Leads verbosity q) (hp : p.InOrder D R) :
    q.InOrder D R := by
  induction h with
  | refl => exact hp
  | tail _ hstep ih => exact hstep.inOrder ih

end Inkwell
