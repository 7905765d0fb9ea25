import Inkwell.Proofs.Evaluation.Concatenation
import Inkwell.Proofs.Evaluation.Conduct
import Inkwell.Proofs.Evaluation.Makes

/-!
# Where bindings are made

Each binding that a program makes belongs to a `let` statement among the points of its run: the run
gets to this statement, in the scope of the program, and its expression ends uninterrupted with the
value that is bound.
-/

namespace Inkwell

open EvalM

variable {α : Type} {verbosity : Int} {depth : Nat} {scope : ScopeId} {machine : Machine}
  {binding : String × Value}

/-- From a point, a run gets to a `let` statement in a scope that makes a binding. -/
def Point.Binds (verbosity : Int) (scope : ScopeId) (binding : String × Value) (p : Point) : Prop :=
  ∃ depth token name e before after,
    p.Leads verbosity (.statement depth scope (.define token name e), before) ∧
      e.Ends verbosity depth scope before binding.2 after ∧ name.name = binding.1

/-- What is bound from a point on is bound from every point that starts it. -/
theorem Point.Binds.of_starts {p q : Point} (h : q.Binds verbosity scope binding)
    (hstarts : Starts verbosity p q) : p.Binds verbosity scope binding := by
  obtain ⟨depth, token, name, e, before, after, hleads, hends⟩ := h
  exact ⟨depth, token, name, e, before, after, .head hstarts hleads, hends⟩

/-- What two steps bind is bound by the first one, or by the second one behind its result. -/
theorem Makes.mem_andThen {first : Makes} {x : EvalM α} {next : α → Makes}
    (h : binding ∈ first.andThen x next machine) : binding ∈ first machine ∨
      ∃ a after, x.run machine = .ok a after ∧ binding ∈ next a after := by
  unfold andThen at h
  rcases List.mem_append.mp h with h | h
  · exact .inl h
  · cases hr : x.run machine with
    | error =>
      rw [hr] at h
      cases h
    | ok a after =>
      rw [hr] at h
      exact .inr ⟨a, after, rfl, h⟩

/-- What is bound behind a value is bound only if the value does not interrupt. -/
theorem Makes.mem_past {v : Value} {next : Makes} (h : binding ∈ Makes.past v next machine) :
    ¬ v.interrupts = true ∧ binding ∈ next machine := by
  unfold past at h
  split at h
  · cases h
  · exact ⟨‹_›, h⟩

/-- Behind a value that does not interrupt. -/
theorem Expr.mem_makes_past {e : Expr} {first : Makes} {next : Value → Makes}
    (h : binding ∈ (first.andThen (e.eval verbosity depth scope)
      fun v => .past v (next v)) machine) : binding ∈ first machine ∨
      ∃ v after, e.Ends verbosity depth scope machine v after ∧ binding ∈ next v after := by
  rcases Makes.mem_andThen h with h | ⟨v, after, hrun, h⟩
  · exact .inl h
  · obtain ⟨hv, h⟩ := Makes.mem_past h
    exact .inr ⟨v, after, ⟨hrun, hv⟩, h⟩

/-- Expressions whose bindings are made at points of their runs. -/
def Expr.AllBind (verbosity : Int) (depth : Nat) (scope : ScopeId) : Prop :=
  ∀ {e : Expr} {machine : Machine} {binding : String × Value},
    binding ∈ e.makes verbosity depth scope machine →
    Point.Binds verbosity scope binding (.expression depth scope e, machine)

mutual

/-- Whatever a statement is told to bind, some step of its run binds. -/
theorem Stmt.binds (he : Expr.AllBind verbosity depth scope) : ∀ {s : Stmt} {machine : Machine},
    binding ∈ s.makes verbosity depth (Expr.eval verbosity depth)
      (Expr.makes verbosity depth scope) scope machine →
    Point.Binds verbosity scope binding (.statement depth scope s, machine)
  | .bare _ e, machine, h => by
    rw [Stmt.makes] at h
    exact (he h).of_starts .bare
  | .define token name e, machine, h => by
    rw [Stmt.makes] at h
    rcases Expr.mem_makes_past h with h | ⟨v, after, hends, h⟩
    · exact (he h).of_starts .bound
    · cases List.mem_singleton.mp h
      exact ⟨depth, token, name, e, machine, after, .refl, hends, rfl⟩
  | .ret _ none, _, h => by
    rw [Stmt.makes] at h
    cases h
  | .ret _ (some e), machine, h => by
    rw [Stmt.makes] at h
    exact (he h).of_starts .operand
  | .block (.mk token ss), machine, h => by
    rw [Stmt.makes, Block.makes] at h
    exact (Stmt.binds_all he [] rfl rfl h).of_starts .inner

/-- Statements behind others that end uninterrupted. -/
theorem Stmt.binds_all (he : Expr.AllBind verbosity depth scope) :
    ∀ {ss : List Stmt} (before : List Stmt) {result : Option Value} {machine middle : Machine},
    (Stmt.evalAll verbosity depth (Expr.eval verbosity depth) scope none before).run machine =
      .ok result middle →
    result.any Value.interrupts = false →
    binding ∈ Stmt.makesAll verbosity depth (Expr.eval verbosity depth)
      (Expr.makes verbosity depth scope) scope ss middle →
    Point.Binds verbosity scope binding (.statements depth scope (before ++ ss), machine)
  | [], _, _, _, _, _, _, h => by
    rw [Stmt.makesAll] at h
    cases h
  | s :: ss, before, result, machine, middle, hrun, hresult, h => by
    rw [Stmt.makesAll] at h
    rcases Makes.mem_andThen h with h | ⟨next, after, hs, h⟩
    · exact (Stmt.binds he h).of_starts (.statement hrun (any_interrupts_eq_false.mp hresult))
    · have hmore : (Stmt.evalAll verbosity depth (Expr.eval verbosity depth) scope none
          (before ++ [s])).run machine = .ok next after := by
        rw [Stmt.run_evalAll_append rfl, hrun]
        dsimp only
        rw [hresult, if_neg Bool.false_ne_true, Stmt.run_evalAll_singleton, hs]
      have hnext : next.any Value.interrupts = false ∧ binding ∈ Stmt.makesAll verbosity depth
          (Expr.eval verbosity depth) (Expr.makes verbosity depth scope) scope ss after := by
        cases next with
        | none => exact ⟨rfl, h⟩
        | some v =>
          obtain ⟨hv, h⟩ := Makes.mem_past h
          exact ⟨Bool.not_eq_true _ ▸ hv, h⟩
      have hbinds := Stmt.binds_all he (before ++ [s]) hmore hnext.1 hnext.2
      rwa [List.append_assoc] at hbinds

end

/-- Arguments have values if the first one has, and behind it the others have. -/
theorem Expr.run_evalArguments_cons_iff {eval : Evaluator} {e : Expr} {es : List Expr}
    {values : List Value} {machine last : Machine} :
    (Expr.evalArguments eval scope (e :: es)).run machine = .ok (.ok values) last ↔
      ∃ v after rest, (eval scope e).run machine = .ok v after ∧ ¬ v.interrupts = true ∧
        (Expr.evalArguments eval scope es).run after = .ok (.ok rest) last ∧
        values = v :: rest := by
  rw [Expr.evalArguments, run_bind]
  constructor
  · intro h
    cases hfirst : (eval scope e).run machine with
    | error =>
      rw [hfirst] at h
      cases h
    | ok v after =>
      rw [hfirst] at h
      dsimp only at h
      split at h
      · cases h
      · rw [run_bind] at h
        cases hrest : (Expr.evalArguments eval scope es).run after with
        | error =>
          rw [hrest] at h
          cases h
        | ok result =>
          rw [hrest] at h
          cases result with
          | error => cases h
          | ok rest =>
            cases h
            exact ⟨v, after, rest, rfl, ‹_›, hrest, rfl⟩
  · rintro ⟨v, after, rest, hfirst, hv, hrest, rfl⟩
    rw [hfirst]
    dsimp only
    rw [if_neg hv, run_bind, hrest]
    rfl

/-- One more argument is evaluated behind the others. -/
theorem Expr.run_evalArguments_concat {eval : Evaluator} {es : List Expr} {e : Expr}
    {values : List Value} {v : Value} {machine middle after : Machine}
    (hes : (Expr.evalArguments eval scope es).run machine = .ok (.ok values) middle)
    (he : (eval scope e).run middle = .ok v after) (hv : ¬ v.interrupts = true) :
    (Expr.evalArguments eval scope (es ++ [e])).run machine = .ok (.ok (values ++ [v])) after := by
  induction es generalizing values machine with
  | nil =>
    cases hes
    exact run_evalArguments_cons_iff.mpr ⟨v, after, [], he, hv, rfl, rfl⟩
  | cons first rest ih =>
    obtain ⟨w, next, others, hfirst, hw, hrest, rfl⟩ := run_evalArguments_cons_iff.mp hes
    exact run_evalArguments_cons_iff.mpr ⟨w, next, _, hfirst, hw, ih hrest, rfl⟩

/-- Arguments behind others that have values. -/
theorem Expr.binds_arguments (he : Expr.AllBind verbosity depth scope) {token : Token} {f : Expr}
    {function : Value} {before : List Expr} {es : List Expr} {values : List Value}
    {machine middle last : Machine} (hf : f.Ends verbosity depth scope machine function middle)
    (hbefore : (Expr.evalArguments (Expr.eval verbosity depth) scope before).run middle =
      .ok (.ok values) last)
    (h : binding ∈ Expr.makesArguments (Expr.eval verbosity depth)
      (Expr.makes verbosity depth scope) scope es last) :
    Point.Binds verbosity scope binding
      (.expression (depth + 1) scope (.call token f (before ++ es)), machine) := by
  induction es generalizing before values last with
  | nil => cases h
  | cons e es ih =>
    rw [Expr.makesArguments] at h
    rcases Expr.mem_makes_past h with h | ⟨v, after, hends, h⟩
    · exact (he h).of_starts (.argument hf hbefore)
    · have hmore := Expr.run_evalArguments_concat hbefore hends.1 hends.2
      have hbinds := ih hmore h
      rwa [List.append_assoc] at hbinds

/-- Recording that a condition was tested leaves the heap alone. -/
theorem Expr.heap_test {e : Expr} {v : Value} {after : Machine} {result : Unit}
    (h : (e.test verbosity depth v).run machine = .ok result after) :
    after.heap = machine.heap := by
  unfold Expr.test at h
  split at h
  · rw [run_bind, run_shownExpr] at h
    by_cases he : e.fits depth = true
    · rw [if_pos he] at h
      dsimp only at h
      rw [run_bind, run_shown] at h
      by_cases hv : v.fits depth = true
      · rw [if_pos hv] at h
        cases h
        rfl
      · rw [if_neg hv] at h
        cases h
    · rw [if_neg he] at h
      cases h
  · cases h
    rfl

/-- The bindings of an expression are made at points of its run. -/
theorem Expr.binds (verbosity : Int) (depth : Nat) (scope : ScopeId) :
    Expr.AllBind verbosity depth scope := by
  induction depth with
  | zero =>
    intro e machine binding h
    rw [Expr.makes] at h
    cases h
  | succ depth ih =>
    intro e machine binding h
    cases e with
    | int => rw [Expr.makes] at h; cases h
    | bool => rw [Expr.makes] at h; cases h
    | fn => rw [Expr.makes] at h; cases h
    | ident => rw [Expr.makes] at h; cases h
    | unary token operator operand =>
      rw [Expr.makes] at h
      exact (ih h).of_starts .unary
    | binary token left operator right =>
      rw [Expr.makes] at h
      rcases Expr.mem_makes_past h with h | ⟨v, after, hends, h⟩
      · exact (ih h).of_starts .left
      · exact (ih h).of_starts (.right hends)
    | cond token condition consequence alternative =>
      have hbranch : ∀ {brace : Token} {ss : List Stmt} {later : Machine},
          binding ∈ (Block.mk brace ss).makes verbosity depth (Expr.eval verbosity depth)
            (Expr.makes verbosity depth scope) scope later →
          Point.Binds verbosity scope binding (.statements depth scope ss, later) := by
        intro brace ss later h
        rw [Block.makes] at h
        exact Stmt.binds_all ih [] rfl rfl h
      obtain ⟨brace, ss⟩ := consequence
      rw [Expr.makes] at h
      rcases Expr.mem_makes_past h with h | ⟨v, after, hends, h⟩
      · exact (ih h).of_starts .condition
      · rcases Makes.mem_andThen h with h | ⟨_, later, htest, h⟩
        · cases h
        · have hheap := Expr.heap_test htest
          by_cases htruthy : v.isTruthy = true
          · rw [if_pos htruthy] at h
            exact (hbranch h).of_starts (.consequence hends htruthy hheap)
          · rw [if_neg htruthy] at h
            cases alternative with
            | none => cases h
            | some block =>
              obtain ⟨brace', ss'⟩ := block
              rw [Option.elim_some] at h
              exact (hbranch h).of_starts (.alternative hends htruthy hheap)
    | call token callee arguments =>
      rw [Expr.makes] at h
      rcases Expr.mem_makes_past h with h | ⟨v, after, hends, h⟩
      · exact (ih h).of_starts .callee
      · have hbinds : Point.Binds verbosity scope binding
            (.expression (depth + 1) scope (.call token callee ([] ++ arguments)), machine) :=
          Expr.binds_arguments ih hends rfl h
        exact hbinds

/-- Each binding that a program makes is made by a `let` statement that its run gets to in its
scope. -/
theorem Program.binds_of_mem_makes {program : Program}
    (h : binding ∈ program.makes verbosity depth scope machine) :
    Point.Binds verbosity scope binding (.statements depth scope program.statements, machine) :=
  Stmt.binds_all (Expr.binds verbosity depth scope) [] rfl rfl h

end Inkwell
