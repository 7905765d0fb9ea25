import Inkwell.Proofs.Evaluation.Renumber
import Inkwell.Proofs.Tree.Marks

/-!
# Evaluation does not look at marks

The braces of function literals take no part in evaluation. A plain program does on a plain machine
what the program does: it ends alike, also where the depth is exceeded, and leaves the machine
behind that the program leaves, made plain.
-/

namespace Inkwell

open EvalM

variable {α β γ δ : Type}

/-- The body of a plain function literal. -/
def Block.plainBody : Block → Block
  | .mk _ statements => .mk (Token.brace 0) (Stmt.rebraceAll (fun _ => Token.brace 0) statements)

namespace Value

/-- The value with the body of a plain function literal, if it is a function. -/
def plain : Value → Value
  | int number => int number
  | bool truth => bool truth
  | null => null
  | error message => error message
  | returned value => returned value.plain
  | fn parameters body scope => fn parameters body.plainBody scope

/-- A value without its marks is like the value. -/
theorem alike_plain : ∀ v : Value, v.Alike v.plain
  | int _ => .int _
  | bool _ => .bool _
  | null => .null
  | error _ => .error _
  | returned v => .returned v.alike_plain
  | fn _ _ _ => .fn

/-- The marks are not printed. -/
theorem text_plain : ∀ v : Value, v.plain.text = v.text
  | int _ => rfl
  | bool _ => rfl
  | null => rfl
  | error _ => rfl
  | returned v => text_plain v
  | fn _ (.mk _ ss) _ => by
    rw [plain, text, text, Block.plainBody, Block.text, Block.text, Stmt.texts_rebrace]

/-- The marks need no depth. -/
theorem fits_plain (depth : Nat) : ∀ v : Value, v.plain.fits depth = v.fits depth
  | int _ => rfl
  | bool _ => rfl
  | null => rfl
  | error _ => rfl
  | returned v => fits_plain depth v
  | fn _ (.mk _ ss) _ => by
    cases depth with
    | zero => rfl
    | succ depth =>
      rw [plain, fits, fits, Block.plainBody, Block.fits, Block.fits, Stmt.fitsAll_rebrace]

theorem unwrap_plain (v : Value) : v.plain.unwrap = v.unwrap.plain := by
  cases v <;> rfl

/-- A value that is computed has no marks. -/
theorem Computed.plain_eq {v : Value} (h : v.Computed) : v.plain = v := by
  cases h <;> rfl

end Value

/-- The scope with plain values. -/
def Scope.plain (scope : Scope) : Scope := ⟨scope.bindings.mapValues Value.plain, scope.outer⟩

/-- The heap with plain values. -/
def Heap.plain (heap : Heap) : Heap := ⟨heap.scopes.map Scope.plain⟩

/-- The machine with plain values. -/
def Machine.plain (machine : Machine) : Machine := { machine with heap := machine.heap.plain }

namespace Heap

variable {heap : Heap} {scope : ScopeId} {name : String}

/-- A heap without its marks has as many scopes. -/
@[simp]
theorem size_plain (heap : Heap) : heap.plain.scopes.size = heap.scopes.size := Array.size_map

/-- Each of them is that scope without its marks. -/
theorem scope_plain (heap : Heap) (id : ScopeId) :
    heap.plain.scopes[id]? = (heap.scopes[id]?).map Scope.plain := Array.getElem?_map

/-- A name is found at the same place, and its value there without marks. -/
theorem get?_plain (depth : Nat) : heap.plain.get? name depth scope =
    (heap.get? name depth scope).map (Option.map Value.plain) := by
  induction depth generalizing scope with
  | zero => rfl
  | succ depth ih =>
    unfold Heap.get?
    rw [scope_plain]
    cases heap.scopes[scope]? with
    | none => rfl
    | some s =>
      simp only [Option.map_some, Scope.plain, Bindings.get?_mapValues]
      cases s.bindings.get? name with
      | some => rfl
      | none =>
        cases s.outer with
        | none => rfl
        | some outer => exact ih

/-- The marks can be taken off before or after a name is bound. -/
theorem plain_set (v : Value) :
    (heap.set scope name v).plain = heap.plain.set scope name v.plain := by
  have hscope : ∀ id : ScopeId, (heap.set scope name v).plain.scopes[id]? =
      (heap.plain.set scope name v.plain).scopes[id]? := by
    intro id
    rw [scope_plain]
    unfold Heap.set
    rw [Array.getElem?_modify, Array.getElem?_modify, scope_plain]
    split
    · cases heap.scopes[id]? with
      | none => rfl
      | some s => simp only [Option.map_some, Scope.plain, Bindings.mapValues_set]
    · rfl
  exact congrArg Heap.mk (Array.ext_getElem? hscope)

theorem plain_allocate (s : Scope) :
    (heap.allocate s).2.plain = (heap.plain.allocate s.plain).2 :=
  congrArg Heap.mk Array.map_push

end Heap

namespace EvalM

/-- Steps that do on a plain machine what others do: they end alike, with the result that `g` makes
of theirs. -/
def Plains (g : α → β) (x : EvalM α) (y : EvalM β) : Prop :=
  ∀ m : Machine, y.run m.plain = match x.run m with
    | .ok a after => .ok (g a) after.plain
    | .error e after => .error e after.plain

namespace Plains

variable {g : α → β} {h : γ → δ} {x x' : EvalM α} {y y' : EvalM β} {f : α → EvalM γ}
  {k : β → EvalM δ} {verbosity : Int} {depth : Nat} {scope : ScopeId} {name : String}

/-- A result without its marks corresponds to the result. -/
theorem pure {a : α} {b : β} (hb : b = g a) : Plains g (pure a) (pure b) := fun _ => by
  rw [hb]
  rfl

/-- Giving up corresponds to giving up. -/
theorem exceed : Plains g EvalM.exceed EvalM.exceed := fun _ => rfl

/-- Steps in sequence correspond if each of them does. -/
theorem bind (hx : Plains g x y) (hf : ∀ a, Plains h (f a) (k (g a))) :
    Plains h (x >>= f) (y >>= k) := by
  intro m
  rw [run_bind, run_bind, hx m]
  cases x.run m with
  | error => rfl
  | ok a after => exact hf a after

/-- So does a choice between steps that do. -/
theorem ite {c : Prop} [Decidable c] (hx : Plains g x y) (hx' : Plains g x' y') :
    Plains g (if c then x else x') (if c then y else y') := by
  split
  · exact hx
  · exact hx'

/-- Events have no marks. -/
theorem record (message : Message) : Plains id (EvalM.record message) (EvalM.record message) :=
  fun _ => rfl

/-- The marks of a value cannot be seen when it is shown. -/
theorem shown (depth : Nat) (v : Value) :
    Plains id (EvalM.shown depth v) (EvalM.shown depth v.plain) := by
  unfold EvalM.shown Value.text?
  rw [v.fits_plain, v.text_plain]
  cases v.fits depth with
  | false => exact .exceed
  | true => exact .pure rfl

theorem shownExpr (depth : Nat) (brace : Nat → Token) (e : Expr) :
    Plains id (EvalM.shownExpr depth e) (EvalM.shownExpr depth (e.rebrace brace)) := by
  unfold EvalM.shownExpr
  rw [e.fits_rebrace, e.text_rebrace]
  exact .ite (.pure rfl) .exceed

theorem mapM_shown (depth : Nat) (values : List Value) :
    Plains id (values.mapM (EvalM.shown depth))
      ((values.map Value.plain).mapM (EvalM.shown depth)) := by
  induction values with
  | nil => exact .pure rfl
  | cons first rest ih =>
    rw [List.map_cons, List.mapM_cons, List.mapM_cons]
    exact (shown depth first).bind fun _ => ih.bind fun _ => .pure rfl

/-- A fault has no marks. -/
theorem raise (fault : Fault) :
    Plains Value.plain (EvalM.raise verbosity fault) (EvalM.raise verbosity fault) := by
  unfold EvalM.raise
  exact .ite ((record _).bind fun _ => .pure rfl) (.pure rfl)

/-- Neither has the result of an operator. -/
theorem settle {result : Except Fault Value} (hresult : ∀ v, result = .ok v → v.Computed) :
    Plains Value.plain (EvalM.settle verbosity result) (EvalM.settle verbosity result) := by
  cases result with
  | error fault => exact .raise fault
  | ok v => exact .pure (hresult v rfl).plain_eq.symm

/-- Binding a name corresponds to binding it to the value without marks. -/
theorem define (v : Value) :
    Plains id (EvalM.define scope name v) (EvalM.define scope name v.plain) := by
  intro m
  have hheap : m.plain.heap.set scope name v.plain = (m.heap.set scope name v).plain :=
    (Heap.plain_set v).symm
  have hrun : (EvalM.define scope name v.plain).run m.plain =
    .ok () { m.plain with heap := m.plain.heap.set scope name v.plain } := rfl
  rw [hrun, hheap]
  rfl

/-- What is looked up corresponds. -/
theorem lookup : Plains (Option.map Value.plain) (EvalM.lookup depth scope name)
    (EvalM.lookup depth scope name) := by
  intro m
  have hget : m.plain.heap.get? name depth scope =
      (m.heap.get? name depth scope).map (Option.map Value.plain) := Heap.get?_plain depth
  rw [run_lookup, run_lookup, hget]
  cases m.heap.get? name depth scope <;> rfl

theorem allocate (s : Scope) : Plains id (EvalM.allocate s) (EvalM.allocate s.plain) := by
  intro m
  have hheap : (m.plain.heap.allocate s.plain).2 = (m.heap.allocate s).2.plain :=
    (Heap.plain_allocate s).symm
  have hsize : m.plain.heap.scopes.size = m.heap.scopes.size := m.heap.size_plain
  have hrun : (EvalM.allocate s.plain).run m.plain = .ok m.plain.heap.scopes.size
    { m.plain with heap := (m.plain.heap.allocate s.plain).2 } := rfl
  rw [hrun, hheap, hsize]
  rfl

theorem nested (hx : Plains g x y) : Plains g (EvalM.nested x) (EvalM.nested y) := by
  intro m
  have henter : m.plain.enter = m.enter.plain := rfl
  rw [run_nested, run_nested, henter, hx]
  cases x.run m.enter <;> rfl

/-- An operand that interrupts in one run interrupts in the other. -/
theorem bind_value {x y : EvalM Value} {f k : Value → EvalM α} {first second : Value → α}
    {g : α → α} (hx : Plains Value.plain x y) (hfirst : ∀ v, second v.plain = g (first v))
    (hf : ∀ v, Plains g (f v) (k v.plain)) :
    Plains g (do let v ← x; if v.interrupts then return first v else f v)
      (do let v ← y; if v.interrupts then return second v else k v) := by
  refine hx.bind fun v => ?_
  rw [← v.alike_plain.interrupts_eq]
  exact .ite (.pure (hfirst v)) (hf v)

end Plains

end EvalM

/-- An evaluator of expressions that does not look at marks. -/
def Evaluator.Plain (eval : Evaluator) : Prop :=
  ∀ (scope : ScopeId) (e : Expr),
    Plains Value.plain (eval scope e) (eval scope (e.rebrace fun _ => Token.brace 0))

section Evaluator

variable {verbosity : Int} {depth : Nat} {eval : Evaluator} {scope : ScopeId}

mutual

/-- A statement runs alike without its marks, if its expressions do. -/
theorem Stmt.plains (he : eval.Plain) : ∀ a : Stmt,
    Plains (Option.map Value.plain) (a.eval verbosity depth eval scope)
      ((a.rebrace fun _ => Token.brace 0).eval verbosity depth eval scope)
  | .bare _ e => by
    rw [Stmt.rebrace, Stmt.eval, Stmt.eval]
    exact (he scope e).bind fun _ => .pure rfl
  | .define _ name e => by
    rw [Stmt.rebrace, Stmt.eval, Stmt.eval]
    refine (he scope e).bind_value (fun _ => rfl) fun v => ?_
    refine (Plains.define v).bind fun _ => .ite ?_ (.pure rfl)
    exact (Plains.shown depth v).bind fun _ => (Plains.record _).bind fun _ => .pure rfl
  | .ret _ none => by
    rw [Stmt.rebrace, Expr.rebraceOption, Stmt.eval]
    exact .pure rfl
  | .ret _ (some e) => by
    rw [Stmt.rebrace, Expr.rebraceOption, Stmt.eval, Stmt.eval]
    refine (he scope e).bind fun v => .pure ?_
    rw [← v.alike_plain.interrupts_eq]
    cases v.interrupts <;> rfl
  | .block inner => by
    rw [Stmt.rebrace, Stmt.eval, Stmt.eval]
    exact Block.plains he inner

theorem Block.plains (he : eval.Plain) : ∀ b : Block,
    Plains (Option.map Value.plain) (b.eval verbosity depth eval scope)
      ((b.rebrace fun _ => Token.brace 0).eval verbosity depth eval scope)
  | .mk _ ss => by
    rw [Block.rebrace, Block.eval, Block.eval]
    exact Stmt.plains_all he none ss

theorem Stmt.plains_all (he : eval.Plain) : ∀ (last : Option Value) (ss : List Stmt),
    Plains (Option.map Value.plain) (Stmt.evalAll verbosity depth eval scope last ss)
      (Stmt.evalAll verbosity depth eval scope (last.map Value.plain)
        (Stmt.rebraceAll (fun _ => Token.brace 0) ss))
  | last, [] => by
    rw [Stmt.rebraceAll, Stmt.evalAll, Stmt.evalAll]
    exact .pure rfl
  | _, a :: ss => by
    rw [Stmt.rebraceAll, Stmt.evalAll, Stmt.evalAll]
    refine (Stmt.plains he a).bind fun result => ?_
    cases result with
    | none => exact Stmt.plains_all he none ss
    | some v =>
      dsimp only [Option.map_some]
      rw [← v.alike_plain.interrupts_eq]
      exact .ite (.pure rfl) (Stmt.plains_all he (some v) ss)

end

theorem Expr.plains_arguments (he : eval.Plain) (es : List Expr) :
    Plains (fun result => match result with
        | .ok values => .ok (values.map Value.plain)
        | .error interrupt => .error interrupt.plain)
      (Expr.evalArguments eval scope es)
      (Expr.evalArguments eval scope (Expr.rebraceAll (fun _ => Token.brace 0) es)) := by
  induction es with
  | nil => exact .pure rfl
  | cons e es ih =>
    rw [Expr.rebraceAll, Expr.evalArguments, Expr.evalArguments]
    refine (he scope e).bind_value (fun _ => rfl) fun v => ih.bind fun result => ?_
    cases result with
    | ok => exact .pure rfl
    | error => exact .pure rfl

/-- The body of a plain function does what the body of the function does. -/
theorem Block.plains_body (he : eval.Plain) (body : Block) :
    Plains (Option.map Value.plain) (body.eval verbosity depth eval scope)
      (body.plainBody.eval verbosity depth eval scope) := by
  cases body with
  | mk token ss =>
    rw [Block.plainBody, Block.eval, Block.eval]
    exact Stmt.plains_all he none ss

/-- So does a call, the body of which has lost its marks with the function. -/
theorem Value.plains_call (he : eval.Plain) (callee : Value) (arguments : List Value) :
    Plains Value.plain (callee.call verbosity depth eval arguments)
      (callee.plain.call verbosity depth eval (arguments.map Value.plain)) := by
  cases callee with
  | fn parameters body outer =>
    have hbindings : argumentBindings parameters (arguments.map Value.plain) =
        (argumentBindings parameters arguments).mapValues Value.plain :=
      (argumentBindings_mapValues rfl parameters arguments).symm
    have hscope : (⟨argumentBindings parameters (arguments.map Value.plain), some outer⟩ : Scope) =
        (⟨argumentBindings parameters arguments, some outer⟩ : Scope).plain := by
      rw [hbindings]
      rfl
    rw [Value.plain, Value.call, Value.call, hscope]
    refine (Plains.allocate _).bind fun scope => ?_
    have hrest : Plains Value.plain
        (do
          let result ← EvalM.nested (body.eval verbosity depth eval scope)
          let result := (result.getD .null).unwrap
          if 1 ≤ verbosity then record (.returned (← EvalM.shown depth result))
          return result)
        (do
          let result ← EvalM.nested (body.plainBody.eval verbosity depth eval scope)
          let result := (result.getD .null).unwrap
          if 1 ≤ verbosity then record (.returned (← EvalM.shown depth result))
          return result) := by
      refine (Plains.nested (Block.plains_body he body)).bind fun result => ?_
      have hresult : ((result.map Value.plain).getD .null).unwrap =
          ((result.getD .null).unwrap).plain := by
        rw [← Value.unwrap_plain]
        cases result <;> rfl
      rw [hresult]
      refine .ite ?_ (.pure rfl)
      exact (Plains.shown depth _).bind fun _ => (Plains.record _).bind fun _ => .pure rfl
    refine .ite ?_ hrest
    exact (Plains.mapM_shown depth arguments).bind fun _ => (Plains.record _).bind fun _ => hrest
  | int | bool | null | error | returned => exact .raise _

/-- The value of a branch, null if it has none. -/
theorem Block.plains_branch (he : eval.Plain) (b : Block) :
    Plains Value.plain (do return (← b.eval verbosity depth eval scope).getD .null)
      (do return (← (b.rebrace fun _ => Token.brace 0).eval verbosity depth eval
        scope).getD .null) := by
  refine (Block.plains he b).bind fun result => .pure ?_
  cases result <;> rfl

end Evaluator

/-- A choice between two branches. -/
theorem EvalM.Plains.cond {verbosity : Int} {depth : Nat} {e : Expr} {brace : Nat → Token}
    {x x' y y' z z' : EvalM Value} (hx : Plains Value.plain x x') (hy : Plains Value.plain y y')
    (hz : Plains Value.plain z z') :
    Plains Value.plain
      (do
        let value ← x
        if value.interrupts then return value
        if 3 ≤ verbosity then
          let text ← EvalM.shownExpr depth e
          EvalM.record (.tested text (← EvalM.shown depth value) value.isTruthy)
        if value.isTruthy then y else z)
      (do
        let value ← x'
        if value.interrupts then return value
        if 3 ≤ verbosity then
          let text ← EvalM.shownExpr depth (e.rebrace brace)
          EvalM.record (.tested text (← EvalM.shown depth value) value.isTruthy)
        if value.isTruthy then y' else z') := by
  refine hx.bind_value (fun _ => rfl) fun v => ?_
  have hrest : Plains Value.plain (if v.isTruthy then y else z) (if v.isTruthy then y' else z') :=
    .ite hy hz
  rw [← v.alike_plain.isTruthy_eq]
  refine .ite ?_ hrest
  exact (shownExpr depth brace e).bind fun _ => (shown depth v).bind fun _ =>
    (record _).bind fun _ => hrest

/-- Evaluation does not look at marks. -/
theorem Expr.plains (verbosity : Int) (depth : Nat) :
    Evaluator.Plain (Expr.eval verbosity depth) := by
  induction depth with
  | zero =>
    intro scope e
    rw [Expr.eval, Expr.eval]
    exact .exceed
  | succ depth ih =>
    intro scope e
    cases e with
    | int =>
      rw [Expr.rebrace, Expr.eval]
      exact .pure rfl
    | bool =>
      rw [Expr.rebrace, Expr.eval]
      exact .pure rfl
    | fn token parameters body =>
      cases body with
      | mk brace ss =>
        rw [Expr.rebrace, Expr.eval, Expr.eval]
        exact .pure rfl
    | ident name =>
      rw [Expr.rebrace, Expr.eval]
      refine Plains.lookup.bind fun found => ?_
      cases found with
      | none => exact .raise _
      | some v => exact .pure rfl
    | unary token operator operand =>
      rw [Expr.rebrace, Expr.eval, Expr.eval]
      refine (ih scope operand).bind_value (fun _ => rfl) fun v => ?_
      rw [← v.alike_plain.unary_eq]
      exact .settle fun _ => Value.computed_unary
    | binary token left operator right =>
      rw [Expr.rebrace, Expr.eval, Expr.eval]
      refine (ih scope left).bind_value (fun _ => rfl) fun v => ?_
      refine (ih scope right).bind_value (fun _ => rfl) fun u => ?_
      rw [← v.alike_plain.binary_eq u.alike_plain]
      exact .settle fun _ => Value.computed_binary
    | cond token condition consequence alternative =>
      cases alternative with
      | none =>
        rw [Expr.rebrace, Block.rebraceOption, Expr.eval, Expr.eval]
        exact .cond (ih scope condition) (Block.plains_branch ih consequence) (.pure rfl)
      | some block =>
        rw [Expr.rebrace, Block.rebraceOption, Expr.eval, Expr.eval]
        exact .cond (ih scope condition) (Block.plains_branch ih consequence)
          (Block.plains_branch ih block)
    | call token callee arguments =>
      rw [Expr.rebrace, Expr.eval, Expr.eval]
      refine (ih scope callee).bind_value (fun _ => rfl) fun v => ?_
      refine (Expr.plains_arguments ih arguments).bind fun result => ?_
      cases result with
      | ok values => exact Value.plains_call ih v values
      | error => exact .pure rfl

/-- A plain program does on a plain machine what the program does. -/
theorem Program.plains (verbosity : Int) (depth : Nat) (scope : ScopeId) (program : Program) :
    Plains (Option.map Value.plain) (program.eval verbosity depth scope)
      (program.plain.eval verbosity depth scope) := by
  unfold Program.eval Program.plain Program.rebrace
  refine (Stmt.plains_all (Expr.plains verbosity depth) none program.statements).bind
    fun result => .pure ?_
  cases result with
  | none => rfl
  | some v => exact congrArg some v.unwrap_plain

/-- Programs that are the same but for their marks end alike, with the same value but for marks, and
leave machines behind that are the same but for marks. -/
theorem Machine.run_plain (machine : Machine) (verbosity : Int) (depth : Nat) (scope : ScopeId)
    (program : Program) : machine.plain.run verbosity depth scope program.plain =
      ⟨(machine.run verbosity depth scope program).outcome.map (Option.map Value.plain),
        (machine.run verbosity depth scope program).machine.plain⟩ := by
  unfold Machine.run
  rw [Program.plains verbosity depth scope program machine]
  cases (program.eval verbosity depth scope).run machine <;> rfl

end Inkwell
