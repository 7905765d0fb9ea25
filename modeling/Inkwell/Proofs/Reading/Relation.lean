import Inkwell.Reading.Program

/-!
# What all readers have in common

Every reader is built from a few steps on the cursor. A relation between readers that these steps
respect therefore relates any two readers that are built alike, as soon as it relates the readers
of nested expressions that they are given. This is said once here, with one rule for each reader;
that reading only moves forward and that more depth changes nothing are two instances. The relation
may also be data about a reader: a record of what it does is put together by the same rules.

Loops ask how many tokens are left, to know how many rounds they may take. A relation that does not
respect this question still relates all readers without loops of their own, if it relates the loops
inside.
-/

namespace Inkwell.Reading

universe u v

/-- The integer literal at the cursor, if there is one. -/
def integerOperand : ParseM Expr := do
  let token ← current
  if token.kind = .int then integerLiteral else reject (.noOperand token.kind)

/-- An operand is an integer literal only if the current token is one. -/
theorem operand_eq (e : Int → ParseM Expr) : operand e = (do
    match (← current).kind with
    | .ident => return .ident (← identifier)
    | .int => integerOperand
    | .trueKw | .falseKw => booleanLiteral
    | .bang | .minus => unaryExpression e
    | .lparen => groupedExpression e
    | .ifKw => ifExpression e
    | .fnKw => functionLiteral e
    | kind => reject (.noOperand kind)) := by
  refine OptionT.ext (funext fun cursor => ?_)
  obtain ⟨_ | ⟨⟨kind, literal⟩, rest⟩, diagnostics⟩ := cursor
  · rfl
  · cases kind <;> rfl

/-- An integer literal respects what its steps respect, if the end of reading does, too. -/
def respectedIntegerOperand (parses : ∀ {α : Type}, ParseM α → ParseM α → Sort v)
    (pure : ∀ {α : Type} (a : α), parses (pure a) (pure a))
    (bind : ∀ {α β : Type} {x x' : ParseM α} {f f' : α → ParseM β}, parses x x' →
      (∀ a, parses (f a) (f' a)) → parses (x >>= f) (x' >>= f'))
    (current : parses (liftM current) (liftM current))
    (reject : ∀ {α : Type} (diagnostic : Diagnostic),
      parses (reject diagnostic : ParseM α) (reject diagnostic))
    (stop : ∀ {α : Type} (cause : Stop), parses (α := α) (stop cause) (stop cause)) :
    parses integerOperand integerOperand := by
  refine bind current fun token => ?_
  split
  · refine bind current fun token => ?_
    split
    · exact stop _
    · split
      · exact stop _
      · dsimp only
        split
        · exact reject _
        · exact pure _
  · exact reject _

/-- The steps that readers are built from are related to themselves, and sequences of related
readers are related. `steps` is about readers that always succeed, `parses` about readers that may
give up. -/
structure Composed (steps : ∀ {α : Type}, ReadM α → ReadM α → Sort u)
    (parses : ∀ {α : Type}, ParseM α → ParseM α → Sort v) : Sort (max 2 u v) where
  /-- A result without a step. -/
  pure_steps : ∀ {α : Type} (a : α), steps (pure a) (pure a)
  /-- A sequence of steps. -/
  bind_steps : ∀ {α β : Type} {x x' : ReadM α} {f f' : α → ReadM β}, steps x x' →
    (∀ a, steps (f a) (f' a)) → steps (x >>= f) (x' >>= f')
  /-- The current token. -/
  current : steps current current
  /-- The upcoming token. -/
  upcoming : steps upcoming upcoming
  /-- The move to the upcoming token. -/
  advance : steps advance advance
  /-- A result of a reader that may give up. -/
  pure_parses : ∀ {α : Type} (a : α), parses (pure a) (pure a)
  /-- A sequence of readers that may give up. -/
  bind_parses : ∀ {α β : Type} {x x' : ParseM α} {f f' : α → ParseM β}, parses x x' →
    (∀ a, parses (f a) (f' a)) → parses (x >>= f) (x' >>= f')
  /-- A step among readers that may give up. -/
  lift : ∀ {α : Type} {x x' : ReadM α}, steps x x' → parses (liftM x) (liftM x')
  /-- Giving up. -/
  reject : ∀ {α : Type} (diagnostic : Diagnostic),
    parses (reject diagnostic : ParseM α) (reject diagnostic)
  /-- An integer literal, the one operand that can end the reading. -/
  integerOperand : parses integerOperand integerOperand
  /-- The optional semicolon behind a statement. -/
  terminated : ∀ {α : Type} {x x' : ParseM α}, parses x x' →
    parses (terminated x) (terminated x')
  /-- The statement of a loop, which goes on whether it was given up or not. -/
  attempted : ∀ {α : Type} {x x' : ParseM α}, parses x x' → steps x.run x'.run

/-- The question for the tokens left is related to itself, too. -/
structure Respected (steps : ∀ {α : Type}, ReadM α → ReadM α → Sort u)
    (parses : ∀ {α : Type}, ParseM α → ParseM α → Sort v) :
    Sort (max 2 u v) extends Composed steps parses where
  /-- The tokens left. -/
  remaining : steps remaining remaining

section Readers

variable {steps : ∀ {α : Type}, ReadM α → ReadM α → Sort u}
  {parses : ∀ {α : Type}, ParseM α → ParseM α → Sort v} {e f : Int → ParseM Expr}

namespace Composed

/-- Expecting a token. -/
def expect (h : Composed steps parses) (wanted : Token.Kind) :
    parses (expect wanted) (expect wanted) := by
  refine h.bind_parses (h.lift h.upcoming) fun token => ?_
  split
  · exact h.lift h.advance
  · exact h.reject _

/-- A name. -/
def identifier (h : Composed steps parses) : steps identifier identifier :=
  h.bind_steps h.current fun _ => h.pure_steps _

/-- A `let`, if its value is respected. -/
def letStatement (h : Composed steps parses) (he : ∀ level, parses (e level) (f level)) :
    parses (letStatement e) (letStatement f) := by
  refine h.bind_parses (h.lift h.current) fun _ => ?_
  refine h.bind_parses (h.expect _) fun _ => ?_
  refine h.bind_parses (h.lift h.identifier) fun _ => ?_
  refine h.bind_parses (h.expect _) fun _ => ?_
  refine h.bind_parses (h.lift h.advance) fun _ => ?_
  exact h.bind_parses (h.terminated (he _)) fun _ => h.pure_parses _

/-- A `return`, if its value is respected where it has one. -/
def returnStatement (h : Composed steps parses) (he : ∀ level, parses (e level) (f level)) :
    parses (returnStatement e) (returnStatement f) := by
  refine h.bind_parses (h.lift h.current) fun _ => ?_
  refine h.bind_parses (h.lift h.upcoming) fun token => ?_
  split
  · exact h.bind_parses (h.lift h.advance) fun _ => h.pure_parses _
  · exact h.pure_parses _
  · exact h.pure_parses _
  · refine h.bind_parses (h.lift h.advance) fun _ => ?_
    exact h.bind_parses (h.terminated (he _)) fun _ => h.pure_parses _

/-- An expression as a statement. -/
def bareStatement (h : Composed steps parses) (he : ∀ level, parses (e level) (f level)) :
    parses (bareStatement e) (bareStatement f) := by
  refine h.bind_parses (h.lift h.current) fun _ => ?_
  exact h.bind_parses (h.terminated (he _)) fun _ => h.pure_parses _

/-- A statement of any kind. -/
def statement (h : Composed steps parses) (he : ∀ level, parses (e level) (f level)) :
    parses (statement e) (statement f) := by
  refine h.bind_parses (h.lift h.current) fun token => ?_
  split
  · exact h.letStatement he
  · exact h.returnStatement he
  · exact h.bareStatement he

/-- A truth value. -/
def booleanLiteral (h : Composed steps parses) : steps booleanLiteral booleanLiteral :=
  h.bind_steps h.current fun _ => h.pure_steps _

/-- An operator before its operand. -/
def unaryExpression (h : Composed steps parses)
    (he : ∀ level, parses (e level) (f level)) :
    parses (unaryExpression e) (unaryExpression f) := by
  refine h.bind_parses (h.lift h.current) fun _ => ?_
  refine h.bind_parses (h.lift h.advance) fun _ => ?_
  exact h.bind_parses (he _) fun _ => h.pure_parses _

/-- An expression in parentheses. -/
def groupedExpression (h : Composed steps parses)
    (he : ∀ level, parses (e level) (f level)) :
    parses (groupedExpression e) (groupedExpression f) := by
  refine h.bind_parses (h.lift h.advance) fun _ => ?_
  refine h.bind_parses (he _) fun _ => ?_
  exact h.bind_parses (h.expect _) fun _ => h.pure_parses _

/-- A choice, if its condition and its blocks are respected. -/
def ifExpression (h : Composed steps parses) (he : ∀ level, parses (e level) (f level))
    (hb : steps (block e) (block f)) :
    parses (ifExpression e) (ifExpression f) := by
  refine h.bind_parses (h.lift h.current) fun _ => ?_
  refine h.bind_parses (h.expect _) fun _ => ?_
  refine h.bind_parses (h.lift h.advance) fun _ => ?_
  refine h.bind_parses (he _) fun _ => ?_
  refine h.bind_parses (h.expect _) fun _ => ?_
  refine h.bind_parses (h.expect _) fun _ => ?_
  refine h.bind_parses (h.lift hb) fun _ => ?_
  refine h.bind_parses (h.lift h.upcoming) fun token => ?_
  split
  · refine h.bind_parses (h.lift h.advance) fun _ => ?_
    refine h.bind_parses (h.expect _) fun _ => ?_
    exact h.bind_parses (h.lift hb) fun _ => h.pure_parses _
  · exact h.pure_parses _

/-- A function literal, if its parameters and its body are respected. -/
def functionLiteral (h : Composed steps parses)
    (hp : parses functionParameters functionParameters) (hb : steps (block e) (block f)) :
    parses (functionLiteral e) (functionLiteral f) := by
  refine h.bind_parses (h.lift h.current) fun _ => ?_
  refine h.bind_parses (h.expect _) fun _ => ?_
  refine h.bind_parses hp fun _ => ?_
  refine h.bind_parses (h.expect _) fun _ => ?_
  exact h.bind_parses (h.lift hb) fun _ => h.pure_parses _

/-- An operand of any kind. -/
def operand (h : Composed steps parses) (he : ∀ level, parses (e level) (f level))
    (hp : parses functionParameters functionParameters) (hb : steps (block e) (block f)) :
    parses (operand e) (operand f) := by
  rw [operand_eq, operand_eq]
  refine h.bind_parses (h.lift h.current) fun token => ?_
  split
  · exact h.bind_parses (h.lift h.identifier) fun _ => h.pure_parses _
  · exact h.integerOperand
  · exact h.lift h.booleanLiteral
  · exact h.lift h.booleanLiteral
  · exact h.unaryExpression he
  · exact h.unaryExpression he
  · exact h.groupedExpression he
  · exact h.ifExpression he hb
  · exact h.functionLiteral hp hb
  · exact h.reject _

/-- A call, if its arguments are respected. -/
def callExpression (h : Composed steps parses)
    (hl : ∀ close, parses (expressionList e close) (expressionList f close)) (left : Expr) :
    parses (callExpression e left) (callExpression f left) := by
  refine h.bind_parses (h.lift h.current) fun _ => ?_
  exact h.bind_parses (hl _) fun _ => h.pure_parses _

/-- An operator with its right operand. -/
def binaryExpression (h : Composed steps parses)
    (he : ∀ level, parses (e level) (f level)) (left : Expr) :
    parses (binaryExpression e left) (binaryExpression f left) := by
  refine h.bind_parses (h.lift h.current) fun _ => ?_
  refine h.bind_parses (h.lift h.advance) fun _ => ?_
  exact h.bind_parses (he _) fun _ => h.pure_parses _

/-- The continuation of an expression by an operator or a call. -/
def extend (h : Composed steps parses) (he : ∀ level, parses (e level) (f level))
    (hl : ∀ close, parses (expressionList e close) (expressionList f close)) (left : Expr) :
    parses (extend e left) (extend f left) := by
  refine h.bind_parses (h.lift h.current) fun token => ?_
  split
  · exact h.callExpression hl left
  · exact h.binaryExpression he left

/-- A choice between two readers is related to the same choice between two others. -/
def choice {α : Type} {x x' y y' : ReadM α} (p : Prop) [decision : Decidable p] (hx : steps x x')
    (hy : steps y y') : steps (if p then x else y) (if p then x' else y') :=
  match decision with
  | .isTrue _ => hx
  | .isFalse _ => hy

/-- Each round has a statement read, and goes on behind it. -/
def statementsUntil (h : Composed steps parses)
    (he : ∀ level, parses (e level) (f level)) (ends : Token.Kind → Bool) :
    (rounds : List Token) → (kept : Array Stmt) →
      steps (statementsUntil ends e rounds kept) (statementsUntil ends f rounds kept)
  | [], kept => h.pure_steps kept.toList
  | _ :: rounds, kept => h.bind_steps h.current fun token =>
    choice (token.kind = .eof ∨ ends token.kind) (h.pure_steps kept.toList)
      (h.bind_steps (h.attempted (h.statement he)) fun result =>
        h.bind_steps h.advance fun _ =>
          statementsUntil h he ends rounds (kept ++ result.toArray))

/-- The parameters behind the first one, in the given rounds. -/
def moreParameters (h : Composed steps parses) : (rounds : List Token) → (found : Array Ident) →
    parses (moreParameters rounds found) (moreParameters rounds found)
  | [], _ => h.pure_parses _
  | _ :: rounds, _ => by
    refine h.bind_parses (h.lift h.upcoming) fun token => ?_
    split
    · refine h.bind_parses (h.lift h.advance) fun _ => ?_
      refine h.bind_parses (h.expect _) fun _ => ?_
      exact h.bind_parses (h.lift h.identifier) fun _ => moreParameters h rounds _
    · exact h.pure_parses _

/-- The expressions behind the first one, in the given rounds. -/
def moreExpressions (h : Composed steps parses) (he : ∀ level, parses (e level) (f level)) :
    (rounds : List Token) → (found : Array Expr) →
      parses (moreExpressions e rounds found) (moreExpressions f rounds found)
  | [], _ => h.pure_parses _
  | _ :: rounds, _ => by
    refine h.bind_parses (h.lift h.upcoming) fun token => ?_
    split
    · refine h.bind_parses (h.lift h.advance) fun _ => ?_
      refine h.bind_parses (h.lift h.advance) fun _ => ?_
      exact h.bind_parses (he _) fun _ => moreExpressions h he rounds _
    · exact h.pure_parses _

/-- The operators and calls behind an operand, in the given rounds. -/
def extendAll (h : Composed steps parses)
    (hextend : ∀ left, parses (Reading.extend e left) (Reading.extend f left)) (level : Int) :
    (rounds : List Token) → (left : Expr) →
      parses (extendAll e level rounds left) (extendAll f level rounds left)
  | [], _ => h.pure_parses _
  | _ :: rounds, left => by
    refine h.bind_parses (h.lift h.upcoming) fun token => ?_
    dsimp only
    split
    · refine h.bind_parses (h.lift h.advance) fun _ => ?_
      exact h.bind_parses (hextend left) fun _ => extendAll h hextend level rounds _
    · exact h.pure_parses _

end Composed

namespace Respected

/-- A block, whose loop asks for its rounds. -/
def block (h : Respected steps parses) (he : ∀ level, parses (e level) (f level)) :
    steps (block e) (block f) := by
  refine h.bind_steps h.current fun _ => ?_
  refine h.bind_steps h.advance fun _ => ?_
  refine h.bind_steps h.remaining fun rounds => ?_
  exact h.bind_steps (h.statementsUntil he _ rounds _) fun _ => h.pure_steps _

/-- A program, whose loop asks for its rounds. -/
def program (h : Respected steps parses) (he : ∀ level, parses (e level) (f level)) :
    steps (program e) (program f) := by
  refine h.bind_steps h.remaining fun rounds => ?_
  exact h.bind_steps (h.statementsUntil he _ rounds _) fun _ => h.pure_steps _

/-- The parameters of a function. -/
def functionParameters (h : Respected steps parses) :
    parses functionParameters functionParameters := by
  refine h.bind_parses (h.lift h.upcoming) fun token => ?_
  split
  · exact h.bind_parses (h.lift h.advance) fun _ => h.pure_parses _
  · refine h.bind_parses (h.expect _) fun _ => ?_
    refine h.bind_parses (h.lift h.identifier) fun _ => ?_
    refine h.bind_parses (h.lift h.remaining) fun rounds => ?_
    refine h.bind_parses (h.moreParameters rounds _) fun _ => ?_
    exact h.bind_parses (h.expect _) fun _ => h.pure_parses _

/-- An operand of any kind, with the loops inside. -/
def operand (h : Respected steps parses) (he : ∀ level, parses (e level) (f level)) :
    parses (operand e) (operand f) :=
  h.toComposed.operand he h.functionParameters (h.block he)

/-- The arguments of a call. -/
def expressionList (h : Respected steps parses)
    (he : ∀ level, parses (e level) (f level)) (close : Token.Kind) :
    parses (expressionList e close) (expressionList f close) := by
  refine h.bind_parses (h.lift h.upcoming) fun token => ?_
  split
  · exact h.bind_parses (h.lift h.advance) fun _ => h.pure_parses _
  · refine h.bind_parses (h.lift h.advance) fun _ => ?_
    refine h.bind_parses (he _) fun _ => ?_
    refine h.bind_parses (h.lift h.remaining) fun rounds => ?_
    refine h.bind_parses (h.moreExpressions he rounds _) fun _ => ?_
    exact h.bind_parses (h.expect _) fun _ => h.pure_parses _

/-- The continuation of an expression, with the loop over the arguments. -/
def extend (h : Respected steps parses) (he : ∀ level, parses (e level) (f level))
    (left : Expr) : parses (extend e left) (extend f left) :=
  h.toComposed.extend he (h.expressionList he) left

/-- The operators and calls behind an operand, with the loops inside. -/
def extendAll (h : Respected steps parses) (he : ∀ level, parses (e level) (f level))
    (level : Int) (rounds : List Token) (left : Expr) :
    parses (extendAll e level rounds left) (extendAll f level rounds left) :=
  h.toComposed.extendAll (h.extend he) level rounds left

/-- One more level of nested expressions. -/
def nested (h : Respected steps parses) (he : ∀ level, parses (e level) (f level))
    (level : Int) :
    parses (do let left ← Reading.operand e; Reading.extendAll e level (← Reading.remaining) left)
      (do let left ← Reading.operand f
          Reading.extendAll f level (← Reading.remaining) left) := by
  refine h.bind_parses (h.operand he) fun left => ?_
  exact h.bind_parses (h.lift h.remaining) fun rounds => h.extendAll he level rounds left

end Respected

end Readers

end Inkwell.Reading
