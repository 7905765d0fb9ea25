import Inkwell.Limits
import Inkwell.Text.Decimal
import Inkwell.Tree.Basic

/-!
# The grammar

Which lists of tokens are programs, and which trees they stand for. Expressions come in strata: a
binary operator takes an operand of its own stratum on the left and one of the next tighter stratum
on the right, so operators of one stratum group to the left.

Every judgement has two lists of tokens, the second behind the first: `IsExpr s tokens rest e` says
that `tokens` start with an expression `e` of stratum `s`, and that `rest` is what stands behind it.
The rest matters in three places only. A semicolon may be missing where the next token cannot
continue the expression, a `return` may stand alone before a closing brace and at the end, and a
closing brace may be missing at the end. Nothing here refers to how programs are read.
-/

namespace Inkwell.Grammar

/-- The kind of the next token, which is the end of the input behind the last one. -/
def nextKind : List Token → Token.Kind
  | [] => .eof
  | token :: _ => token.kind

/-- The strata of expressions, from the loosest to the tightest. -/
inductive Stratum where
  | equality | comparison | sum | product
  /-- Operators before their operand. -/
  | unary
  /-- Calls. -/
  | call
  /-- Everything that has a first and a last token of its own. -/
  | atom
  deriving DecidableEq, Repr

/-- The next tighter stratum. -/
def Stratum.tighter : Stratum → Stratum
  | equality => comparison
  | comparison => sum
  | sum => product
  | product => unary
  | unary => call
  | call => atom
  | atom => atom

/-- The binary operators of a stratum. -/
def Stratum.operators : Stratum → List Token.Kind
  | equality => [.eq, .notEq]
  | comparison => [.lt, .gt]
  | sum => [.plus, .minus]
  | product => [.asterisk, .slash]
  | _ => []

/-- The kinds of token that continue an expression: the binary operators, and the parenthesis of a
call. -/
def continuing : List Token.Kind :=
  [.eq, .notEq, .lt, .gt, .plus, .minus, .asterisk, .slash, .lparen]

/-- The end of a statement behind an expression: a semicolon, which may be missing before a token
that does not continue the expression. -/
inductive EndsStmt : List Token → List Token → Prop
  | semicolon {semicolon : Token} {rest : List Token} :
    semicolon.kind = .semicolon → EndsStmt (semicolon :: rest) rest
  | missing {rest : List Token} : nextKind rest ∉ continuing → EndsStmt rest rest

/-- One or more names between commas, and the closing parenthesis. -/
inductive AreNames : List Token → List Token → List Ident → Prop
  | last {name closing : Token} {rest : List Token} :
    name.kind = .ident → closing.kind = .rparen →
    AreNames (name :: closing :: rest) rest [⟨name, name.literal⟩]
  | more {name comma : Token} {tokens rest : List Token} {names : List Ident} :
    name.kind = .ident → comma.kind = .comma → AreNames tokens rest names →
    AreNames (name :: comma :: tokens) rest (⟨name, name.literal⟩ :: names)

/-- The parameters of a function, and the closing parenthesis. -/
inductive AreParameters : List Token → List Token → List Ident → Prop
  | none {closing : Token} {rest : List Token} :
    closing.kind = .rparen → AreParameters (closing :: rest) rest []
  | some {tokens rest : List Token} {names : List Ident} :
    AreNames tokens rest names → AreParameters tokens rest names

mutual

/-- An expression of a stratum. -/
inductive IsExpr : Stratum → List Token → List Token → Expr → Prop
  /-- A tighter expression is one of every looser stratum. -/
  | tighter {s : Stratum} {tokens rest : List Token} {e : Expr} :
    IsExpr s.tighter tokens rest e → IsExpr s tokens rest e
  /-- A binary operator between an operand of its own stratum and a tighter one. -/
  | binary {s : Stratum} {op : Token} {tokens right rest : List Token} {a b : Expr} :
    op.kind ∈ s.operators → IsExpr s tokens (op :: right) a → IsExpr s.tighter right rest b →
    IsExpr s tokens rest (.binary op a op.literal b)
  /-- An operator before its operand, which may have such an operator itself. -/
  | unary {op : Token} {tokens rest : List Token} {e : Expr} :
    op.kind = .bang ∨ op.kind = .minus → IsExpr .unary tokens rest e →
    IsExpr .unary (op :: tokens) rest (.unary op op.literal e)
  /-- A call of anything that calls may be made of. -/
  | call {opening : Token} {tokens inner rest : List Token} {f : Expr} {arguments : List Expr} :
    IsExpr .call tokens (opening :: inner) f → opening.kind = .lparen →
    AreArguments inner rest arguments → IsExpr .call tokens rest (.call opening f arguments)
  | ident {token : Token} {rest : List Token} :
    token.kind = .ident → IsExpr .atom (token :: rest) rest (.ident ⟨token, token.literal⟩)
  /-- A numeral whose value is not too large. -/
  | int {token : Token} {rest : List Token} {digits : List Nat} :
    token.kind = .int → Text.Decimal.digits? token.literal.toList = some digits →
    Text.Decimal.value digits ≤ maxInteger →
    IsExpr .atom (token :: rest) rest (.int token (Text.Decimal.value digits))
  | true {token : Token} {rest : List Token} :
    token.kind = .trueKw → IsExpr .atom (token :: rest) rest (.bool token true)
  | false {token : Token} {rest : List Token} :
    token.kind = .falseKw → IsExpr .atom (token :: rest) rest (.bool token false)
  /-- Parentheses leave no node. -/
  | group {opening closing : Token} {tokens rest : List Token} {e : Expr} :
    opening.kind = .lparen → IsExpr .equality tokens (closing :: rest) e → closing.kind = .rparen →
    IsExpr .atom (opening :: tokens) rest e
  /-- A choice without a second branch. -/
  | when {word opening closing : Token} {tokens inner rest : List Token} {c : Expr} {b : Block} :
    word.kind = .ifKw → opening.kind = .lparen → IsExpr .equality tokens (closing :: inner) c →
    closing.kind = .rparen → IsBlock inner rest b →
    IsExpr .atom (word :: opening :: tokens) rest (.cond word c b none)
  /-- A choice with both branches. -/
  | choice {word opening closing other : Token} {tokens inner behind rest : List Token} {c : Expr}
    {b d : Block} :
    word.kind = .ifKw → opening.kind = .lparen → IsExpr .equality tokens (closing :: inner) c →
    closing.kind = .rparen → IsBlock inner (other :: behind) b → other.kind = .elseKw →
    IsBlock behind rest d →
    IsExpr .atom (word :: opening :: tokens) rest (.cond word c b (some d))
  | fn {word opening : Token} {tokens inner rest : List Token} {parameters : List Ident}
    {b : Block} :
    word.kind = .fnKw → opening.kind = .lparen → AreParameters tokens inner parameters →
    IsBlock inner rest b → IsExpr .atom (word :: opening :: tokens) rest (.fn word parameters b)

/-- The arguments of a call, and the closing parenthesis. -/
inductive AreArguments : List Token → List Token → List Expr → Prop
  | none {closing : Token} {rest : List Token} :
    closing.kind = .rparen → AreArguments (closing :: rest) rest []
  | some {tokens rest : List Token} {es : List Expr} :
    AreExprs tokens rest es → AreArguments tokens rest es

/-- One or more expressions between commas, and the closing parenthesis. -/
inductive AreExprs : List Token → List Token → List Expr → Prop
  | last {closing : Token} {tokens rest : List Token} {e : Expr} :
    IsExpr .equality tokens (closing :: rest) e → closing.kind = .rparen → AreExprs tokens rest [e]
  | more {comma : Token} {tokens inner rest : List Token} {e : Expr} {es : List Expr} :
    IsExpr .equality tokens (comma :: inner) e → comma.kind = .comma → AreExprs inner rest es →
    AreExprs tokens rest (e :: es)

/-- Statements between braces. The closing one may be missing at the end of the input. -/
inductive IsBlock : List Token → List Token → Block → Prop
  | closed {opening closing : Token} {tokens rest : List Token} {ss : List Stmt} :
    opening.kind = .lbrace → AreStmts tokens (closing :: rest) ss → closing.kind = .rbrace →
    IsBlock (opening :: tokens) rest (.mk opening ss)
  | unclosed {opening : Token} {tokens : List Token} {ss : List Stmt} :
    opening.kind = .lbrace → AreStmts tokens [] ss → IsBlock (opening :: tokens) [] (.mk opening ss)

/-- A statement. -/
inductive IsStmt : List Token → List Token → Stmt → Prop
  | define {word name equals : Token} {tokens behind rest : List Token} {e : Expr} :
    word.kind = .letKw → name.kind = .ident → equals.kind = .assign →
    IsExpr .equality tokens behind e → EndsStmt behind rest →
    IsStmt (word :: name :: equals :: tokens) rest (.define word ⟨name, name.literal⟩ e)
  | ret {word : Token} {tokens behind rest : List Token} {e : Expr} :
    word.kind = .returnKw → IsExpr .equality tokens behind e → EndsStmt behind rest →
    IsStmt (word :: tokens) rest (.ret word (some e))
  /-- A `return` alone, and its semicolon. -/
  | leave {word semicolon : Token} {rest : List Token} :
    word.kind = .returnKw → semicolon.kind = .semicolon →
    IsStmt (word :: semicolon :: rest) rest (.ret word none)
  /-- A `return` alone, before a closing brace or at the end. -/
  | leaveLast {word : Token} {rest : List Token} :
    word.kind = .returnKw → nextKind rest = .rbrace ∨ rest = [] →
    IsStmt (word :: rest) rest (.ret word none)
  | bare {first : Token} {tokens behind rest : List Token} {e : Expr} :
    IsExpr .equality (first :: tokens) behind e → EndsStmt behind rest →
    IsStmt (first :: tokens) rest (.bare first e)

/-- Statements one after the other. -/
inductive AreStmts : List Token → List Token → List Stmt → Prop
  | nil {rest : List Token} : AreStmts rest rest []
  | cons {tokens behind rest : List Token} {s : Stmt} {ss : List Stmt} :
    IsStmt tokens behind s → AreStmts behind rest ss → AreStmts tokens rest (s :: ss)

end

/-- The tokens are a program: statements up to the end of the input. -/
def IsProgram (tokens : List Token) (program : Program) : Prop :=
  AreStmts tokens [] program.statements

/-- How tightly a stratum binds, as a number. -/
def Stratum.rank : Stratum → Int
  | equality => 2
  | comparison => 3
  | sum => 4
  | product => 5
  | unary => 6
  | call => 7
  | atom => 8

/-- The next tighter stratum ranks one higher, up to the last. -/
theorem Stratum.rank_tighter {s : Stratum} (h : s.rank < 8) : s.tighter.rank = s.rank + 1 := by
  cases s <;> first | rfl | exact absurd h (by decide)

/-- No stratum is looser than the one below it. -/
theorem Stratum.rank_le_tighter (s : Stratum) : s.rank ≤ s.tighter.rank := by
  cases s <;> decide

/-- The atoms rank highest. -/
theorem Stratum.rank_le (s : Stratum) : s.rank ≤ 8 := by
  cases s <;> decide

/-- A stratum is known by its rank. -/
theorem Stratum.rank_injective {s t : Stratum} (h : s.rank = t.rank) : s = t := by
  cases s <;> cases t <;> first | rfl | exact absurd h (by decide)

/-- An expression belongs to every stratum that binds no more tightly than its own. -/
theorem IsExpr.of_rank_le {s t : Stratum} {tokens rest : List Token} {e : Expr}
    (h : IsExpr t tokens rest e) (hr : s.rank ≤ t.rank) : IsExpr s tokens rest e := by
  obtain ⟨n, hn⟩ : ∃ n : Nat, t.rank = s.rank + n := ⟨(t.rank - s.rank).toNat, by omega⟩
  induction n generalizing s with
  | zero =>
    have hst : s = t := Stratum.rank_injective (by omega)
    exact hst ▸ h
  | succ n ih =>
    have ht := t.rank_le
    have hs : s.tighter.rank = s.rank + 1 := Stratum.rank_tighter (by omega)
    exact .tighter (ih (by omega) (by omega))

/-- Every expression is one of the loosest stratum. -/
theorem IsExpr.loosest {s : Stratum} {tokens rest : List Token} {e : Expr}
    (h : IsExpr s tokens rest e) : IsExpr .equality tokens rest e :=
  h.of_rank_le (by cases s <;> decide)

end Inkwell.Grammar
