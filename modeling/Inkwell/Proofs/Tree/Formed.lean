import Inkwell.Limits
import Inkwell.Proofs.Token.Spelling
import Inkwell.Tree.Basic

/-!
# Well-formed trees

In a well-formed tree every node carries the token that its sort of node is written with, and what
it stores beside the token is what the token says. A tree built by hand need not be well formed; the
trees that are read from a text are.

What the token of an expression statement should be cannot be seen in the tree, where parentheses
leave no node. So it is a parameter: `starts token e` is to say that the expression `e` was read
from `token` on.
-/

namespace Inkwell

namespace Token

/-- The words that are not names. -/
def keywords : List String := ["fn", "let", "true", "false", "if", "else", "return"]

/-- A word that is a name is no keyword. -/
theorem notMem_keywords {word : String} (h : Kind.ofWord word = .ident) : word ∉ keywords := by
  intro hword
  have hall : ∀ keyword ∈ keywords, Kind.ofWord keyword ≠ .ident := by decide
  exact hall word hword h

/-- The text of the tokens of a kind, if they all have the same one. -/
def Kind.text? : Kind → Option String
  | .illegal | .eof | .ident | .int => none
  | .semicolon => some ";"
  | .fnKw => some "fn"
  | .letKw => some "let"
  | .trueKw => some "true"
  | .falseKw => some "false"
  | .ifKw => some "if"
  | .elseKw => some "else"
  | .returnKw => some "return"
  | kind => some kind.display

/-- A token whose kind has one text is that text. -/
theorem Spelled.literal_eq_text {token : Token} {text : String} (h : token.Spelled)
    (ht : token.kind.text? = some text) : token.literal = text := by
  cases h with
  | @word word =>
    unfold Kind.ofWord at ht
    repeat' split at ht
    all_goals simp_all [Kind.text?]
  | numeral => cases ht
  | eq => exact Option.some.inj ht
  | notEq => exact Option.some.inj ht
  | single c =>
    unfold Kind.ofSymbol? at ht
    split at ht
    all_goals first
      | exact Option.some.inj ht
      | cases ht

/-- A token of a kind with one spelling is known from its kind. -/
theorem Spelled.eq_of_text {token : Token} {kind : Kind} {text : String} (h : token.Spelled)
    (hk : token.kind = kind) (ht : kind.text? = some text) : token = ⟨kind, text⟩ := by
  obtain ⟨found, literal⟩ := token
  obtain rfl : found = kind := hk
  obtain rfl : literal = text := h.literal_eq_text ht
  rfl

/-- A name is a run of letters that is not a keyword. -/
theorem Spelled.isWord {token : Token} (h : token.Spelled) (hk : token.kind = .ident) :
    IsWord token.literal ∧ token.literal ∉ keywords := by
  cases h with
  | word hword => exact ⟨hword, notMem_keywords hk⟩
  | numeral => cases hk
  | eq => cases hk
  | notEq => cases hk
  | single c =>
    unfold Kind.ofSymbol? at hk
    split at hk <;> cases hk

/-- The number that a run of ASCII digits denotes in base ten. -/
def number (text : String) : Nat :=
  text.toList.foldl (fun number c => 10 * number + (c.toNat - '0'.toNat)) 0

/-- The decimal digits of all scripts agree with the ASCII digits on these. -/
theorem digit?_eq {c : Char} (h : c.isDigit = true) :
    Text.Decimal.digit? c = some (c.toNat - '0'.toNat) := by
  have hzero : '0'.toNat = 48 := rfl
  have hnine : '9'.toNat = 57 := rfl
  obtain ⟨hlow, hhigh⟩ := Char.isDigit_iff_toNat.mp h
  have hdigit : 48 ≤ c.toNat ∧ c.toNat < 48 + 10 := by omega
  rw [Text.Decimal.digit?, Text.Decimal.zeros, List.findSome?_cons]
  simp only [hzero]
  rw [if_pos hdigit]

/-- Every character of a numeral is read as a digit. -/
theorem IsNumeral.digits?_eq {text : String} (h : IsNumeral text) :
    Text.Decimal.digits? text.toList =
      some (text.toList.map fun c => c.toNat - '0'.toNat) := by
  have hmap : ∀ cs : List Char, (∀ c ∈ cs, c.isDigit = true) →
      cs.mapM Text.Decimal.digit? = some (cs.map fun c => c.toNat - '0'.toNat) := by
    intro cs hcs
    induction cs with
    | nil => rfl
    | cons c cs ih =>
      rw [List.forall_mem_cons] at hcs
      rw [List.mapM_cons, digit?_eq hcs.1, ih hcs.2]
      rfl
  obtain ⟨hne, hall⟩ := h
  have hdigits : Text.Decimal.digits? text.toList = text.toList.mapM Text.Decimal.digit? := by
    cases hcs : text.toList with
    | nil => exact absurd hcs hne
    | cons c cs => rfl
  rw [hdigits, hmap _ hall]

/-- The number of a numeral is the value of its digits. -/
theorem IsNumeral.value_eq {text : String} {digits : List Nat} (h : IsNumeral text)
    (hd : Text.Decimal.digits? text.toList = some digits) :
    Text.Decimal.value digits = number text := by
  rw [h.digits?_eq] at hd
  cases hd
  rw [Text.Decimal.value, number, List.foldl_map]

/-- The operators that stand before their operand. -/
def unaryOperators : List Token := [⟨.bang, "!"⟩, ⟨.minus, "-"⟩]

/-- The operators that stand between two operands. -/
def binaryOperators : List Token :=
  [⟨.eq, "=="⟩, ⟨.notEq, "!="⟩, ⟨.lt, "<"⟩, ⟨.gt, ">"⟩, ⟨.plus, "+"⟩, ⟨.minus, "-"⟩,
    ⟨.asterisk, "*"⟩, ⟨.slash, "/"⟩]

end Token

/-- A name that is one, with the token of its occurrence. -/
structure Ident.Formed (name : Ident) : Prop where
  /-- The token is a name. -/
  kind : name.token.kind = .ident
  /-- The name is the text of the token. -/
  literal : name.token.literal = name.name
  /-- The name is a run of letters. -/
  isWord : Token.IsWord name.name
  /-- The name is not a keyword. -/
  free : name.name ∉ Token.keywords

mutual

/-- A well-formed expression. -/
inductive Expr.Formed (starts : Token → Expr → Prop) : Expr → Prop
  | ident {name : Ident} : name.Formed → Expr.Formed starts (.ident name)
  | int {literal : String} : Token.IsNumeral literal → Token.number literal ≤ maxInteger →
    Expr.Formed starts (.int ⟨.int, literal⟩ (Token.number literal))
  | true : Expr.Formed starts (.bool ⟨.trueKw, "true"⟩ true)
  | false : Expr.Formed starts (.bool ⟨.falseKw, "false"⟩ false)
  | unary {token : Token} {operand : Expr} : token ∈ Token.unaryOperators →
    Expr.Formed starts operand → Expr.Formed starts (.unary token token.literal operand)
  | binary {token : Token} {left right : Expr} : token ∈ Token.binaryOperators →
    Expr.Formed starts left → Expr.Formed starts right →
    Expr.Formed starts (.binary token left token.literal right)
  | cond {condition : Expr} {consequence : Block} {alternative : Option Block} :
    Expr.Formed starts condition → Block.Formed starts consequence →
    (∀ block ∈ alternative, Block.Formed starts block) →
    Expr.Formed starts (.cond ⟨.ifKw, "if"⟩ condition consequence alternative)
  | fn {parameters : List Ident} {body : Block} :
    (∀ parameter ∈ parameters, parameter.Formed) → Block.Formed starts body →
    Expr.Formed starts (.fn ⟨.fnKw, "fn"⟩ parameters body)
  | call {callee : Expr} {arguments : List Expr} : Expr.Formed starts callee →
    (∀ argument ∈ arguments, Expr.Formed starts argument) →
    Expr.Formed starts (.call ⟨.lparen, "("⟩ callee arguments)

/-- A well-formed block. -/
inductive Block.Formed (starts : Token → Expr → Prop) : Block → Prop
  | mk {statements : List Stmt} : (∀ s ∈ statements, Stmt.Formed starts s) →
    Block.Formed starts (.mk ⟨.lbrace, "\x7b"⟩ statements)

/-- A well-formed statement. No block is one. -/
inductive Stmt.Formed (starts : Token → Expr → Prop) : Stmt → Prop
  | define {name : Ident} {value : Expr} : name.Formed → Expr.Formed starts value →
    Stmt.Formed starts (.define ⟨.letKw, "let"⟩ name value)
  | ret {operand : Option Expr} : (∀ e ∈ operand, Expr.Formed starts e) →
    Stmt.Formed starts (.ret ⟨.returnKw, "return"⟩ operand)
  | bare {token : Token} {e : Expr} : starts token e → Expr.Formed starts e →
    Stmt.Formed starts (.bare token e)

end

/-- A well-formed program. -/
def Program.Formed (starts : Token → Expr → Prop) (program : Program) : Prop :=
  ∀ s ∈ program.statements, s.Formed starts

end Inkwell
