import Inkwell.Proofs.Tree.Names
import Inkwell.Tree.Canonical
import Mathlib.Data.List.Forall2

/-!
# Another name for a parameter

Inside a function literal one name can be put in the place of another one: in its parameters, where
the name is used, where it is bound, and in all literals inside. A program in which this was done to
some of its function literals, each of which has the old name as a parameter and does not mention
the new one, is said to rename parameters.
-/

namespace Inkwell

/-- The name that takes the place of a name. -/
def newName (old new name : String) : String := if name = old then new else name

/-- The token of a name that takes the place of a token. -/
def Token.rename (old new : String) (token : Token) : Token :=
  if token = ⟨.ident, old⟩ then ⟨.ident, new⟩ else token

/-- An occurrence of a name, which may be the old one. -/
def Ident.rename (old new : String) (name : Ident) : Ident :=
  ⟨name.token.rename old new, newName old new name.name⟩

mutual

/-- Puts one name in the place of another one throughout an expression. -/
def Expr.rename (old new : String) : Expr → Expr
  | .ident name => .ident (name.rename old new)
  | .int token value => .int (token.rename old new) value
  | .bool token value => .bool (token.rename old new) value
  | .unary token operator operand =>
    .unary (token.rename old new) operator (operand.rename old new)
  | .binary token left operator right =>
    .binary (token.rename old new) (left.rename old new) operator (right.rename old new)
  | .cond token condition consequence alternative =>
    .cond (token.rename old new) (condition.rename old new) (consequence.rename old new)
      (Block.renameOption old new alternative)
  | .fn token parameters body =>
    .fn (token.rename old new) (parameters.map (Ident.rename old new)) (body.rename old new)
  | .call token callee arguments =>
    .call (token.rename old new) (callee.rename old new) (Expr.renameAll old new arguments)

/-- Puts one name in the place of another one in a list of expressions. -/
def Expr.renameAll (old new : String) : List Expr → List Expr
  | [] => []
  | first :: rest => first.rename old new :: Expr.renameAll old new rest

/-- Puts one name in the place of another one in a block. -/
def Block.rename (old new : String) : Block → Block
  | .mk token statements => .mk (token.rename old new) (Stmt.renameAll old new statements)

/-- Puts one name in the place of another one in a second branch. -/
def Block.renameOption (old new : String) : Option Block → Option Block
  | none => none
  | some block => some (block.rename old new)

/-- Puts one name in the place of another one in a statement. -/
def Stmt.rename (old new : String) : Stmt → Stmt
  | .define token name value =>
    .define (token.rename old new) (name.rename old new) (value.rename old new)
  | .ret token operand => .ret (token.rename old new) (Expr.renameOption old new operand)
  | .bare token expression => .bare (token.rename old new) (expression.rename old new)
  | .block inner => .block (inner.rename old new)

/-- Puts one name in the place of another one in an operand of a `return`. -/
def Expr.renameOption (old new : String) : Option Expr → Option Expr
  | none => none
  | some operand => some (operand.rename old new)

/-- Puts one name in the place of another one in a list of statements. -/
def Stmt.renameAll (old new : String) : List Stmt → List Stmt
  | [] => []
  | first :: rest => first.rename old new :: Stmt.renameAll old new rest

end

mutual

/-- The second expression is the first, where in some function literals the old name, which is a
parameter there, has given way to the new one, which does not occur there. -/
inductive Expr.Renames (old new : String) : Expr → Expr → Prop
  | ident {name : Ident} : Expr.Renames old new (.ident name) (.ident name)
  | int {token : Token} {value : Int} : Expr.Renames old new (.int token value) (.int token value)
  | bool {token : Token} {value : Bool} :
    Expr.Renames old new (.bool token value) (.bool token value)
  | unary {token : Token} {operator : String} {a b : Expr} : Expr.Renames old new a b →
    Expr.Renames old new (.unary token operator a) (.unary token operator b)
  | binary {token : Token} {operator : String} {a b c d : Expr} :
    Expr.Renames old new a b → Expr.Renames old new c d →
    Expr.Renames old new (.binary token a operator c) (.binary token b operator d)
  | cond {token : Token} {a b : Expr} {c d : Block} {e f : Option Block} :
    Expr.Renames old new a b → Block.Renames old new c d →
    Option.Rel (Block.Renames old new) e f →
    Expr.Renames old new (.cond token a c e) (.cond token b d f)
  | fn {token : Token} {parameters : List Ident} {b c : Block} : Block.Renames old new b c →
    Expr.Renames old new (.fn token parameters b) (.fn token parameters c)
  | call {token : Token} {a b : Expr} {es fs : List Expr} :
    Expr.Renames old new a b → List.Forall₂ (Expr.Renames old new) es fs →
    Expr.Renames old new (.call token a es) (.call token b fs)
  /-- A function literal whose parameter has another name. -/
  | literal {token : Token} {parameters : List Ident} {body : Block} :
    old ∈ parameters.map Ident.name → new ∉ (Expr.fn token parameters body).names →
    Expr.Renames old new (.fn token parameters body)
      ((Expr.fn token parameters body).rename old new)

/-- The same, for blocks. -/
inductive Block.Renames (old new : String) : Block → Block → Prop
  | mk {token : Token} {ss rs : List Stmt} : List.Forall₂ (Stmt.Renames old new) ss rs →
    Block.Renames old new (.mk token ss) (.mk token rs)

/-- The same, for statements. -/
inductive Stmt.Renames (old new : String) : Stmt → Stmt → Prop
  | define {token : Token} {name : Ident} {a b : Expr} : Expr.Renames old new a b →
    Stmt.Renames old new (.define token name a) (.define token name b)
  | ret {token : Token} {a b : Option Expr} : Option.Rel (Expr.Renames old new) a b →
    Stmt.Renames old new (.ret token a) (.ret token b)
  | bare {token : Token} {a b : Expr} : Expr.Renames old new a b →
    Stmt.Renames old new (.bare token a) (.bare token b)
  | block {b c : Block} : Block.Renames old new b c → Stmt.Renames old new (.block b) (.block c)

end

/-- The second program is the first, where in some function literals a parameter has another
name. -/
def Program.Renames (old new : String) (program other : Program) : Prop :=
  List.Forall₂ (Stmt.Renames old new) program.statements other.statements

variable {old new : String} {depth : Nat}

/-- Any name but the old one is kept. -/
theorem newName_of_ne {name : String} (h : name ≠ old) : newName old new name = name := if_neg h

/-- Names other than the new one stay different. -/
theorem newName_eq_iff {a b : String} (ha : a ≠ new) (hb : b ≠ new) :
    newName old new a = newName old new b ↔ a = b := by
  unfold newName
  split <;> split <;> grind

/-- Renaming identifiers renames their names. -/
theorem Ident.map_name_rename (names : List Ident) :
    (names.map (Ident.rename old new)).map Ident.name =
      (names.map Ident.name).map (newName old new) := by
  rw [List.map_map, List.map_map]
  rfl

mutual

/-- Renaming nothing is renaming, too. -/
theorem Expr.Renames.refl : ∀ e : Expr, e.Renames old new e
  | .ident _ => .ident
  | .int _ _ => .int
  | .bool _ _ => .bool
  | .unary _ _ e => .unary (Expr.Renames.refl e)
  | .binary _ e _ f => .binary (Expr.Renames.refl e) (Expr.Renames.refl f)
  | .cond _ e b none => .cond (Expr.Renames.refl e) (Block.Renames.refl b) .none
  | .cond _ e b (some c) =>
    .cond (Expr.Renames.refl e) (Block.Renames.refl b) (.some (Block.Renames.refl c))
  | .fn _ _ b => .fn (Block.Renames.refl b)
  | .call _ e es => .call (Expr.Renames.refl e) (Expr.Renames.refl_all es)

theorem Expr.Renames.refl_all : ∀ es : List Expr, List.Forall₂ (Expr.Renames old new) es es
  | [] => .nil
  | e :: es => .cons (Expr.Renames.refl e) (Expr.Renames.refl_all es)

theorem Block.Renames.refl : ∀ b : Block, b.Renames old new b
  | .mk _ ss => .mk (Stmt.Renames.refl_all ss)

theorem Stmt.Renames.refl : ∀ s : Stmt, s.Renames old new s
  | .define _ _ e => .define (Expr.Renames.refl e)
  | .ret _ none => .ret .none
  | .ret _ (some e) => .ret (.some (Expr.Renames.refl e))
  | .bare _ e => .bare (Expr.Renames.refl e)
  | .block b => .block (Block.Renames.refl b)

theorem Stmt.Renames.refl_all : ∀ ss : List Stmt, List.Forall₂ (Stmt.Renames old new) ss ss
  | [] => .nil
  | s :: ss => .cons (Stmt.Renames.refl s) (Stmt.Renames.refl_all ss)

end

mutual

/-- Names make no difference to how deep a tree is. -/
theorem Expr.fits_rename : ∀ {depth : Nat} (e : Expr),
    (e.rename old new).fits depth = e.fits depth
  | 0, _ => by rw [Expr.fits, Expr.fits]
  | _ + 1, .ident _ => by rw [Expr.rename, Expr.fits, Expr.fits]
  | _ + 1, .int _ _ => by rw [Expr.rename, Expr.fits, Expr.fits]
  | _ + 1, .bool _ _ => by rw [Expr.rename, Expr.fits, Expr.fits]
  | _ + 1, .unary _ _ e => by rw [Expr.rename, Expr.fits, Expr.fits, Expr.fits_rename e]
  | _ + 1, .binary _ e _ f => by
    rw [Expr.rename, Expr.fits, Expr.fits, Expr.fits_rename e, Expr.fits_rename f]
  | _ + 1, .cond _ e b c => by
    rw [Expr.rename, Expr.fits, Expr.fits, Expr.fits_rename e, Block.fits_rename b,
      Block.fitsOption_rename c]
  | _ + 1, .fn _ _ b => by rw [Expr.rename, Expr.fits, Expr.fits, Block.fits_rename b]
  | _ + 1, .call _ e es => by
    rw [Expr.rename, Expr.fits, Expr.fits, Expr.fits_rename e, Expr.fitsAll_rename es]

/-- Expressions in a row have as many levels after renaming. -/
theorem Expr.fitsAll_rename : ∀ {depth : Nat} (es : List Expr),
    Expr.fitsAll depth (Expr.renameAll old new es) = Expr.fitsAll depth es
  | _, [] => by rw [Expr.renameAll]
  | _, e :: es => by
    rw [Expr.renameAll, Expr.fitsAll, Expr.fitsAll, Expr.fits_rename e, Expr.fitsAll_rename es]

theorem Expr.fitsOption_rename : ∀ {depth : Nat} (e : Option Expr),
    Expr.fitsOption depth (Expr.renameOption old new e) = Expr.fitsOption depth e
  | _, none => by rw [Expr.renameOption]
  | _, some e => by
    rw [Expr.renameOption, Expr.fitsOption, Expr.fitsOption, Expr.fits_rename e]

theorem Block.fits_rename : ∀ {depth : Nat} (b : Block),
    (b.rename old new).fits depth = b.fits depth
  | 0, _ => by rw [Block.fits, Block.fits]
  | _ + 1, .mk _ ss => by rw [Block.rename, Block.fits, Block.fits, Stmt.fitsAll_rename ss]

theorem Block.fitsOption_rename : ∀ {depth : Nat} (b : Option Block),
    Block.fitsOption depth (Block.renameOption old new b) = Block.fitsOption depth b
  | _, none => by rw [Block.renameOption]
  | _, some b => by
    rw [Block.renameOption, Block.fitsOption, Block.fitsOption, Block.fits_rename b]

theorem Stmt.fits_rename : ∀ {depth : Nat} (s : Stmt),
    (s.rename old new).fits depth = s.fits depth
  | 0, _ => by rw [Stmt.fits, Stmt.fits]
  | _ + 1, .define _ _ e => by rw [Stmt.rename, Stmt.fits, Stmt.fits, Expr.fits_rename e]
  | _ + 1, .ret _ e => by rw [Stmt.rename, Stmt.fits, Stmt.fits, Expr.fitsOption_rename e]
  | _ + 1, .bare _ e => by rw [Stmt.rename, Stmt.fits, Stmt.fits, Expr.fits_rename e]
  | _ + 1, .block b => by rw [Stmt.rename, Stmt.fits, Stmt.fits, Block.fits_rename b]

theorem Stmt.fitsAll_rename : ∀ {depth : Nat} (ss : List Stmt),
    Stmt.fitsAll depth (Stmt.renameAll old new ss) = Stmt.fitsAll depth ss
  | _, [] => by rw [Stmt.renameAll]
  | _, s :: ss => by
    rw [Stmt.renameAll, Stmt.fitsAll, Stmt.fitsAll, Stmt.fits_rename s, Stmt.fitsAll_rename ss]

end

/-- A relation that leaves the levels of expressions alone does so for those in a row. -/
theorem Expr.fitsAll_related {r : Expr → Expr → Prop} {es fs : List Expr}
    (hr : ∀ e f, r e f → e.fits depth = true → f.fits depth = true) (h : List.Forall₂ r es fs)
    (hes : Expr.fitsAll depth es = true) : Expr.fitsAll depth fs = true := by
  induction h with
  | nil => exact hes
  | cons hef _ ih =>
    rw [Expr.fitsAll, Bool.and_eq_true] at hes ⊢
    exact ⟨hr _ _ hef hes.1, ih hes.2⟩

theorem Stmt.fitsAll_related {r : Stmt → Stmt → Prop} {ss rs : List Stmt}
    (hr : ∀ s t, r s t → s.fits depth = true → t.fits depth = true) (h : List.Forall₂ r ss rs)
    (hss : Stmt.fitsAll depth ss = true) : Stmt.fitsAll depth rs = true := by
  induction h with
  | nil => exact hss
  | cons hst _ ih =>
    rw [Stmt.fitsAll, Bool.and_eq_true] at hss ⊢
    exact ⟨hr _ _ hst hss.1, ih hss.2⟩

/-- Renaming parameters makes no tree deeper. -/
theorem Expr.fits_renames (old new : String) (depth : Nat) :
    (∀ e f : Expr, e.Renames old new f → e.fits depth = true → f.fits depth = true) ∧
    (∀ b c : Block, b.Renames old new c → b.fits depth = true → c.fits depth = true) ∧
    ∀ s r : Stmt, s.Renames old new r → s.fits depth = true → r.fits depth = true := by
  induction depth with
  | zero =>
    refine ⟨fun e f _ h => ?_, fun b c _ h => ?_, fun s r _ h => ?_⟩
    · rw [Expr.fits] at h
      cases h
    · rw [Block.fits] at h
      cases h
    · rw [Stmt.fits] at h
      cases h
  | succ depth ih =>
    obtain ⟨hexpr, hblock, hstmt⟩ := ih
    refine ⟨fun e f h hfit => ?_, fun b c h hfit => ?_, fun s r h hfit => ?_⟩
    · cases h with
      | ident | int | bool => exact hfit
      | unary ha =>
        rw [Expr.fits] at hfit ⊢
        exact hexpr _ _ ha hfit
      | binary ha hc =>
        rw [Expr.fits, Bool.and_eq_true] at hfit ⊢
        exact ⟨hexpr _ _ ha hfit.1, hexpr _ _ hc hfit.2⟩
      | cond ha hc he =>
        rw [Expr.fits, Bool.and_eq_true, Bool.and_eq_true] at hfit ⊢
        refine ⟨⟨hexpr _ _ ha hfit.1.1, hblock _ _ hc hfit.1.2⟩, ?_⟩
        cases he with
        | none => exact hfit.2
        | some he =>
          rw [Block.fitsOption] at hfit ⊢
          exact hblock _ _ he hfit.2
      | fn hb =>
        rw [Expr.fits] at hfit ⊢
        exact hblock _ _ hb hfit
      | call ha hes =>
        rw [Expr.fits, Bool.and_eq_true] at hfit ⊢
        exact ⟨hexpr _ _ ha hfit.1, Expr.fitsAll_related hexpr hes hfit.2⟩
      | literal => rwa [Expr.fits_rename]
    · cases h with
      | mk hss =>
        rw [Block.fits] at hfit ⊢
        exact Stmt.fitsAll_related hstmt hss hfit
    · cases h with
      | define ha =>
        rw [Stmt.fits] at hfit ⊢
        exact hexpr _ _ ha hfit
      | ret ha =>
        cases ha with
        | none => exact hfit
        | some ha =>
          rw [Stmt.fits, Expr.fitsOption] at hfit ⊢
          exact hexpr _ _ ha hfit
      | bare ha =>
        rw [Stmt.fits] at hfit ⊢
        exact hexpr _ _ ha hfit
      | block hb =>
        rw [Stmt.fits] at hfit ⊢
        exact hblock _ _ hb hfit

end Inkwell
