import Inkwell.Tree.Basic

/-!
# Equality of syntax trees

Two trees are equal when they have the same shape and the same tokens, names, values and
operators throughout. `Expr.same` and its companions compare trees level by level, and
`Expr.same_iff`, `Stmt.same_iff` and `Block.same_iff` say that they decide equality.
-/

namespace Inkwell

mutual

/-- Structural comparison of expressions. -/
def Expr.same : Expr → Expr → Bool
  | .ident n, .ident m => n == m
  | .int t a, .int u b => t == u && a == b
  | .bool t a, .bool u b => t == u && a == b
  | .unary t o e, .unary u p f => t == u && o == p && e.same f
  | .binary t e o f, .binary u g p h => t == u && o == p && e.same g && f.same h
  | .cond t c b a, .cond u d e f => t == u && c.same d && b.same e && Block.sameOption a f
  | .fn t ps b, .fn u qs c => t == u && ps == qs && b.same c
  | .call t f as, .call u g bs => t == u && f.same g && Expr.sameList as bs
  | _, _ => false

/-- Structural comparison of lists of expressions. -/
def Expr.sameList : List Expr → List Expr → Bool
  | [], [] => true
  | e :: es, f :: fs => e.same f && Expr.sameList es fs
  | _, _ => false

/-- Structural comparison of optional expressions. -/
def Expr.sameOption : Option Expr → Option Expr → Bool
  | none, none => true
  | some e, some f => e.same f
  | _, _ => false

/-- Structural comparison of blocks. -/
def Block.same : Block → Block → Bool
  | .mk t ss, .mk u rs => t == u && Stmt.sameList ss rs

/-- Structural comparison of optional blocks. -/
def Block.sameOption : Option Block → Option Block → Bool
  | none, none => true
  | some b, some c => b.same c
  | _, _ => false

/-- Structural comparison of statements. -/
def Stmt.same : Stmt → Stmt → Bool
  | .define t n e, .define u m f => t == u && n == m && e.same f
  | .ret t e, .ret u f => t == u && Expr.sameOption e f
  | .bare t e, .bare u f => t == u && e.same f
  | .block b, .block c => b.same c
  | _, _ => false

/-- Structural comparison of lists of statements. -/
def Stmt.sameList : List Stmt → List Stmt → Bool
  | [], [] => true
  | s :: ss, r :: rs => s.same r && Stmt.sameList ss rs
  | _, _ => false

end

mutual

/-- Expressions that compare the same are equal. -/
theorem Expr.eq_of_same : ∀ {e f : Expr}, e.same f = true → e = f
  | .ident _, f, h => by cases f <;> simp_all [Expr.same]
  | .int _ _, f, h => by cases f <;> simp_all [Expr.same]
  | .bool _ _, f, h => by cases f <;> simp_all [Expr.same]
  | .unary _ _ e, f, h => by
    cases f with
    | unary =>
      simp only [Expr.same, Bool.and_eq_true, beq_iff_eq] at h
      simp only [h.1.1, h.1.2, Expr.eq_of_same h.2]
    | _ => simp [Expr.same] at h
  | .binary _ e _ g, f, h => by
    cases f with
    | binary =>
      simp only [Expr.same, Bool.and_eq_true, beq_iff_eq] at h
      simp only [h.1.1.1, h.1.1.2, Expr.eq_of_same h.1.2, Expr.eq_of_same h.2]
    | _ => simp [Expr.same] at h
  | .cond _ c b a, f, h => by
    cases f with
    | cond =>
      simp only [Expr.same, Bool.and_eq_true, beq_iff_eq] at h
      simp only [h.1.1.1, Expr.eq_of_same h.1.1.2, Block.eq_of_same h.1.2,
        Block.eq_of_sameOption h.2]
    | _ => simp [Expr.same] at h
  | .fn _ _ b, f, h => by
    cases f with
    | fn =>
      simp only [Expr.same, Bool.and_eq_true, beq_iff_eq] at h
      simp only [h.1.1, h.1.2, Block.eq_of_same h.2]
    | _ => simp [Expr.same] at h
  | .call _ g as, f, h => by
    cases f with
    | call =>
      simp only [Expr.same, Bool.and_eq_true, beq_iff_eq] at h
      simp only [h.1.1, Expr.eq_of_same h.1.2, Expr.eq_of_sameList h.2]
    | _ => simp [Expr.same] at h

theorem Expr.eq_of_sameList : ∀ {es fs : List Expr}, Expr.sameList es fs = true → es = fs
  | [], fs, h => by cases fs <;> simp_all [Expr.sameList]
  | e :: es, fs, h => by
    cases fs with
    | nil => simp [Expr.sameList] at h
    | cons =>
      simp only [Expr.sameList, Bool.and_eq_true] at h
      simp only [Expr.eq_of_same h.1, Expr.eq_of_sameList h.2]

theorem Expr.eq_of_sameOption : ∀ {e f : Option Expr}, Expr.sameOption e f = true → e = f
  | none, f, h => by cases f <;> simp_all [Expr.sameOption]
  | some e, f, h => by
    cases f with
    | none => simp [Expr.sameOption] at h
    | some =>
      simp only [Expr.sameOption] at h
      simp only [Expr.eq_of_same h]

theorem Block.eq_of_same : ∀ {b c : Block}, b.same c = true → b = c
  | .mk _ ss, .mk _ rs, h => by
    simp only [Block.same, Bool.and_eq_true, beq_iff_eq] at h
    simp only [h.1, Stmt.eq_of_sameList h.2]

theorem Block.eq_of_sameOption : ∀ {b c : Option Block}, Block.sameOption b c = true → b = c
  | none, c, h => by cases c <;> simp_all [Block.sameOption]
  | some b, c, h => by
    cases c with
    | none => simp [Block.sameOption] at h
    | some =>
      simp only [Block.sameOption] at h
      simp only [Block.eq_of_same h]

theorem Stmt.eq_of_same : ∀ {s r : Stmt}, s.same r = true → s = r
  | .define _ _ e, r, h => by
    cases r with
    | define =>
      simp only [Stmt.same, Bool.and_eq_true, beq_iff_eq] at h
      simp only [h.1.1, h.1.2, Expr.eq_of_same h.2]
    | _ => simp [Stmt.same] at h
  | .ret _ e, r, h => by
    cases r with
    | ret =>
      simp only [Stmt.same, Bool.and_eq_true, beq_iff_eq] at h
      simp only [h.1, Expr.eq_of_sameOption h.2]
    | _ => simp [Stmt.same] at h
  | .bare _ e, r, h => by
    cases r with
    | bare =>
      simp only [Stmt.same, Bool.and_eq_true, beq_iff_eq] at h
      simp only [h.1, Expr.eq_of_same h.2]
    | _ => simp [Stmt.same] at h
  | .block _, r, h => by
    cases r with
    | block =>
      simp only [Stmt.same] at h
      simp only [Block.eq_of_same h]
    | _ => simp [Stmt.same] at h

theorem Stmt.eq_of_sameList : ∀ {ss rs : List Stmt}, Stmt.sameList ss rs = true → ss = rs
  | [], rs, h => by cases rs <;> simp_all [Stmt.sameList]
  | s :: ss, rs, h => by
    cases rs with
    | nil => simp [Stmt.sameList] at h
    | cons =>
      simp only [Stmt.sameList, Bool.and_eq_true] at h
      simp only [Stmt.eq_of_same h.1, Stmt.eq_of_sameList h.2]

end

mutual

/-- An expression compares the same as itself. -/
theorem Expr.same_self : ∀ e : Expr, e.same e = true
  | .ident _ => by simp [Expr.same]
  | .int _ _ => by simp [Expr.same]
  | .bool _ _ => by simp [Expr.same]
  | .unary _ _ e => by simp [Expr.same, Expr.same_self e]
  | .binary _ e _ f => by simp [Expr.same, Expr.same_self e, Expr.same_self f]
  | .cond _ c b a => by
    simp [Expr.same, Expr.same_self c, Block.same_self b, Block.sameOption_self a]
  | .fn _ _ b => by simp [Expr.same, Block.same_self b]
  | .call _ f as => by simp [Expr.same, Expr.same_self f, Expr.sameList_self as]

theorem Expr.sameList_self : ∀ es : List Expr, Expr.sameList es es = true
  | [] => by simp [Expr.sameList]
  | e :: es => by simp [Expr.sameList, Expr.same_self e, Expr.sameList_self es]

theorem Expr.sameOption_self : ∀ e : Option Expr, Expr.sameOption e e = true
  | none => by simp [Expr.sameOption]
  | some e => by simp [Expr.sameOption, Expr.same_self e]

theorem Block.same_self : ∀ b : Block, b.same b = true
  | .mk _ ss => by simp [Block.same, Stmt.sameList_self ss]

theorem Block.sameOption_self : ∀ b : Option Block, Block.sameOption b b = true
  | none => by simp [Block.sameOption]
  | some b => by simp [Block.sameOption, Block.same_self b]

theorem Stmt.same_self : ∀ s : Stmt, s.same s = true
  | .define _ _ e => by simp [Stmt.same, Expr.same_self e]
  | .ret _ e => by simp [Stmt.same, Expr.sameOption_self e]
  | .bare _ e => by simp [Stmt.same, Expr.same_self e]
  | .block b => by simp [Stmt.same, Block.same_self b]

theorem Stmt.sameList_self : ∀ ss : List Stmt, Stmt.sameList ss ss = true
  | [] => by simp [Stmt.sameList]
  | s :: ss => by simp [Stmt.sameList, Stmt.same_self s, Stmt.sameList_self ss]

end

/-- The comparison holds of equal expressions and of no others. -/
theorem Expr.same_iff {e f : Expr} : e.same f = true ↔ e = f :=
  ⟨Expr.eq_of_same, fun h => h ▸ Expr.same_self e⟩

instance : DecidableEq Expr := fun _ _ => decidable_of_iff _ Expr.same_iff

/-- The comparison holds of equal statements and of no others. -/
theorem Stmt.same_iff {s r : Stmt} : s.same r = true ↔ s = r :=
  ⟨Stmt.eq_of_same, fun h => h ▸ Stmt.same_self s⟩

instance : DecidableEq Stmt := fun _ _ => decidable_of_iff _ Stmt.same_iff

/-- The comparison holds of equal blocks and of no others. -/
theorem Block.same_iff {b c : Block} : b.same c = true ↔ b = c :=
  ⟨Block.eq_of_same, fun h => h ▸ Block.same_self b⟩

instance : DecidableEq Block := fun _ _ => decidable_of_iff _ Block.same_iff

instance : DecidableEq Program := fun p q =>
  decidable_of_iff (p.statements = q.statements) (by cases p; cases q; simp)

end Inkwell
