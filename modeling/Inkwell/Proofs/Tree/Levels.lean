import Inkwell.Tree.Canonical

/-!
# More depth to print in

A tree that has at most some number of levels has at most any greater number of them, so whatever
can be shown within a depth can be shown within more.
-/

namespace Inkwell

mutual

/-- What fits within a depth fits within one more. -/
theorem Expr.fits_succ : ∀ {depth : Nat} {e : Expr}, e.fits depth = true →
    e.fits (depth + 1) = true
  | 0, _, h => by
    rw [Expr.fits] at h
    cases h
  | _ + 1, .ident _, _ => by rw [Expr.fits]
  | _ + 1, .int _ _, _ => by rw [Expr.fits]
  | _ + 1, .bool _ _, _ => by rw [Expr.fits]
  | _ + 1, .unary _ _ _, h => by
    rw [Expr.fits] at h ⊢
    exact Expr.fits_succ h
  | _ + 1, .binary _ _ _ _, h => by
    rw [Expr.fits, Bool.and_eq_true] at h ⊢
    exact ⟨Expr.fits_succ h.1, Expr.fits_succ h.2⟩
  | _ + 1, .cond _ _ _ _, h => by
    rw [Expr.fits, Bool.and_eq_true, Bool.and_eq_true] at h ⊢
    exact ⟨⟨Expr.fits_succ h.1.1, Block.fits_succ h.1.2⟩, Block.fitsOption_succ h.2⟩
  | _ + 1, .fn _ _ _, h => by
    rw [Expr.fits] at h ⊢
    exact Block.fits_succ h
  | _ + 1, .call _ _ _, h => by
    rw [Expr.fits, Bool.and_eq_true] at h ⊢
    exact ⟨Expr.fits_succ h.1, Expr.fitsAll_succ h.2⟩

theorem Expr.fitsAll_succ : ∀ {depth : Nat} {es : List Expr}, Expr.fitsAll depth es = true →
    Expr.fitsAll (depth + 1) es = true
  | _, [], _ => by rw [Expr.fitsAll]
  | _, _ :: _, h => by
    rw [Expr.fitsAll, Bool.and_eq_true] at h ⊢
    exact ⟨Expr.fits_succ h.1, Expr.fitsAll_succ h.2⟩

theorem Expr.fitsOption_succ : ∀ {depth : Nat} {e : Option Expr}, Expr.fitsOption depth e = true →
    Expr.fitsOption (depth + 1) e = true
  | _, none, _ => by rw [Expr.fitsOption]
  | _, some _, h => by
    rw [Expr.fitsOption] at h ⊢
    exact Expr.fits_succ h

theorem Block.fits_succ : ∀ {depth : Nat} {b : Block}, b.fits depth = true →
    b.fits (depth + 1) = true
  | 0, _, h => by
    rw [Block.fits] at h
    cases h
  | _ + 1, .mk _ _, h => by
    rw [Block.fits] at h ⊢
    exact Stmt.fitsAll_succ h

theorem Block.fitsOption_succ : ∀ {depth : Nat} {b : Option Block},
    Block.fitsOption depth b = true → Block.fitsOption (depth + 1) b = true
  | _, none, _ => by rw [Block.fitsOption]
  | _, some _, h => by
    rw [Block.fitsOption] at h ⊢
    exact Block.fits_succ h

theorem Stmt.fits_succ : ∀ {depth : Nat} {s : Stmt}, s.fits depth = true →
    s.fits (depth + 1) = true
  | 0, _, h => by
    rw [Stmt.fits] at h
    cases h
  | _ + 1, .define _ _ _, h => by
    rw [Stmt.fits] at h ⊢
    exact Expr.fits_succ h
  | _ + 1, .ret _ _, h => by
    rw [Stmt.fits] at h ⊢
    exact Expr.fitsOption_succ h
  | _ + 1, .bare _ _, h => by
    rw [Stmt.fits] at h ⊢
    exact Expr.fits_succ h
  | _ + 1, .block _, h => by
    rw [Stmt.fits] at h ⊢
    exact Block.fits_succ h

theorem Stmt.fitsAll_succ : ∀ {depth : Nat} {ss : List Stmt}, Stmt.fitsAll depth ss = true →
    Stmt.fitsAll (depth + 1) ss = true
  | _, [], _ => by rw [Stmt.fitsAll]
  | _, _ :: _, h => by
    rw [Stmt.fitsAll, Bool.and_eq_true] at h ⊢
    exact ⟨Stmt.fits_succ h.1, Stmt.fitsAll_succ h.2⟩

end

variable {depth more : Nat}

/-- What fits within a depth fits within any larger one. -/
theorem Expr.fits_mono {e : Expr} (h : e.fits depth = true) (hle : depth ≤ more) :
    e.fits more = true := by
  induction hle with
  | refl => exact h
  | step _ ih => exact Expr.fits_succ ih

theorem Block.fits_mono {b : Block} (h : b.fits depth = true) (hle : depth ≤ more) :
    b.fits more = true := by
  induction hle with
  | refl => exact h
  | step _ ih => exact Block.fits_succ ih

end Inkwell
