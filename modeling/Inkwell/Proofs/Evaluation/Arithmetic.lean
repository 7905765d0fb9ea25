import Inkwell.Proofs.Evaluation.Conduct
import Inkwell.Proofs.Value.Wrap
import Mathlib.Order.Filter.AtTopBot.Basic

/-!
# Arithmetic in 64 bits

Sums, differences, products and negations wrap around after every single operation. This never
shows in the result, which is the wrapped value of the whole expression over the unbounded integers.
Quotients are the floor of the exact quotient of the wrapped operands, and comparisons compare
these.

What an expression gives does not depend on the depth, as long as the depth is large enough: `Gives`
says what happens within any depth, and there is one rule for each construct of arithmetic.
-/

namespace Inkwell

open Filter

variable {a b y z : Int}

/-- What is found within some depth is found within any larger one. -/
theorem Heap.get?_of_le {heap : Heap} {name : String} {found : Option Value} {depth more : Nat}
    {scope : ScopeId} (h : heap.get? name depth scope = .ok found) (hle : depth ≤ more) :
    heap.get? name more scope = .ok found := by
  induction depth generalizing scope more with
  | zero => cases h
  | succ depth ih =>
    obtain ⟨more, rfl⟩ : ∃ n, more = n + 1 := Nat.exists_eq_succ_of_ne_zero (by omega)
    unfold Heap.get? at h ⊢
    cases hs : heap.scopes[scope]? with
    | none => rwa [hs] at h
    | some s =>
      rw [hs] at h
      dsimp only at h ⊢
      cases hv : s.bindings.get? name with
      | some v => rwa [hv] at h
      | none =>
        rw [hv] at h
        cases ho : s.outer with
        | none => rwa [ho] at h
        | some outer =>
          rw [ho] at h
          exact ih h (by omega)

/-- Whatever is found for a name is the same within any depth. -/
theorem Heap.get?_eq_or {heap : Heap} {name : String} {found : Option Value} {depth : Nat}
    {scope : ScopeId} (h : heap.get? name depth scope = .ok found) (other : Nat) :
    heap.get? name other scope = .ok found ∨ heap.get? name other scope = .error .mk := by
  cases hother : heap.get? name other scope with
  | error => exact .inr rfl
  | ok found' =>
    have hmax := (Heap.get?_of_le h (Nat.le_max_left depth other)).symm.trans
      (Heap.get?_of_le hother (Nat.le_max_right depth other))
    exact .inl hmax.symm

namespace Expr

/-- An expression gives a value within every sufficiently large depth, and within a smaller one it
gives the same or exceeds the depth. Nothing happens to the machine but what `after` says of a
verbosity. -/
structure Gives (e : Expr) (machine : Machine) (scope : ScopeId) (v : Value)
    (after : Int → Machine) : Prop where
  /-- Sufficient depth. -/
  eventually : ∀ᶠ depth in atTop, ∀ verbosity,
    (e.eval verbosity depth scope).run machine = .ok v (after verbosity)
  /-- Any depth. -/
  within : ∀ depth verbosity,
    (e.eval verbosity depth scope).run machine = .ok v (after verbosity) ∨
      (e.eval verbosity depth scope).run machine = .error .mk machine

variable {machine : Machine} {scope : ScopeId} {left right : Expr} {v w u : Value}
  {after : Int → Machine} {verbosity : Int} {depth : Nat}

namespace Gives

/-- What the next depth does decides what all depths do. -/
theorem of_succ {e : Expr}
    (heventually : ∀ᶠ depth in atTop, ∀ verbosity,
      (e.eval verbosity (depth + 1) scope).run machine = .ok v (after verbosity))
    (hwithin : ∀ depth verbosity,
      (e.eval verbosity (depth + 1) scope).run machine = .ok v (after verbosity) ∨
        (e.eval verbosity (depth + 1) scope).run machine = .error .mk machine) :
    e.Gives machine scope v after where
  eventually := by
    rw [← map_add_atTop_eq_nat 1]
    exact heventually
  within
    | 0, _ => .inr rfl
    | depth + 1, verbosity => hwithin depth verbosity

/-- An integer literal gives its number and leaves the machine alone. -/
theorem int (token : Token) (number : Int) :
    (Expr.int token number).Gives machine scope (.int number) fun _ => machine :=
  .of_succ (.of_forall fun _ _ => rfl) fun _ _ => .inl rfl

/-- A name gives what it is bound to. -/
theorem ident {name : Ident} (h : machine.heap.get? name.name depth scope = .ok (some v)) :
    (Expr.ident name).Gives machine scope v fun _ => machine := by
  have hrun : ∀ depth verbosity, ((Expr.ident name).eval verbosity (depth + 1) scope).run machine =
      match machine.heap.get? name.name depth scope with
      | .ok (some v) => .ok v machine
      | .ok none => (EvalM.raise verbosity (.unbound name.name)).run machine
      | .error _ => .error .mk machine := by
    intro depth verbosity
    rw [Expr.eval, EvalM.run_bind, EvalM.run_lookup]
    cases machine.heap.get? name.name depth scope with
    | error => rfl
    | ok found => cases found <;> rfl
  refine .of_succ ?_ fun other verbosity => ?_
  · filter_upwards [eventually_ge_atTop depth] with other hle verbosity
    rw [hrun, Heap.get?_of_le h hle]
  · rw [hrun]
    exact (Heap.get?_eq_or h other).imp (fun hget => by rw [hget]) fun hget => by rw [hget]

/-- An operator before an operand that does not interrupt evaluation. -/
theorem unary {token : Token} {operator : String} (h : right.Gives machine scope v fun _ => machine)
    (hv : v.interrupts = false)
    (hsettle : ∀ verbosity,
      (EvalM.settle verbosity (v.unary operator)).run machine = .ok u (after verbosity)) :
    (Expr.unary token operator right).Gives machine scope u after := by
  have hok : ∀ {depth verbosity},
      (right.eval verbosity depth scope).run machine = .ok v machine →
      ((Expr.unary token operator right).eval verbosity (depth + 1) scope).run machine =
        .ok u (after verbosity) := by
    intro depth verbosity hrun
    rw [Expr.eval, EvalM.run_bind, hrun]
    simp only [hv, Bool.false_eq_true, if_false]
    exact hsettle verbosity
  refine .of_succ (h.eventually.mono fun depth hd verbosity => hok (hd verbosity))
    fun depth verbosity => (h.within depth verbosity).imp hok fun hrun => ?_
  rw [Expr.eval, EvalM.run_bind, hrun]

/-- An operator between operands that do not interrupt evaluation. -/
theorem binary {token : Token} {operator : String}
    (hl : left.Gives machine scope v fun _ => machine)
    (hr : right.Gives machine scope w fun _ => machine) (hv : v.interrupts = false)
    (hw : w.interrupts = false)
    (hsettle : ∀ verbosity,
      (EvalM.settle verbosity (v.binary operator w)).run machine = .ok u (after verbosity)) :
    (Expr.binary token left operator right).Gives machine scope u after := by
  have hleft : ∀ {depth verbosity},
      (left.eval verbosity depth scope).run machine = .ok v machine →
      ((Expr.binary token left operator right).eval verbosity (depth + 1) scope).run machine =
        match (right.eval verbosity depth scope).run machine with
        | .ok second last =>
          (if second.interrupts then pure second
            else EvalM.settle verbosity (v.binary operator second)).run last
        | .error exceeded last => .error exceeded last := by
    intro depth verbosity hrun
    rw [Expr.eval, EvalM.run_bind, hrun]
    simp only [hv, Bool.false_eq_true, if_false]
    rw [EvalM.run_bind]
    cases (right.eval verbosity depth scope).run machine <;> rfl
  have hok : ∀ {depth verbosity},
      (left.eval verbosity depth scope).run machine = .ok v machine →
      (right.eval verbosity depth scope).run machine = .ok w machine →
      ((Expr.binary token left operator right).eval verbosity (depth + 1) scope).run machine =
        .ok u (after verbosity) := by
    intro depth verbosity hrun hrun'
    rw [hleft hrun, hrun']
    simp only [hw, Bool.false_eq_true, if_false]
    exact hsettle verbosity
  refine .of_succ ?_ fun depth verbosity => ?_
  · filter_upwards [hl.eventually, hr.eventually] with depth hd hd' verbosity
    exact hok (hd verbosity) (hd' verbosity)
  · rcases hl.within depth verbosity with hrun | hrun
    · refine (hr.within depth verbosity).imp (hok hrun) fun hrun' => ?_
      rw [hleft hrun, hrun']
    · right
      rw [Expr.eval, EvalM.run_bind, hrun]

/-- An operator between integers that has a value. -/
theorem arithmetic {token : Token} {operator : String}
    (hl : left.Gives machine scope (.int a) fun _ => machine)
    (hr : right.Gives machine scope (.int b) fun _ => machine)
    (h : Value.arithmetic operator a b = .ok u) :
    (Expr.binary token left operator right).Gives machine scope u fun _ => machine :=
  hl.binary hr rfl rfl fun _ => by rw [Value.binary, h]; rfl

end Gives

/-- The value of an expression over the unbounded integers. Its operators are sums, differences,
products and negations; its literals are those that there are, and its names are bound to integers
in the range. -/
inductive Denotes (heap : Heap) (scope : ScopeId) : Expr → Int → Prop
  | int {token : Token} {number : Int} : 0 ≤ number → number ≤ maxInteger →
    Denotes heap scope (.int token number) number
  | ident {name : Ident} {number : Int} {depth : Nat} :
    heap.get? name.name depth scope = .ok (some (.int number)) → Signed number →
    Denotes heap scope (.ident name) number
  | neg {token : Token} {e : Expr} {z : Int} : Denotes heap scope e z →
    Denotes heap scope (.unary token "-" e) (-z)
  | add {token : Token} {left right : Expr} {y z : Int} : Denotes heap scope left y →
    Denotes heap scope right z → Denotes heap scope (.binary token left "+" right) (y + z)
  | sub {token : Token} {left right : Expr} {y z : Int} : Denotes heap scope left y →
    Denotes heap scope right z → Denotes heap scope (.binary token left "-" right) (y - z)
  | mul {token : Token} {left right : Expr} {y z : Int} : Denotes heap scope left y →
    Denotes heap scope right z → Denotes heap scope (.binary token left "*" right) (y * z)

/-- Wrapping after every operation comes to the same as wrapping once. -/
theorem Denotes.gives {e : Expr} (h : e.Denotes machine.heap scope z) :
    e.Gives machine scope (.int (wrap z)) fun _ => machine := by
  induction h with
  | @int token number hlow hhigh =>
    have hsigned : Signed number := by
      unfold Signed
      unfold maxInteger at hhigh
      omega
    rw [wrap_of_signed hsigned]
    exact .int token number
  | ident hget hsigned =>
    rw [wrap_of_signed hsigned]
    exact .ident hget
  | @neg _ _ z _ ih =>
    rw [← wrap_neg_wrap]
    exact ih.unary rfl fun _ => rfl
  | @add _ _ _ y z _ _ ihl ihr =>
    rw [← wrap_add_wrap]
    exact ihl.arithmetic ihr rfl
  | @sub _ _ _ y z _ _ ihl ihr =>
    rw [← wrap_sub_wrap]
    exact ihl.arithmetic ihr rfl
  | @mul _ _ _ y z _ _ ihl ihr =>
    rw [← wrap_mul_wrap]
    exact ihl.arithmetic ihr rfl

end Expr

/-- Arithmetic is exact in 64 bits. An expression gives the one integer in the range that agrees
with its unbounded value modulo two to the power of 64. A quotient of two such expressions is the
floor of the exact one, except that the smallest integer divided by minus one is itself; division by
zero is a fault. Comparisons are those of the wrapped operands. -/
theorem Expr.Denotes.gives_wrapped {machine : Machine} {scope : ScopeId} {left right : Expr}
    (hl : left.Denotes machine.heap scope y) (hr : right.Denotes machine.heap scope z)
    (token : Token) :
    left.Gives machine scope (.int (wrap y)) (fun _ => machine) ∧
    (Signed (wrap y) ∧ wrap y ≡ y [ZMOD 2 ^ 64] ∧
      ∀ number, Signed number → number ≡ y [ZMOD 2 ^ 64] → number = wrap y) ∧
    (wrap z ≠ 0 → ∃ q, (Expr.binary token left "/" right).Gives machine scope (.int q)
        (fun _ => machine) ∧
      if wrap y = -2 ^ 63 ∧ wrap z = -1 then q = -2 ^ 63 else IsFloor (wrap y) (wrap z) q) ∧
    (wrap z = 0 → (Expr.binary token left "/" right).Gives machine scope
      (.error "division by zero: INTEGER / INTEGER") fun verbosity =>
        machine.note verbosity (.raised "division by zero: INTEGER / INTEGER")) ∧
    (Expr.binary token left "<" right).Gives machine scope (.bool (wrap y < wrap z))
      (fun _ => machine) ∧
    (Expr.binary token left ">" right).Gives machine scope (.bool (wrap z < wrap y))
      (fun _ => machine) ∧
    (Expr.binary token left "==" right).Gives machine scope (.bool (wrap y = wrap z))
      (fun _ => machine) ∧
    (Expr.binary token left "!=" right).Gives machine scope (.bool (wrap y ≠ wrap z))
      (fun _ => machine) := by
  have hdiv : Value.arithmetic "/" (wrap y) (wrap z) =
      if wrap z = 0 then .error .divisionByZero
      else .ok (.int (wrap ((wrap y).fdiv (wrap z)))) := rfl
  refine ⟨hl.gives, ⟨signed_wrap y, wrap_modEq y, fun _ => eq_wrap_of_modEq⟩, fun hz => ?_,
    fun hz => ?_, hl.gives.arithmetic hr.gives rfl, hl.gives.arithmetic hr.gives rfl,
    hl.gives.arithmetic hr.gives rfl, hl.gives.arithmetic hr.gives rfl⟩
  · rw [if_neg hz] at hdiv
    refine ⟨_, hl.gives.arithmetic hr.gives hdiv, ?_⟩
    split
    next hpair =>
      rw [hpair.1, hpair.2]
      rfl
    next hpair =>
      rw [wrap_fdiv (signed_wrap y) hz hpair]
      exact isFloor_fdiv _ _
  · rw [if_pos hz] at hdiv
    refine hl.gives.binary hr.gives rfl rfl fun verbosity => ?_
    rw [Value.binary, hdiv]
    exact EvalM.run_raise verbosity .divisionByZero machine

/-- The one pair of operands whose quotient is out of range, the smallest integer and minus one. -/
theorem Expr.Denotes.gives_wrapped_smallest :
    let machine : Machine := .ofHeap ⟨#[⟨[("x", .int (-2 ^ 63))], none⟩]⟩
    let x : Expr := .ident ⟨⟨.ident, "x"⟩, "x"⟩
    let minusOne : Expr := .unary ⟨.minus, "-"⟩ "-" (.int ⟨.int, "1"⟩ 1)
    x.Denotes machine.heap 0 (-2 ^ 63) ∧ minusOne.Denotes machine.heap 0 (-1) ∧
      (Expr.binary ⟨.slash, "/"⟩ x "/" minusOne).Gives machine 0 (.int (-2 ^ 63))
        fun _ => machine := by
  intro machine x minusOne
  have hfound : machine.heap.get? "x" 1 0 = .ok (some (.int (-2 ^ 63))) := rfl
  have hx : x.Denotes machine.heap 0 (-2 ^ 63) := .ident hfound (by decide)
  have hone : minusOne.Denotes machine.heap 0 (-1) := .neg (.int (by decide) (by decide))
  obtain ⟨q, hgives, hq⟩ := (hx.gives_wrapped hone ⟨.slash, "/"⟩).2.2.1 (by decide)
  rw [if_pos (by decide)] at hq
  rw [hq] at hgives
  exact ⟨hx, hone, hgives⟩

end Inkwell
