import Inkwell.Proofs.Evaluation.Keeps
import Mathlib.Data.List.Forall2

/-!
# Two runs side by side

Much that is to be said of evaluation compares two runs: the same tree evaluated twice, or in a heap
with other scopes before it, or a tree and one with other names. What goes together in two runs is a
coupling: which names, trees, values, scopes and machines correspond to each other, such that this
is kept by every single step that evaluation takes. Scopes that are created on the way are added to
a world, and what corresponds in a world still does in every later one.

Of two runs that are coupled the second follows the first: if the first ends within its depth, so
does the second, with a corresponding result and a corresponding machine. That this holds of all
functions of the evaluator is proved here once, for every coupling.
-/

namespace Inkwell

open EvalM

/-- Expressions with the same root and related parts. Of function literals only the root is
compared. -/
inductive Expr.Shape (expr : Expr → Expr → Prop) (block : Block → Block → Prop)
    (name : String → String → Prop) : Expr → Expr → Prop
  | ident {a b : Ident} : name a.name b.name → Shape expr block name (.ident a) (.ident b)
  | int {t u : Token} {number : Int} : Shape expr block name (.int t number) (.int u number)
  | bool {t u : Token} {truth : Bool} : Shape expr block name (.bool t truth) (.bool u truth)
  | unary {t u : Token} {operator : String} {a b : Expr} : expr a b →
    Shape expr block name (.unary t operator a) (.unary u operator b)
  | binary {t u : Token} {operator : String} {a b c d : Expr} : expr a b → expr c d →
    Shape expr block name (.binary t a operator c) (.binary u b operator d)
  | cond {t u : Token} {a b : Expr} {c d : Block} {x y : Option Block} : expr a b → block c d →
    Option.Rel block x y → Shape expr block name (.cond t a c x) (.cond u b d y)
  | fn {t u : Token} {ps qs : List Ident} {b c : Block} :
    Shape expr block name (.fn t ps b) (.fn u qs c)
  | call {t u : Token} {f g : Expr} {es fs : List Expr} : expr f g → List.Forall₂ expr es fs →
    Shape expr block name (.call t f es) (.call u g fs)

/-- Blocks with related statements. -/
inductive Block.Shape (stmt : Stmt → Stmt → Prop) : Block → Block → Prop
  | mk {t u : Token} {ss rs : List Stmt} : List.Forall₂ stmt ss rs →
    Shape stmt (.mk t ss) (.mk u rs)

/-- Statements of the same sort with related parts. -/
inductive Stmt.Shape (expr : Expr → Expr → Prop) (block : Block → Block → Prop)
    (name : String → String → Prop) : Stmt → Stmt → Prop
  | define {t u : Token} {a b : Ident} {e f : Expr} : name a.name b.name → expr e f →
    Shape expr block name (.define t a e) (.define u b f)
  | ret {t u : Token} {e f : Option Expr} : Option.Rel expr e f →
    Shape expr block name (.ret t e) (.ret u f)
  | bare {t u : Token} {e f : Expr} : expr e f → Shape expr block name (.bare t e) (.bare u f)
  | block {b c : Block} : block b c → Shape expr block name (.block b) (.block c)

section Shape

variable {expr : Expr → Expr → Prop} {block : Block → Block → Prop} {stmt : Stmt → Stmt → Prop}
  {name : String → String → Prop}

/-- An expression has the shape of itself. -/
theorem Expr.Shape.refl (he : ∀ e, expr e e) (hb : ∀ b, block b b) (hn : ∀ x, name x x) (e : Expr) :
    Expr.Shape expr block name e e := by
  cases e with
  | ident => exact .ident (hn _)
  | int => exact .int
  | bool => exact .bool
  | unary => exact .unary (he _)
  | binary => exact .binary (he _) (he _)
  | cond token condition consequence alternative =>
    refine .cond (he _) (hb _) ?_
    cases alternative with
    | none => exact .none
    | some => exact .some (hb _)
  | fn => exact .fn
  | call => exact .call (he _) (List.forall₂_same.mpr fun _ _ => he _)

theorem Block.Shape.refl (hs : ∀ s, stmt s s) (b : Block) : Block.Shape stmt b b := by
  cases b with
  | mk => exact .mk (List.forall₂_same.mpr fun _ _ => hs _)

theorem Stmt.Shape.refl (he : ∀ e, expr e e) (hb : ∀ b, block b b) (hn : ∀ x, name x x)
    (s : Stmt) : Stmt.Shape expr block name s s := by
  cases s with
  | define => exact .define (hn _) (he _)
  | ret token value =>
    cases value with
    | none => exact .ret .none
    | some => exact .ret (.some (he _))
  | bare => exact .bare (he _)
  | block => exact .block (hb _)

/-- The same tree has the same shape, in whatever way trees are compared. -/
theorem Expr.Shape.of_eq {Mode : Type} :
    ∀ {_ : Mode} {e f : Expr}, e = f → Expr.Shape Eq Eq Eq e f := by
  rintro _ e _ rfl
  exact .refl (fun _ => rfl) (fun _ => rfl) (fun _ => rfl) e

/-- Equal blocks have one shape, whatever the mode. -/
theorem Block.Shape.of_eq {Mode : Type} :
    ∀ {_ : Mode} {b c : Block}, b = c → Block.Shape Eq b c := by
  rintro _ b _ rfl
  exact .refl (fun _ => rfl) b

theorem Stmt.Shape.of_eq {Mode : Type} :
    ∀ {_ : Mode} {s r : Stmt}, s = r → Stmt.Shape Eq Eq Eq s r := by
  rintro _ s _ rfl
  exact .refl (fun _ => rfl) (fun _ => rfl) (fun _ => rfl) s

end Shape

/-- Values that no operator tells apart: functions may be any two functions, and all other values
are the same. -/
inductive Value.Alike : Value → Value → Prop
  | int (number : Int) : Alike (.int number) (.int number)
  | bool (truth : Bool) : Alike (.bool truth) (.bool truth)
  | null : Alike .null .null
  | error (message : String) : Alike (.error message) (.error message)
  | returned {a b : Value} : Alike a b → Alike (.returned a) (.returned b)
  | fn {ps qs : List String} {b c : Block} {s t : ScopeId} : Alike (.fn ps b s) (.fn qs c t)

namespace Value.Alike

variable {a b c d : Value}

/-- Values that are alike interrupt alike. -/
theorem interrupts_eq (h : a.Alike b) : a.interrupts = b.interrupts := by cases h <;> rfl

/-- They count alike as conditions. -/
theorem isTruthy_eq (h : a.Alike b) : a.isTruthy = b.isTruthy := by cases h <;> rfl

/-- They are of one kind. -/
theorem kind_eq (h : a.Alike b) : a.kind = b.kind := by cases h <;> rfl

/-- Operators before them give the same. -/
theorem unary_eq (h : a.Alike b) (operator : String) : a.unary operator = b.unary operator := by
  unfold Value.unary
  split
  · rw [h.isTruthy_eq]
  · cases h
    rfl
  · rename_i hbang hint
    split
    · exact absurd rfl hbang
    · cases h
      exact absurd rfl (hint _ rfl)
    · rw [h.kind_eq]

theorem binary_eq (h : a.Alike b) (h' : c.Alike d) (operator : String) :
    a.binary operator c = b.binary operator d := by
  cases h <;> cases h' <;> rfl

end Value.Alike

/-- Messages of the same sort with related texts. -/
inductive Message.Alike (text : String → String → Prop) : Message → Message → Prop
  | called {ps qs as bs : List String} : List.Forall₂ text ps qs → List.Forall₂ text as bs →
    Alike text (.called ps as) (.called qs bs)
  | returned {a b : String} : text a b → Alike text (.returned a) (.returned b)
  | bound {x y a b : String} : text x y → text a b → Alike text (.bound x a) (.bound y b)
  | raised (message : String) : Alike text (.raised message) (.raised message)
  | tested {c d a b : String} {truthy : Bool} : text c d → text a b →
    Alike text (.tested c a truthy) (.tested d b truthy)

/-- Messages that are alike are shown at the same verbosity. -/
theorem Message.Alike.rank_eq {text : String → String → Prop} {a b : Message}
    (h : a.Alike text b) : a.rank = b.rank := by cases h <;> rfl

/-- Where texts have to be equal, so have messages. -/
theorem Message.Alike.eq {a b : Message} (h : a.Alike Eq b) : a = b := by
  cases h with
  | called hps has =>
    rw [List.forall₂_eq_eq_eq] at hps has
    rw [hps, has]
  | returned h => rw [h]
  | bound hx ha => rw [hx, ha]
  | raised => rfl
  | tested hc ha => rw [hc, ha]

/-- A message is recorded at a verbosity, if it is of its rank. -/
def Machine.note (verbosity : Int) (machine : Machine) (message : Message) : Machine :=
  if (message.rank : Int) ≤ verbosity then machine.record message else machine

/-- A note leaves the heap alone. -/
@[simp]
theorem Machine.heap_note (verbosity : Int) (machine : Machine) (message : Message) :
    (machine.note verbosity message).heap = machine.heap := by
  unfold Machine.note
  split <;> rfl

/-- It leaves the number of open calls alone, too. -/
@[simp]
theorem Machine.openCalls_note (verbosity : Int) (machine : Machine) (message : Message) :
    (machine.note verbosity message).openCalls = machine.openCalls := by
  unfold Machine.note
  split <;> rfl

/-- What goes together in two runs. -/
structure Coupling where
  /-- The verbosity of the first run. -/
  loud : Int
  /-- The verbosity of the second run. -/
  quiet : Int
  quiet_le : quiet ≤ loud
  /-- The depths that the two runs have left. -/
  depth : Nat → Nat → Prop
  depth_succ {d e : Nat} : depth (d + 1) e → ∃ f, e = f + 1 ∧ depth d f
  /-- What is known of the scopes that were created so far. -/
  World : Type
  /-- A world with more scopes. -/
  later : World → World → Prop
  later_refl (w : World) : later w w
  later_trans {w w' w'' : World} : later w w' → later w' w'' → later w w''
  /-- The ways in which trees correspond. -/
  Mode : Type
  name : Mode → String → String → Prop
  expr : Mode → Expr → Expr → Prop
  block : Mode → Block → Block → Prop
  stmt : Mode → Stmt → Stmt → Prop
  expr_shape {mode : Mode} {e f : Expr} :
    expr mode e f → Expr.Shape (expr mode) (block mode) (name mode) e f
  block_shape {mode : Mode} {b c : Block} : block mode b c → Block.Shape (stmt mode) b c
  stmt_shape {mode : Mode} {s r : Stmt} :
    stmt mode s r → Stmt.Shape (expr mode) (block mode) (name mode) s r
  /-- Values that correspond. -/
  value : World → Value → Value → Prop
  value_later {w w' : World} {a b : Value} : later w w' → value w a b → value w' a b
  value_alike {w : World} {a b : Value} : value w a b → a.Alike b
  value_self {w : World} {a : Value} : a.kind ≠ .function → a.kind ≠ .returned → value w a a
  value_returned {w : World} {a b : Value} : value w (.returned a) (.returned b) ↔ value w a b
  /-- Scopes that correspond, and how trees correspond that are evaluated there. -/
  scope : World → Mode → ScopeId → ScopeId → Prop
  scope_later {w w' : World} {mode : Mode} {s t : ScopeId} :
    later w w' → scope w mode s t → scope w' mode s t
  fn {w : World} {mode : Mode} {s t : ScopeId} {a b : Token} {ps qs : List Ident} {c d : Block} :
    scope w mode s t → expr mode (.fn a ps c) (.fn b qs d) →
    value w (.fn (ps.map Ident.name) c s) (.fn (qs.map Ident.name) d t)
  /-- Machines that correspond. -/
  machine : World → Machine → Machine → Prop
  machine_enter {w : World} {m n : Machine} : machine w m n → machine w m.enter n.enter
  machine_leave {w : World} {m n : Machine} : machine w m n → machine w m.leave n.leave
  /-- A name is bound in both runs or in neither, where it is the same name. -/
  machine_get {w : World} {m n : Machine} {mode : Mode} {s t : ScopeId} {x y : String} {d e : Nat}
    {found : Option Value} : machine w m n → scope w mode s t → name mode x y → depth d e →
    m.heap.get? x d s = .ok found →
    ∃ other, n.heap.get? y e t = .ok other ∧ Option.Rel (value w) found other ∧
      (found = none → x = y)
  machine_set {w : World} {m n : Machine} {mode : Mode} {s t : ScopeId} {x y : String}
    {a b : Value} : machine w m n → scope w mode s t → name mode x y → value w a b →
    machine w (m.set s x a) (n.set t y b)
  /-- The scopes of two calls correspond in a later world, and so do the bodies there. -/
  machine_call {w : World} {m n : Machine} {ps qs : List String} {b c : Block} {s t : ScopeId}
    {as bs : List Value} : machine w m n → value w (.fn ps b s) (.fn qs c t) →
    List.Forall₂ (value w) as bs → ∃ w' mode, later w w' ∧
      machine w' { m with heap := (m.heap.allocate ⟨argumentBindings ps as, some s⟩).2 }
        { n with heap := (n.heap.allocate ⟨argumentBindings qs bs, some t⟩).2 } ∧
      scope w' mode m.heap.scopes.size n.heap.scopes.size ∧ block mode b c
  /-- How the texts of what corresponds are related. -/
  text : String → String → Prop
  name_text {mode : Mode} {x y : String} : name mode x y → text x y
  parameters_text {w : World} {ps qs : List String} {b c : Block} {s t : ScopeId} :
    value w (.fn ps b s) (.fn qs c t) → List.Forall₂ text ps qs
  value_text {w : World} {a b : Value} {d e : Nat} : value w a b → depth d e →
    a.fits d = true → b.fits e = true ∧ text a.text b.text
  expr_text {mode : Mode} {a b : Expr} {d e : Nat} : expr mode a b → depth d e →
    a.fits d = true → b.fits e = true ∧ text a.text b.text
  machine_note {w : World} {m n : Machine} {a b : Message} : machine w m n → a.Alike text b →
    machine w (m.note loud a) (n.note quiet b)

namespace Coupling

/-- Of equal depths, both are left with one less. -/
theorem depth_succ_of_eq {d e : Nat} (h : d + 1 = e) : ∃ f, e = f + 1 ∧ d = f := ⟨d, h.symm, rfl⟩

variable {C : Coupling} {w w' : C.World} {mode : C.Mode} {α β γ δ : Type} {s t : ScopeId}
  {d e : Nat}

/-- If the first steps end within their depth, so do the second, with a result and a machine that
correspond in a later world. -/
def Follows (C : Coupling) (w : C.World) (x : EvalM α) (y : EvalM β)
    (Q : C.World → α → β → Prop) : Prop :=
  ∀ m n, C.machine w m n → ∀ a after, x.run m = .ok a after →
    ∃ w' b last, y.run n = .ok b last ∧ C.later w w' ∧ C.machine w' after last ∧ Q w' a b

/-- Steps that make texts of what corresponds leave the machine alone. -/
def Shows (x : EvalM α) (y : EvalM β) (R : α → β → Prop) : Prop :=
  ∀ m a after, x.run m = .ok a after →
    after = m ∧ ∃ b, R a b ∧ ∀ n, y.run n = .ok b n

namespace Shows

variable {R : α → β → Prop} {S : γ → δ → Prop}

/-- Related texts are shown without a step. -/
theorem pure {a : α} {b : β} (h : R a b) : Shows (pure a) (pure b) R := by
  intro m _ _ hr
  cases hr
  exact ⟨rfl, b, h, fun _ => rfl⟩

/-- Showing one thing behind another is related if both parts are. -/
theorem bind {x : EvalM α} {y : EvalM β} {f : α → EvalM γ} {g : β → EvalM δ} (hx : Shows x y R)
    (hf : ∀ a b, R a b → Shows (f a) (g b) S) : Shows (x >>= f) (y >>= g) S := by
  intro m c last hr
  rw [run_bind] at hr
  cases hx' : x.run m with
  | error => rw [hx'] at hr; cases hr
  | ok a after =>
    rw [hx'] at hr
    obtain ⟨rfl, b, hab, hy⟩ := hx _ _ _ hx'
    obtain ⟨rfl, u, hu, hg⟩ := hf a b hab _ _ _ hr
    refine ⟨rfl, u, hu, fun n => ?_⟩
    rw [run_bind, hy]
    exact hg n

/-- Related values have related texts, if the depths are related. -/
theorem shown {a b : Value} (h : C.value w a b) (hd : C.depth d e) :
    Shows (EvalM.shown d a) (EvalM.shown e b) C.text := by
  intro m text after hr
  unfold EvalM.shown Value.text? at hr ⊢
  by_cases hfit : a.fits d = true
  · obtain ⟨hfit', htext⟩ := C.value_text h hd hfit
    rw [if_pos hfit] at hr
    cases hr
    refine ⟨rfl, b.text, htext, fun n => ?_⟩
    rw [if_pos hfit']
    rfl
  · rw [if_neg hfit] at hr
    cases hr

theorem shownExpr {a b : Expr} (h : C.expr mode a b) (hd : C.depth d e) :
    Shows (EvalM.shownExpr d a) (EvalM.shownExpr e b) C.text := by
  intro m text after hr
  unfold EvalM.shownExpr at hr ⊢
  by_cases hfit : a.fits d = true
  · obtain ⟨hfit', htext⟩ := C.expr_text h hd hfit
    rw [if_pos hfit] at hr
    cases hr
    refine ⟨rfl, b.text, htext, fun n => ?_⟩
    rw [if_pos hfit']
    rfl
  · rw [if_neg hfit] at hr
    cases hr

theorem mapM_shown {as bs : List Value} (h : List.Forall₂ (C.value w) as bs) (hd : C.depth d e) :
    Shows (as.mapM (EvalM.shown d)) (bs.mapM (EvalM.shown e)) (List.Forall₂ C.text) := by
  induction h with
  | nil => exact .pure .nil
  | cons hab _ ih =>
    rw [List.mapM_cons, List.mapM_cons]
    exact (shown hab hd).bind fun _ _ ht => ih.bind fun _ _ hts => .pure (.cons ht hts)

end Shows

namespace Follows

variable {Q : C.World → α → β → Prop} {P : C.World → γ → δ → Prop}

/-- Related results follow each other without a step. -/
theorem pure {a : α} {b : β} (h : Q w a b) : C.Follows w (pure a) (pure b) Q := by
  intro m n hm _ _ hr
  cases hr
  exact ⟨w, b, n, rfl, C.later_refl w, hm, h⟩

/-- Anything follows a run that reaches the limit. -/
theorem exceed {y : EvalM β} : C.Follows w (EvalM.exceed : EvalM α) y Q := by
  intro m n _ _ _ hr
  cases hr

/-- In a sequence the second parts follow each other from every later world. -/
theorem bind {x : EvalM α} {y : EvalM β} {f : α → EvalM γ} {g : β → EvalM δ}
    (hx : C.Follows w x y Q)
    (hf : ∀ {w'} a b, C.later w w' → Q w' a b → C.Follows w' (f a) (g b) P) :
    C.Follows w (x >>= f) (y >>= g) P := by
  intro m n hm c last hr
  rw [run_bind] at hr
  cases hx' : x.run m with
  | error => rw [hx'] at hr; cases hr
  | ok a after =>
    rw [hx'] at hr
    obtain ⟨w₁, b, middle, hy, hw₁, hm₁, hq⟩ := hx _ _ hm _ _ hx'
    obtain ⟨w₂, u, final, hg, hw₂, hm₂, hp⟩ := hf a b hw₁ hq _ _ hm₁ _ _ hr
    refine ⟨w₂, u, final, ?_, C.later_trans hw₁ hw₂, hm₂, hp⟩
    rw [run_bind, hy]
    exact hg

/-- A choice follows another one with the same condition, branch by branch. -/
theorem ite {c c' : Prop} [Decidable c] [Decidable c'] {x x' : EvalM α} {y y' : EvalM β}
    (hc : c ↔ c') (hx : c → C.Follows w x y Q) (hx' : ¬ c → C.Follows w x' y' Q) :
    C.Follows w (if c then x else x') (if c' then y else y') Q := by
  by_cases h : c
  · rw [if_pos h, if_pos (hc.mp h)]
    exact hx h
  · rw [if_neg h, if_neg fun h' => h (hc.mpr h')]
    exact hx' h

/-- A message is recorded if the verbosity is high enough, possibly in the first run alone. -/
theorem note {σ τ : Type} {x : EvalM σ} {y : EvalM τ} {R : σ → τ → Prop} {f : EvalM α}
    {g : EvalM β} (rank : Nat) (message : σ → Message) (message' : τ → Message)
    (hx : Shows x y R)
    (hmessage : ∀ a b, R a b → (message a).Alike C.text (message' b) ∧ (message a).rank = rank)
    (hf : C.Follows w f g Q) :
    C.Follows w
      (if (rank : Int) ≤ C.loud then x >>= fun a => EvalM.record (message a) >>= fun _ => f else f)
      (if (rank : Int) ≤ C.quiet then y >>= fun b => EvalM.record (message' b) >>= fun _ => g
        else g) Q := by
  intro m n hm a after hr
  by_cases hl : (rank : Int) ≤ C.loud
  · rw [if_pos hl, run_bind] at hr
    cases hx' : x.run m with
    | error => rw [hx'] at hr; cases hr
    | ok u middle =>
      rw [hx'] at hr
      obtain ⟨rfl, v, huv, hy⟩ := hx _ _ _ hx'
      obtain ⟨halike, hrank⟩ := hmessage u v huv
      have hnote := C.machine_note hm halike
      rw [Machine.note, if_pos (by rwa [hrank])] at hnote
      obtain ⟨w', b, last, hg, hrest⟩ := hf _ _ hnote _ _ hr
      refine ⟨w', b, last, ?_, hrest⟩
      rw [Machine.note, ← halike.rank_eq, hrank] at hg
      by_cases hq : (rank : Int) ≤ C.quiet
      · rw [if_pos hq] at hg ⊢
        rw [run_bind, hy]
        exact hg
      · rwa [if_neg hq] at hg ⊢
  · rw [if_neg hl] at hr
    rw [if_neg fun hq => hl (Int.le_trans hq C.quiet_le)]
    exact hf _ _ hm _ _ hr

/-- Where only one message can be recorded. -/
theorem note_same {f : EvalM α} {g : EvalM β} {message : Message}
    (hmessage : message.Alike C.text message) (hf : C.Follows w f g Q) :
    C.Follows w
      (if (message.rank : Int) ≤ C.loud then EvalM.record message >>= fun _ => f else f)
      (if (message.rank : Int) ≤ C.quiet then EvalM.record message >>= fun _ => g else g) Q := by
  have hunit : Shows (Pure.pure ()) (Pure.pure ()) fun _ _ : Unit => True := .pure trivial
  have hnote := note message.rank (fun _ => message) (fun _ => message) hunit
    (fun _ _ _ => ⟨hmessage, rfl⟩) hf
  simpa only [pure_bind] using hnote

/-- An error follows the same error. -/
theorem error (message : String) :
    C.Follows w (Pure.pure (Value.error message)) (Pure.pure (Value.error message)) C.value :=
  .pure (C.value_self nofun nofun)

/-- A fault that is raised follows the same fault, whatever is noted of it. -/
theorem raise {fault : Fault} :
    C.Follows w (EvalM.raise C.loud fault) (EvalM.raise C.quiet fault) C.value := by
  unfold EvalM.raise
  exact note_same (.raised fault.message) (error _)

theorem settle {result : Except Fault Value} (h : ∀ v, result = .ok v → v.Computed) :
    C.Follows w (EvalM.settle C.loud result) (EvalM.settle C.quiet result) C.value := by
  cases result with
  | error => exact raise
  | ok v =>
    refine .pure (C.value_self ?_ ?_)
    · cases h v rfl <;> nofun
    · cases h v rfl <;> nofun

/-- Related names give related values, and a name that is not found is the same in both. -/
theorem lookup {x y : String} (hs : C.scope w mode s t) (hx : C.name mode x y)
    (hd : C.depth d e) : C.Follows w (EvalM.lookup d s x) (EvalM.lookup e t y)
      fun w' found other => Option.Rel (C.value w') found other ∧ (found = none → x = y) := by
  intro m n hm found after hr
  rw [run_lookup] at hr
  cases hget : m.heap.get? x d s with
  | error => rw [hget] at hr; cases hr
  | ok result =>
    rw [hget] at hr
    cases hr
    obtain ⟨other, hother, hrel⟩ := C.machine_get hm hs hx hd hget
    refine ⟨w, other, n, ?_, C.later_refl w, hm, hrel⟩
    rw [run_lookup, hother]

/-- Binding related values to related names keeps the heaps related. -/
theorem define {x y : String} {a b : Value} (hs : C.scope w mode s t) (hx : C.name mode x y)
    (ha : C.value w a b) :
    C.Follows w (EvalM.define s x a) (EvalM.define t y b) fun _ _ _ => True := by
  intro m n hm _ _ hr
  cases hr
  exact ⟨w, (), _, rfl, C.later_refl w, C.machine_set hm hs hx ha, trivial⟩

/-- A call follows another one if what is inside does. -/
theorem nested {x : EvalM α} {y : EvalM β} (hx : C.Follows w x y Q) :
    C.Follows w (EvalM.nested x) (EvalM.nested y) Q := by
  intro m n hm a after hr
  rw [run_nested] at hr
  cases hx' : x.run m.enter with
  | error => rw [hx'] at hr; cases hr
  | ok u middle =>
    rw [hx'] at hr
    cases hr
    obtain ⟨w', b, last, hy, hw, hm', hq⟩ := hx _ _ (C.machine_enter hm) _ _ hx'
    refine ⟨w', b, last.leave, ?_, hw, C.machine_leave hm', hq⟩
    rw [run_nested, hy]

/-- The scope of a call is created, and the rest of the call happens there. -/
theorem allocate {ps qs : List String} {b c : Block} {as bs : List Value} {f : ScopeId → EvalM α}
    {g : ScopeId → EvalM β} (hfn : C.value w (.fn ps b s) (.fn qs c t))
    (ha : List.Forall₂ (C.value w) as bs)
    (hf : ∀ {w' mode inner inner'}, C.later w w' → C.scope w' mode inner inner' →
      C.block mode b c → C.Follows w' (f inner) (g inner') Q) :
    C.Follows w (EvalM.allocate ⟨argumentBindings ps as, some s⟩ >>= f)
      (EvalM.allocate ⟨argumentBindings qs bs, some t⟩ >>= g) Q := by
  intro m n hm a after hr
  obtain ⟨w₁, mode, hw₁, hm₁, hs, hb⟩ := C.machine_call hm hfn ha
  obtain ⟨w₂, u, last, hg, hw₂, hrest⟩ := hf hw₁ hs hb _ _ hm₁ _ _ hr
  exact ⟨w₂, u, last, hg, C.later_trans hw₁ hw₂, hrest⟩

/-- An operand: where it interrupts, its value is handed on in both runs. -/
theorem bind_value {x y : EvalM Value} {f : Value → EvalM γ} {g : Value → EvalM δ}
    {h : Value → γ} {h' : Value → δ} (hx : C.Follows w x y C.value)
    (hh : ∀ {w'} a b, C.value w' a b → P w' (h a) (h' b))
    (hf : ∀ {w'} a b, C.later w w' → C.value w' a b → C.Follows w' (f a) (g b) P) :
    C.Follows w (do let v ← x; if v.interrupts then return h v else f v)
      (do let v ← y; if v.interrupts then return h' v else g v) P := by
  refine hx.bind fun a b hw hab => .ite ?_ (fun _ => .pure (hh a b hab)) fun _ => hf a b hw hab
  rw [(C.value_alike hab).interrupts_eq]

end Follows

/-- Evaluators of expressions that correspond. -/
def Agrees (C : Coupling) (eval other : Evaluator) : Prop :=
  ∀ {w : C.World} {mode : C.Mode} {s t : ScopeId} {a b : Expr}, C.scope w mode s t →
    C.expr mode a b → C.Follows w (eval s a) (other t b) C.value

/-- Results of statements that correspond. -/
def result (C : Coupling) (w : C.World) : Option Value → Option Value → Prop :=
  Option.Rel (C.value w)

/-- Arguments that correspond, or what interrupts them. -/
def arguments (C : Coupling) (w : C.World) :
    Except Value (List Value) → Except Value (List Value) → Prop
  | .ok as, .ok bs => List.Forall₂ (C.value w) as bs
  | .error a, .error b => C.value w a b
  | _, _ => False

section Evaluator

variable {eval other : Evaluator}

/-- Values stay related in later worlds. -/
theorem values_later {as bs : List Value} (hw : C.later w w')
    (h : List.Forall₂ (C.value w) as bs) : List.Forall₂ (C.value w') as bs :=
  h.imp fun _ _ => C.value_later hw

mutual

/-- Statements of one shape follow each other. -/
theorem stmt_follows (he : C.Agrees eval other) (hd : C.depth d e) :
    ∀ {a b : Stmt} {w : C.World}, C.scope w mode s t → C.stmt mode a b →
    C.Follows w (a.eval C.loud d eval s) (b.eval C.quiet e other t) C.result
  | .bare _ _, _, _, hs, h => by
    cases C.stmt_shape h with
    | bare hexpr =>
      rw [Stmt.eval, Stmt.eval]
      exact (he hs hexpr).bind fun _ _ _ hv => .pure (.some hv)
  | .define _ _ _, _, _, hs, h => by
    cases C.stmt_shape h with
    | define hname hexpr =>
      rw [Stmt.eval, Stmt.eval]
      refine (he hs hexpr).bind_value (fun _ _ hv => .some hv) fun a b hw hv => ?_
      have hbound := Follows.define (C.scope_later hw hs) hname hv
      refine hbound.bind fun _ _ hw' _ => ?_
      have hv' := C.value_later hw' hv
      exact .note 2 (.bound _) (.bound _) (.shown hv' hd)
        (fun _ _ ht => ⟨.bound (C.name_text hname) ht, rfl⟩) (.pure .none)
  | .ret _ none, _, _, hs, h => by
    cases C.stmt_shape h with
    | ret hoperand =>
      cases hoperand
      rw [Stmt.eval, Stmt.eval]
      exact .pure (.some (C.value_returned.mpr (C.value_self nofun nofun)))
  | .ret _ (some _), _, _, hs, h => by
    cases C.stmt_shape h with
    | ret hoperand =>
      cases hoperand with
      | some hexpr =>
        rw [Stmt.eval, Stmt.eval]
        refine (he hs hexpr).bind fun a b _ hv => .pure (.some ?_)
        rw [(C.value_alike hv).interrupts_eq]
        split
        · exact hv
        · exact C.value_returned.mpr hv
  | .block _, _, _, hs, h => by
    cases C.stmt_shape h with
    | block hblock =>
      rw [Stmt.eval, Stmt.eval]
      exact block_follows he hd hs hblock

theorem block_follows (he : C.Agrees eval other) (hd : C.depth d e) :
    ∀ {b c : Block} {w : C.World}, C.scope w mode s t → C.block mode b c →
    C.Follows w (b.eval C.loud d eval s) (c.eval C.quiet e other t) C.result
  | .mk _ _, _, _, hs, h => by
    cases C.block_shape h with
    | mk hstmts =>
      rw [Block.eval, Block.eval]
      exact stmts_follow he hd hs .none hstmts

/-- So do statements one after the other, with the results of those before. -/
theorem stmts_follow (he : C.Agrees eval other) (hd : C.depth d e) :
    ∀ {ss rs : List Stmt} {last last' : Option Value} {w : C.World}, C.scope w mode s t →
    C.result w last last' → List.Forall₂ (C.stmt mode) ss rs →
    C.Follows w (Stmt.evalAll C.loud d eval s last ss) (Stmt.evalAll C.quiet e other t last' rs)
      C.result
  | [], _, _, _, _, _, hlast, h => by
    cases h
    rw [Stmt.evalAll, Stmt.evalAll]
    exact .pure hlast
  | _ :: _, _, _, _, _, hs, _, h => by
    cases h with
    | cons hstmt hrest =>
      rw [Stmt.evalAll, Stmt.evalAll]
      refine (stmt_follows he hd hs hstmt).bind fun a b hw hv => ?_
      have hs' := C.scope_later hw hs
      cases hv with
      | none => exact stmts_follow he hd hs' .none hrest
      | some hv =>
        refine .ite ?_ (fun _ => .pure (.some hv)) fun _ => stmts_follow he hd hs' (.some hv) hrest
        rw [(C.value_alike hv).interrupts_eq]

end

theorem arguments_follow (he : C.Agrees eval other) {as bs : List Expr} (hs : C.scope w mode s t)
    (h : List.Forall₂ (C.expr mode) as bs) :
    C.Follows w (Expr.evalArguments eval s as) (Expr.evalArguments other t bs) C.arguments := by
  induction h generalizing w with
  | nil => exact .pure .nil
  | cons hexpr _ ih =>
    rw [Expr.evalArguments, Expr.evalArguments]
    refine (he hs hexpr).bind_value (fun _ _ hv => hv) fun a b hw hv => ?_
    refine (ih (C.scope_later hw hs)).bind fun found found' hw' hfound => ?_
    cases found with
    | error => cases found' with
      | error => exact .pure hfound
      | ok => exact hfound.elim
    | ok => cases found' with
      | error => exact hfound.elim
      | ok => exact .pure (.cons (C.value_later hw' hv) hfound)

/-- What a call gives: the wrapper of a `return` is taken off, and null stands for no value. -/
theorem value_ending {r r' : Option Value} (h : C.result w r r') :
    C.value w (r.getD .null).unwrap (r'.getD .null).unwrap := by
  cases h with
  | none => exact C.value_self nofun nofun
  | some hv =>
    rw [Option.getD_some, Option.getD_some]
    have halike := C.value_alike hv
    cases halike with
    | returned => exact C.value_returned.mp hv
    | int | bool | null | error | fn => exact hv

theorem call_follows (he : C.Agrees eval other) (hd : C.depth d e) {a b : Value}
    {as bs : List Value} (h : C.value w a b) (ha : List.Forall₂ (C.value w) as bs) :
    C.Follows w (a.call C.loud d eval as) (b.call C.quiet e other bs) C.value := by
  have halike := C.value_alike h
  cases halike with
  | fn =>
    rw [Value.call, Value.call]
    refine .allocate h ha fun hw hs hblock => ?_
    refine .note 1 (.called _) (.called _) (.mapM_shown (values_later hw ha) hd)
      (fun _ _ ht => ⟨.called (C.parameters_text h) ht, rfl⟩) ?_
    refine (block_follows he hd hs hblock).nested.bind fun r r' _ hr => ?_
    have hend := value_ending hr
    exact .note 1 .returned .returned (.shown hend hd) (fun _ _ ht => ⟨.returned ht, rfl⟩)
      (.pure hend)
  | int | bool | null | error => exact .raise
  | returned => exact .raise

theorem branch_follows (he : C.Agrees eval other) (hd : C.depth d e) {b c : Block}
    (hs : C.scope w mode s t) (h : C.block mode b c) :
    C.Follows w (do return (← b.eval C.loud d eval s).getD .null)
      (do return (← c.eval C.quiet e other t).getD .null) C.value := by
  refine (block_follows he hd hs h).bind fun r r' _ hr => .pure ?_
  cases hr with
  | none => exact C.value_self nofun nofun
  | some hv => exact hv

end Evaluator

/-- A choice between two branches. -/
theorem Follows.cond {a b : Expr} {x x' y y' z z' : EvalM Value} (hexpr : C.expr mode a b)
    (hd : C.depth d e) (hx : C.Follows w x x' C.value)
    (hy : ∀ {w'}, C.later w w' → C.Follows w' y y' C.value)
    (hz : ∀ {w'}, C.later w w' → C.Follows w' z z' C.value) : C.Follows w (do
      let value ← x
      if value.interrupts then return value
      if 3 ≤ C.loud then
        let text ← EvalM.shownExpr d a
        EvalM.record (.tested text (← EvalM.shown d value) value.isTruthy)
      if value.isTruthy then y else z) (do
      let value ← x'
      if value.interrupts then return value
      if 3 ≤ C.quiet then
        let text ← EvalM.shownExpr e b
        EvalM.record (.tested text (← EvalM.shown e value) value.isTruthy)
      if value.isTruthy then y' else z') C.value := by
  refine hx.bind_value (fun _ _ h => h) fun u v hw huv => ?_
  have htruthy := (C.value_alike huv).isTruthy_eq
  have hrest : C.Follows _ (if u.isTruthy then y else z) (if v.isTruthy then y' else z') C.value :=
    .ite (by rw [htruthy]) (fun _ => hy hw) fun _ => hz hw
  have htexts : Shows
      (do let text ← EvalM.shownExpr d a; return (text, ← EvalM.shown d u))
      (do let text ← EvalM.shownExpr e b; return (text, ← EvalM.shown e v))
      fun p q => C.text p.1 q.1 ∧ C.text p.2 q.2 :=
    (Shows.shownExpr hexpr hd).bind fun _ _ ht => (Shows.shown huv hd).bind fun _ _ ht' =>
      .pure ⟨ht, ht'⟩
  have hnote := Follows.note 3 (fun p => .tested p.1 p.2 u.isTruthy)
    (fun q => .tested q.1 q.2 v.isTruthy) htexts
    (fun p q hpq => ⟨htruthy ▸ .tested hpq.1 hpq.2, rfl⟩) hrest
  simp only [bind_assoc, pure_bind] at hnote
  exact hnote

/-- Evaluation of a tree is followed by that of a corresponding one. -/
theorem expr_agrees (C : Coupling) (hde : C.depth d e) :
    C.Agrees (Expr.eval C.loud d) (Expr.eval C.quiet e) := by
  induction d generalizing e with
  | zero =>
    intro w mode s t a b _ _
    rw [Expr.eval]
    exact .exceed
  | succ d ih =>
    obtain ⟨e, rfl, hd⟩ := C.depth_succ hde
    have he : C.Agrees (Expr.eval C.loud d) (Expr.eval C.quiet e) := ih hd
    intro w mode s t a b hs hexpr
    cases C.expr_shape hexpr with
    | int =>
      rw [Expr.eval, Expr.eval]
      exact .pure (C.value_self (by rintro ⟨⟩) (by rintro ⟨⟩))
    | bool =>
      rw [Expr.eval, Expr.eval]
      exact .pure (C.value_self (by rintro ⟨⟩) (by rintro ⟨⟩))
    | fn =>
      rw [Expr.eval, Expr.eval]
      exact .pure (C.fn hs hexpr)
    | ident hname =>
      rw [Expr.eval, Expr.eval]
      refine (Follows.lookup hs hname hd).bind fun found found' _ hfound => ?_
      obtain ⟨hrel, hsame⟩ := hfound
      cases hrel with
      | none =>
        rw [hsame rfl]
        exact .raise
      | some hv => exact .pure hv
    | unary hoperand =>
      rw [Expr.eval, Expr.eval]
      refine (he hs hoperand).bind_value (fun _ _ h => h) fun u v _ huv => ?_
      rw [(C.value_alike huv).unary_eq]
      exact .settle fun _ => Value.computed_unary
    | binary hleft hright =>
      rw [Expr.eval, Expr.eval]
      refine (he hs hleft).bind_value (fun _ _ h => h) fun u v hw huv => ?_
      refine (he (C.scope_later hw hs) hright).bind_value (fun _ _ h => h) fun u' v' _ huv' => ?_
      rw [(C.value_alike huv).binary_eq (C.value_alike huv')]
      exact .settle fun _ => Value.computed_binary
    | cond hcondition hthen helse =>
      cases helse with
      | none =>
        rw [Expr.eval, Expr.eval]
        exact .cond hcondition hd (he hs hcondition)
          (fun hw => branch_follows he hd (C.scope_later hw hs) hthen)
          fun _ => .pure (C.value_self nofun nofun)
      | some helse =>
        rw [Expr.eval, Expr.eval]
        exact .cond hcondition hd (he hs hcondition)
          (fun hw => branch_follows he hd (C.scope_later hw hs) hthen)
          fun hw => branch_follows he hd (C.scope_later hw hs) helse
    | call hcallee harguments =>
      rw [Expr.eval, Expr.eval]
      refine (he hs hcallee).bind_value (fun _ _ h => h) fun u v hw huv => ?_
      refine (arguments_follow he (C.scope_later hw hs) harguments).bind
        fun found found' hw' hfound => ?_
      cases found with
      | error => cases found' with
        | error => exact .pure hfound
        | ok => exact hfound.elim
      | ok => cases found' with
        | error => exact hfound.elim
        | ok => exact call_follows he hd (C.value_later hw' huv) hfound

/-- The value of a program is that of a corresponding one. -/
theorem program_follows (hd : C.depth d e) {p q : Program} (hs : C.scope w mode s t)
    (h : List.Forall₂ (C.stmt mode) p.statements q.statements) :
    C.Follows w (p.eval C.loud d s) (q.eval C.quiet e t) C.result := by
  refine (stmts_follow (C.expr_agrees hd) hd hs .none h).bind fun r r' _ hr => .pure ?_
  cases hr with
  | none => exact .none
  | some hv => exact .some (value_ending (.some hv))

end Coupling

end Inkwell
