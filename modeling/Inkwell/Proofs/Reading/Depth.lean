import Inkwell.Proofs.Reading.Progress

/-!
# Reading with more depth

Nothing that a reader does looks at how much depth is left, and no reader goes on after it stopped
for want of depth. With more depth it therefore does the same, unless it had stopped for that
reason.
-/

namespace Inkwell

namespace Reading

/-- A reader does what another one does, unless it stops for want of depth. -/
def Approximates {α : Type} (x y : ReadM α) : Prop :=
  ∀ cursor, x.run cursor = y.run cursor ∨ ∃ after, x.run cursor = .error .tooDeep after

namespace Approximates

/-- Every reader approximates itself. -/
theorem refl {α : Type} (x : ReadM α) : Approximates x x := fun _ => .inl rfl

/-- A sequence stops for want of depth where one of its steps does, and otherwise does the same. -/
theorem bind_steps {α β : Type} {x y : ReadM α} {f g : α → ReadM β} (hx : Approximates x y)
    (hf : ∀ a, Approximates (f a) (g a)) : Approximates (x >>= f) (y >>= g) := by
  intro cursor
  rw [run_bind_steps, run_bind_steps]
  rcases hx cursor with h | ⟨after, h⟩
  · rw [h]
    cases y.run cursor with
    | ok a middle => exact hf a middle
    | error => exact .inl rfl
  · rw [h]
    exact .inr ⟨after, rfl⟩

/-- The same holds of readers that may give up, and they give up alike. -/
theorem bind_parses {α β : Type} {x y : ParseM α} {f g : α → ParseM β}
    (hx : Approximates x.run y.run) (hf : ∀ a, Approximates (f a).run (g a).run) :
    Approximates (x >>= f).run (y >>= g).run := by
  intro cursor
  rw [run_bind_parses, run_bind_parses]
  rcases hx cursor with h | ⟨after, h⟩
  · rw [h]
    cases y.run.run cursor with
    | error => exact .inl rfl
    | ok result middle =>
      cases result with
      | none => exact .inl rfl
      | some a => exact hf a middle
  · rw [h]
    exact .inr ⟨after, rfl⟩

/-- Steps that always succeed approximate each other among readers that may give up, too. -/
theorem lift {α : Type} {x y : ReadM α} (hx : Approximates x y) :
    Approximates (liftM x : ParseM α).run (liftM y : ParseM α).run := by
  intro cursor
  rw [run_lift, run_lift]
  rcases hx cursor with h | ⟨after, h⟩
  · exact .inl (by rw [h])
  · exact .inr ⟨after, by rw [h]⟩

/-- The semicolon is skipped behind the same results. -/
theorem terminated {α : Type} {x y : ParseM α} (hx : Approximates x.run y.run) :
    Approximates (terminated x).run (terminated y).run := by
  intro cursor
  rw [run_terminated, run_terminated]
  rcases hx cursor with h | ⟨after, h⟩
  · exact .inl (by rw [h])
  · exact .inr ⟨after, by rw [h]⟩

end Approximates

/-- Approximation is respected by all readers. -/
def respectedApproximates :
    Respected (fun x y => Approximates x y) (fun x y => Approximates x.run y.run) where
  pure_steps _ := .refl _
  bind_steps hx hf := hx.bind_steps hf
  current := .refl _
  upcoming := .refl _
  remaining := .refl _
  advance := .refl _
  pure_parses _ := .refl _
  bind_parses hx hf := hx.bind_parses hf
  lift hx := hx.lift
  reject _ := .refl _
  integerOperand := .refl _
  terminated hx := hx.terminated
  attempted hx := hx

/-- More depth for nested expressions changes nothing but stops for want of depth. -/
theorem expression_approximates {depth deeper : Nat} (h : depth ≤ deeper) (level : Int) :
    Approximates (expression depth level).run (expression deeper level).run := by
  induction depth generalizing deeper level with
  | zero => exact fun cursor => .inr ⟨cursor, rfl⟩
  | succ depth ih =>
    obtain ⟨deeper, rfl⟩ : ∃ n, deeper = n + 1 := ⟨deeper - 1, by omega⟩
    exact respectedApproximates.nested (fun level => ih (by omega) level) level

end Reading

open Reading in
/-- A text that is read within some depth is read alike within any larger one. -/
theorem Program.read_eq_of_le {depth deeper : Nat} {tokens : List Token} (h : depth ≤ deeper)
    (hdeep : Program.read depth tokens ≠ .error .tooDeep) :
    Program.read deeper tokens = Program.read depth tokens := by
  have happ := respectedApproximates.program (expression_approximates h) (.ofTokens tokens)
  unfold Program.read at hdeep ⊢
  rcases happ with heq | ⟨after, hstop⟩
  · rw [heq]
  · rw [hstop] at hdeep
    exact absurd rfl hdeep

end Inkwell
