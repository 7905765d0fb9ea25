import Inkwell.Proofs.Evaluation.Coupling
import Inkwell.Proofs.Evaluation.Points
import Inkwell.Proofs.Tree.Literals

/-!
# What a run keeps to

Much that is to be said of evaluation speaks of one run, whichever way it ends: what its heap is
like from step to step, and what it records between two machines. Such a conduct says which heaps
and values there may be, in a world that knows all scopes and gets more of them on the way, and what
may happen between the machines before and after, with an error, without one, or up to the point
where the depth is exceeded. It only has to be kept by every single step that evaluation takes.

That all functions of the evaluator then keep to it is proved here once, for every conduct. So do
the points of a run, which have their place in a world that comes later.
-/

namespace Inkwell

open EvalM

/-- Whether a message marks where a call begins or ends. -/
def Message.marksCall : Message → Bool
  | called _ _ => true
  | returned _ => true
  | bound _ _ => false
  | raised _ => false
  | tested _ _ _ => false

/-- The error that a message tells of. -/
def Message.error? : Message → Option String
  | raised message => some message
  | called _ _ => none
  | returned _ => none
  | bound _ _ => none
  | tested _ _ _ => none

/-- The machine on which the body of a function starts, called on another machine. -/
def Machine.opened (verbosity : Int) (machine : Machine) (parameters : List String)
    (arguments : List Value) (outer : ScopeId) : Machine :=
  (Machine.note verbosity
    { machine with
      heap := (machine.heap.allocate ⟨argumentBindings parameters arguments, some outer⟩).2 }
    (.called parameters (arguments.map Value.text))).enter

/-- The machine that a call leaves, whose body ended on another machine. -/
def Machine.closed (verbosity : Int) (machine : Machine) (result : Value) : Machine :=
  machine.leave.note verbosity (.returned result.text)

/-- What a call gives, whose body has a result. -/
def Value.ofBody (result : Option Value) : Value := (result.getD .null).unwrap

namespace EvalM

variable {verbosity : Int} {depth : Nat} {machine : Machine}

/-- A value is shown if it fits into the depth, and showing it changes nothing. -/
theorem run_shown (depth : Nat) (v : Value) (machine : Machine) :
    (shown depth v).run machine =
      if v.fits depth then .ok v.text machine else .error .mk machine := by
  unfold shown Value.text?
  cases v.fits depth <;> rfl

theorem run_shownExpr (depth : Nat) (e : Expr) (machine : Machine) :
    (shownExpr depth e).run machine =
      if e.fits depth then .ok e.text machine else .error .mk machine := by
  unfold shownExpr
  split <;> rfl

/-- Values are shown in a row if all of them fit. -/
theorem run_mapM_shown (depth : Nat) (values : List Value) (machine : Machine) :
    (values.mapM (shown depth)).run machine =
      if values.all (Value.fits depth) then .ok (values.map Value.text) machine
      else .error .mk machine := by
  induction values with
  | nil => rfl
  | cons first rest ih =>
    rw [List.mapM_cons, run_bind, run_shown, List.all_cons, List.map_cons]
    cases hfirst : first.fits depth with
    | false => rfl
    | true =>
      simp only [if_true, Bool.true_and]
      rw [run_bind, ih]
      cases rest.all (Value.fits depth) <;> rfl

/-- Raising a fault gives its message as a value, and notes it. -/
theorem run_raise (verbosity : Int) (fault : Fault) (machine : Machine) :
    (raise verbosity fault).run machine =
      .ok (.error fault.message) (machine.note verbosity (.raised fault.message)) := by
  by_cases h : 2 ≤ verbosity
  · rw [raise, if_pos h, Machine.note, if_pos (by exact h)]
    rfl
  · rw [raise, if_neg h, Machine.note, if_neg (by exact h)]
    rfl

end EvalM

/-- The call of a function, step by step: its arguments are shown, its body runs in a new scope, and
what it gives is shown. -/
theorem Value.run_call_fn (verbosity : Int) (depth : Nat) (eval : Evaluator)
    (parameters : List String) (body : Block) (outer : ScopeId) (arguments : List Value)
    (machine : Machine) :
    ((Value.fn parameters body outer).call verbosity depth eval arguments).run machine =
      if 1 ≤ verbosity ∧ arguments.all (Value.fits depth) = false then
        .error .mk { machine with
          heap := (machine.heap.allocate ⟨argumentBindings parameters arguments, some outer⟩).2 }
      else match (body.eval verbosity depth eval machine.heap.scopes.size).run
          (machine.opened verbosity parameters arguments outer) with
        | .error exceeded left => .error exceeded left.leave
        | .ok result left =>
          if 1 ≤ verbosity ∧ (Value.ofBody result).fits depth = false then .error .mk left.leave
          else .ok (Value.ofBody result) (left.closed verbosity (Value.ofBody result)) := by
  have hallocate : (allocate ⟨argumentBindings parameters arguments, some outer⟩).run machine =
      .ok machine.heap.scopes.size { machine with
        heap := (machine.heap.allocate ⟨argumentBindings parameters arguments, some outer⟩).2 } :=
    rfl
  rw [Value.call, run_bind, hallocate]
  dsimp only
  by_cases hv : 1 ≤ verbosity
  · have hreturned : ∀ text (m : Machine), m.note verbosity (.returned text) =
        m.record (.returned text) := fun text m => if_pos hv
    have hcalled : ∀ names texts (m : Machine), m.note verbosity (.called names texts) =
        m.record (.called names texts) := fun names texts m => if_pos hv
    rw [if_pos hv, run_bind, run_mapM_shown]
    cases harguments : arguments.all (Value.fits depth) with
    | false => simp [hv]
    | true =>
      simp only [if_true, Bool.true_eq_false, and_false, if_false]
      rw [run_bind]
      have hrecord : (record (.called parameters (arguments.map Value.text))).run { machine with
          heap := (machine.heap.allocate ⟨argumentBindings parameters arguments, some outer⟩).2 } =
          .ok () (Machine.note verbosity { machine with
            heap := (machine.heap.allocate
              ⟨argumentBindings parameters arguments, some outer⟩).2 }
            (.called parameters (arguments.map Value.text))) := by
        rw [hcalled]
        rfl
      rw [hrecord]
      dsimp only
      rw [run_bind, run_nested, ← Machine.opened]
      cases hbody : (body.eval verbosity depth eval machine.heap.scopes.size).run
          (machine.opened verbosity parameters arguments outer) with
      | error => rfl
      | ok result left =>
        dsimp only
        rw [if_pos hv, run_bind, run_shown, ← Value.ofBody]
        cases hresult : (Value.ofBody result).fits depth with
        | false => simp [hv]
        | true =>
          simp only [if_true, Bool.true_eq_false, and_false, if_false]
          rw [Machine.closed, hreturned]
          rfl
  · have hnote : ∀ (m : Machine) message, message.marksCall = true →
        m.note verbosity message = m := by
      intro m message hmarks
      refine if_neg fun hle => hv ?_
      cases message with
      | called => exact hle
      | returned => exact hle
      | bound => cases hmarks
      | raised => cases hmarks
      | tested => cases hmarks
    rw [if_neg hv, if_neg fun h => hv h.1, run_bind, run_nested, Machine.opened, hnote _ _ rfl]
    cases hbody : (body.eval verbosity depth eval machine.heap.scopes.size).run
        (Machine.enter { machine with
          heap := (machine.heap.allocate
            ⟨argumentBindings parameters arguments, some outer⟩).2 }) with
    | error => rfl
    | ok result left =>
      dsimp only
      rw [if_neg hv, if_neg fun h => hv h.1, Machine.closed, hnote _ _ rfl]
      rfl

/-- What a run keeps to. -/
structure Conduct where
  /-- The verbosity of the run. -/
  verbosity : Int
  /-- What is known of the scopes that were created so far. -/
  World : Type
  /-- A world with more scopes. -/
  later : World → World → Prop
  later_refl (w : World) : later w w
  later_trans {w w' w'' : World} : later w w' → later w' w'' → later w w''
  /-- Function literals that may be evaluated. -/
  literal : Literal → Prop
  /-- Values that may be bound, passed and called. -/
  value : World → Value → Prop
  value_later {w w' : World} {v : Value} : later w w' → value w v → value w' v
  value_plain {w : World} {v : Value} : v.kind ≠ .function → v.interrupts = false → value w v
  value_unwrap {w : World} {v : Value} : value w v → value w v.unwrap
  /-- Scopes in which trees may be evaluated that stand inside some number of function literals. -/
  scope : World → Nat → ScopeId → Prop
  scope_later {w w' : World} {level : Nat} {s : ScopeId} :
    later w w' → scope w level s → scope w' level s
  fn {w : World} {level : Nat} {s : ScopeId} {parameters : List String} {body : Block} :
    scope w level s → literal ⟨level, parameters, body⟩ → value w (.fn parameters body s)
  /-- Heaps that there may be. -/
  heap : World → Heap → Prop
  heap_get {w : World} {h : Heap} {level depth : Nat} {s : ScopeId} {name : String} {v : Value} :
    heap w h → scope w level s → h.get? name depth s = .ok (some v) → value w v
  heap_set {w : World} {h : Heap} {level : Nat} {s : ScopeId} {name : String} {v : Value} :
    heap w h → scope w level s → value w v → heap w (h.set s name v)
  /-- The scope of a call belongs to a later world, and its body may be evaluated there. -/
  heap_call {w : World} {h : Heap} {parameters : List String} {body : Block} {outer : ScopeId}
    {arguments : List Value} : heap w h → value w (.fn parameters body outer) →
    (∀ v ∈ arguments, value w v) → ∃ w' level, later w w' ∧
      heap w' (h.allocate ⟨argumentBindings parameters arguments, some outer⟩).2 ∧
      scope w' level h.scopes.size ∧ ∀ l ∈ body.literals level, literal l
  /-- What may happen between two machines, where an error arises or none does. -/
  course : Option String → Machine → Machine → Prop
  course_refl (m : Machine) : course none m m
  course_trans {error : Option String} {m n last : Machine} :
    course none m n → course error n last → course error m last
  course_set {m : Machine} {s : ScopeId} {name : String} {v : Value} :
    course none m (m.set s name v)
  course_note {m : Machine} {message : Message} : message.marksCall = false →
    course message.error? m (m.note verbosity message)
  /-- An error that arises in a call is what the call gives. -/
  course_call {error : Option String} {parameters : List String} {body : Block} {outer : ScopeId}
    {arguments : List Value} {depth : Nat} {m left : Machine} {v : Value} :
    ((Value.fn parameters body outer).call verbosity depth (Expr.eval verbosity depth)
      arguments).run m = .ok v (left.closed verbosity v) → (∀ message ∈ error, v = .error message) →
    course error (m.opened verbosity parameters arguments outer) left →
    course error m (left.closed verbosity v)
  /-- What may have happened where the depth is exceeded. -/
  halt : Machine → Machine → Prop
  halt_refl (m : Machine) : halt m m
  halt_allocate {m : Machine} {s : Scope} : halt m { m with heap := (m.heap.allocate s).2 }
  halt_trans {error : Option String} {m n last : Machine} :
    course error m n → halt n last → halt m last
  halt_call {parameters : List String} {arguments : List Value} {outer : ScopeId}
    {m left : Machine} : halt (m.opened verbosity parameters arguments outer) left →
    halt m left.leave

namespace Conduct

variable {C : Conduct} {w w' : C.World} {α β : Type} {level depth : Nat} {s : ScopeId} {v : Value}
  {error : Option String}

/-- The value of an expression: one that may be bound, an error that arose, or the wrapper of a
`return`. -/
inductive Outcome (C : Conduct) (w : C.World) : Value → Option String → Prop
  | value {v : Value} : C.value w v → Outcome C w v none
  | error (message : String) : Outcome C w (.error message) (some message)
  | returned {v : Value} : C.value w v → Outcome C w (.returned v) none

/-- The result of a statement, if it has one. -/
inductive Result (C : Conduct) (w : C.World) : Option Value → Option String → Prop
  | none : Result C w none none
  | some {v : Value} {error : Option String} : C.Outcome w v error → Result C w (some v) error

/-- The arguments of a call, or what interrupts them. -/
inductive Arguments (C : Conduct) (w : C.World) : Except Value (List Value) → Option String → Prop
  | ok {values : List Value} : (∀ v ∈ values, C.value w v) → Arguments C w (.ok values) none
  | error {v : Value} {error : Option String} : C.Outcome w v error →
    Arguments C w (.error v) error

/-- A value that does not interrupt is a plain one of the world, and no error is noted for it. -/
theorem Outcome.good (h : C.Outcome w v error) (hi : ¬ v.interrupts = true) :
    C.value w v ∧ error = none := by
  cases h with
  | value h => exact ⟨h, rfl⟩
  | error => exact absurd rfl hi
  | returned => exact absurd rfl hi

/-- Calls and programs take the wrapper of a `return` off. -/
theorem Outcome.unwrap (h : C.Outcome w v error) : C.Outcome w v.unwrap error := by
  cases h with
  | value h => exact .value (C.value_unwrap h)
  | error message => exact .error message
  | returned h => exact .value h

/-- Where an error is noted, the value is that error. -/
theorem Outcome.eq_error {message : String} (h : C.Outcome w v (some message)) :
    v = .error message := by
  cases h
  rfl

/-- The value of nothing belongs to every world. -/
theorem value_null : C.value w .null := C.value_plain (by decide) rfl

/-- The result of a body is that of the call. -/
theorem Result.ofBody {result : Option Value} (h : C.Result w result error) :
    C.Outcome w (Value.ofBody result) error := by
  cases h with
  | none => exact .value C.value_null
  | some h => exact h.unwrap

/-- Steps that keep to a conduct, whichever way they end, and whose result is as described. -/
def Obeys (C : Conduct) (w : C.World) (x : EvalM α) (Q : C.World → α → Option String → Prop) :
    Prop :=
  ∀ m, C.heap w m.heap → match x.run m with
    | .ok a after => ∃ w' error, C.later w w' ∧ C.heap w' after.heap ∧ Q w' a error ∧
      C.course error m after
    | .error _ after => (∃ w', C.later w w' ∧ C.heap w' after.heap) ∧ C.halt m after

namespace Obeys

variable {Q : C.World → α → Option String → Prop} {P : C.World → β → Option String → Prop}

/-- What obeys leaves a heap of a later world, with a result that belongs to it. -/
theorem of_ok {x : EvalM α} {m after : Machine} {a : α} (h : C.Obeys w x Q)
    (hm : C.heap w m.heap) (hr : x.run m = .ok a after) : ∃ w' error, C.later w w' ∧
      C.heap w' after.heap ∧ Q w' a error ∧ C.course error m after := by
  have hx := h m hm
  rwa [hr] at hx

/-- Where the limit interrupts it, the heap still belongs to a later world. -/
theorem of_error {x : EvalM α} {m after : Machine} {e : DepthExceeded} (h : C.Obeys w x Q)
    (hm : C.heap w m.heap) (hr : x.run m = .error e after) :
    (∃ w', C.later w w' ∧ C.heap w' after.heap) ∧ C.halt m after := by
  have hx := h m hm
  rwa [hr] at hx

/-- A result without a step obeys if it belongs to the world. -/
theorem pure {a : α} (h : Q w a none) : C.Obeys w (pure a) Q :=
  fun m hm => ⟨w, none, C.later_refl w, hm, h, C.course_refl m⟩

/-- The limit interrupts every conduct. -/
theorem exceed : C.Obeys w (EvalM.exceed : EvalM α) Q :=
  fun m hm => ⟨⟨w, C.later_refl w, hm⟩, C.halt_refl m⟩

/-- Steps behind others: behind an error there is nothing left to do. -/
theorem bind {x : EvalM α} {f : α → EvalM β} (hx : C.Obeys w x Q)
    (hf : ∀ {w'} a, C.later w w' → Q w' a none → C.Obeys w' (f a) P)
    (hstop : ∀ {w'} a message, Q w' a (some message) →
      ∃ b, f a = Pure.pure b ∧ P w' b (some message)) : C.Obeys w (x >>= f) P := by
  intro m hm
  rw [run_bind]
  cases hr : x.run m with
  | error e after => exact hx.of_error hm hr
  | ok a after =>
    obtain ⟨w₁, error, hw₁, hheap, hq, hcourse⟩ := hx.of_ok hm hr
    dsimp only
    cases error with
    | some message =>
      obtain ⟨b, hb, hp⟩ := hstop a message hq
      rw [hb]
      exact ⟨w₁, some message, hw₁, hheap, hp, hcourse⟩
    | none =>
      have hrest := hf a hw₁ hq
      cases hr' : (f a).run after with
      | error e last =>
        obtain ⟨⟨w₂, hw₂, hheap₂⟩, hhalt⟩ := hrest.of_error hheap hr'
        exact ⟨⟨w₂, C.later_trans hw₁ hw₂, hheap₂⟩, C.halt_trans hcourse hhalt⟩
      | ok b last =>
        obtain ⟨w₂, error, hw₂, hheap₂, hp, hcourse₂⟩ := hrest.of_ok hheap hr'
        exact ⟨w₂, error, C.later_trans hw₁ hw₂, hheap₂, hp, C.course_trans hcourse hcourse₂⟩

/-- Another result made of the first one. -/
theorem map {x : EvalM α} {g : α → β} (hx : C.Obeys w x Q)
    (hg : ∀ {w'} a error, Q w' a error → P w' (g a) error) :
    C.Obeys w (x >>= fun a => Pure.pure (g a)) P :=
  hx.bind (fun a _ hq => .pure (hg a none hq)) fun a _ hq => ⟨g a, rfl, hg a _ hq⟩

/-- A choice obeys if both of its branches do. -/
theorem ite {c : Prop} [Decidable c] {x y : EvalM α} (hx : c → C.Obeys w x Q)
    (hy : ¬ c → C.Obeys w y Q) : C.Obeys w (if c then x else y) Q := by
  split
  · exact hx ‹_›
  · exact hy ‹_›

/-- An operand: where it interrupts, its value is handed on. -/
theorem bind_value {x : EvalM Value} {f : Value → EvalM β} {h : Value → β}
    (hx : C.Obeys w x C.Outcome)
    (hh : ∀ {w'} v error, C.Outcome w' v error → P w' (h v) error)
    (hf : ∀ {w'} v, C.later w w' → C.value w' v → C.Obeys w' (f v) P) :
    C.Obeys w (do let v ← x; if v.interrupts then return h v else f v) P := by
  refine hx.bind (fun v hw hv => ?_) fun v _ hv => ?_
  · exact .ite (fun _ => .pure (hh v none hv)) fun hi => hf v hw (hv.good hi).1
  · refine ⟨h v, ?_, hh v _ hv⟩
    rw [hv.eq_error]
    rfl

/-- A message in the middle of a call is recorded if the verbosity is high enough. -/
theorem note {σ : Type} {x : EvalM σ} {f : EvalM α} (rank : Nat) (message : σ → Message)
    (hx : ∀ m, (∃ t, x.run m = .ok t m) ∨ x.run m = .error .mk m)
    (hmessage : ∀ t, (message t).rank = rank ∧ (message t).marksCall = false ∧
      (message t).error? = none)
    (hf : C.Obeys w f Q) :
    C.Obeys w
      (if (rank : Int) ≤ C.verbosity then x >>= fun t => record (message t) >>= fun _ => f else f)
      Q := by
  refine .ite (fun hrank m hm => ?_) fun _ => hf
  rw [run_bind]
  rcases hx m with ⟨t, hr⟩ | hr
  · obtain ⟨hmrank, hmarks, herror⟩ := hmessage t
    have hrecord : (record (message t)).run m = .ok () (m.note C.verbosity (message t)) := by
      rw [Machine.note, hmrank, if_pos hrank]
      rfl
    have hcourse := C.course_note (m := m) hmarks
    rw [herror] at hcourse
    rw [hr]
    dsimp only
    rw [run_bind, hrecord]
    dsimp only
    have hheap : C.heap w (m.note C.verbosity (message t)).heap := by rwa [Machine.heap_note]
    cases hr' : f.run (m.note C.verbosity (message t)) with
    | error e last =>
      obtain ⟨hlast, hhalt⟩ := hf.of_error hheap hr'
      exact ⟨hlast, C.halt_trans hcourse hhalt⟩
    | ok b last =>
      obtain ⟨w', error, hw, hlast, hq, hrest⟩ := hf.of_ok hheap hr'
      exact ⟨w', error, hw, hlast, hq, C.course_trans hcourse hrest⟩
  · rw [hr]
    exact ⟨⟨w, C.later_refl w, hm⟩, C.halt_refl m⟩

/-- A fault that is raised is the outcome, with its message noted. -/
theorem raise (fault : Fault) : C.Obeys w (EvalM.raise C.verbosity fault) C.Outcome := by
  intro m hm
  let message := Message.raised fault.message
  have hmarks : message.marksCall = false := rfl
  have hcourse : C.course message.error? m (m.note C.verbosity message) := C.course_note hmarks
  rw [run_raise]
  refine ⟨w, some fault.message, C.later_refl w, ?_, .error _, hcourse⟩
  rwa [Machine.heap_note]

/-- A computed value is the outcome as it is, and a fault is raised. -/
theorem settle {result : Except Fault Value} (h : ∀ v, result = .ok v → v.Computed) :
    C.Obeys w (EvalM.settle C.verbosity result) C.Outcome := by
  cases result with
  | error fault => exact raise fault
  | ok v =>
    refine .pure (.value ?_)
    cases h v rfl with
    | int => exact C.value_plain nofun rfl
    | bool => exact C.value_plain nofun rfl

/-- A name gives a value that belongs to the world, and nothing is noted. -/
theorem lookup {name : String} (hs : C.scope w level s) :
    C.Obeys w (EvalM.lookup depth s name) fun w' found error =>
      (∀ v ∈ found, C.value w' v) ∧ error = none := by
  intro m hm
  rw [run_lookup]
  cases hget : m.heap.get? name depth s with
  | error => exact ⟨⟨w, C.later_refl w, hm⟩, C.halt_refl m⟩
  | ok found =>
    refine ⟨w, none, C.later_refl w, hm, ⟨fun v hv => ?_, rfl⟩, C.course_refl m⟩
    rw [Option.mem_def.mp hv] at hget
    exact C.heap_get hm hs hget

/-- Binding a value that belongs to the world to a name keeps the heap in it. -/
theorem define {name : String} (hs : C.scope w level s) (hv : C.value w v) :
    C.Obeys w (EvalM.define s name v) fun _ _ error => error = none :=
  fun _ hm => ⟨w, none, C.later_refl w, C.heap_set hm hs hv, rfl, C.course_set⟩

end Obeys

/-- An evaluator of expressions that keeps to a conduct. -/
def Guides (C : Conduct) (eval : Evaluator) : Prop :=
  ∀ {w : C.World} {level : Nat} {s : ScopeId} {e : Expr}, C.scope w level s →
    (∀ l ∈ e.literals level, C.literal l) → C.Obeys w (eval s e) C.Outcome

/-- Showing a value gives a text or reaches the limit, and changes nothing. -/
theorem shown_reads (depth : Nat) (v : Value) (m : Machine) :
    (∃ text, (shown depth v).run m = .ok text m) ∨ (shown depth v).run m = .error .mk m := by
  rw [run_shown]
  split
  · exact .inl ⟨_, rfl⟩
  · exact .inr rfl

section Evaluator

variable {eval : Evaluator}

mutual

/-- A statement obeys wherever its function literals are admitted. -/
theorem stmt_obeys (he : C.Guides eval) : ∀ {a : Stmt} {w : C.World}, C.scope w level s →
    (∀ l ∈ a.literals level, C.literal l) →
    C.Obeys w (a.eval C.verbosity depth eval s) C.Result
  | .bare _ e, _, hs, hl => by
    rw [Stmt.eval]
    exact (he hs hl).map fun _ _ hv => .some hv
  | .define _ name e, _, hs, hl => by
    rw [Stmt.eval]
    refine (he hs hl).bind_value (fun _ _ hv => .some hv) fun v hw hv => ?_
    refine (Obeys.define (C.scope_later hw hs) hv).bind (fun _ _ _ => ?_) fun _ _ h => nomatch h
    exact .note 2 (.bound name.name) (shown_reads depth v) (fun _ => ⟨rfl, rfl, rfl⟩)
      (.pure .none)
  | .ret _ none, _, _, _ => by
    rw [Stmt.eval]
    exact .pure (.some (.returned C.value_null))
  | .ret _ (some e), _, hs, hl => by
    rw [Stmt.eval]
    refine (he hs hl).map fun v error hv => .some ?_
    split
    · exact hv
    · obtain ⟨hgood, rfl⟩ := hv.good ‹_›
      exact .returned hgood
  | .block inner, _, hs, hl => by
    rw [Stmt.eval]
    exact block_obeys he hs hl

theorem block_obeys (he : C.Guides eval) : ∀ {b : Block} {w : C.World}, C.scope w level s →
    (∀ l ∈ b.literals level, C.literal l) →
    C.Obeys w (b.eval C.verbosity depth eval s) C.Result
  | .mk _ ss, _, hs, hl => by
    rw [Block.eval]
    exact stmts_obey he hs .none hl

/-- So do statements one after the other, with the result of those before. -/
theorem stmts_obey (he : C.Guides eval) : ∀ {ss : List Stmt} {last : Option Value} {w : C.World},
    C.scope w level s → C.Result w last none → (∀ l ∈ Stmt.literalsAll level ss, C.literal l) →
    C.Obeys w (Stmt.evalAll C.verbosity depth eval s last ss) C.Result
  | [], _, _, _, hlast, _ => by
    rw [Stmt.evalAll]
    exact .pure hlast
  | a :: ss, _, _, hs, _, hl => by
    rw [Stmt.literalsAll, List.forall_mem_append] at hl
    rw [Stmt.evalAll]
    refine (stmt_obeys he hs hl.1).bind (fun result hw hr => ?_) fun result message hr => ?_
    · cases result with
      | none => exact stmts_obey he (C.scope_later hw hs) .none hl.2
      | some v =>
        exact .ite (fun _ => .pure hr) fun _ => stmts_obey he (C.scope_later hw hs) hr hl.2
    · cases hr with
      | some hv =>
        obtain rfl := hv.eq_error
        exact ⟨some (.error message), rfl, .some hv⟩

end

/-- So do arguments, up to the first one that interrupts. -/
theorem arguments_obey (he : C.Guides eval) {es : List Expr} (hs : C.scope w level s)
    (hl : ∀ l ∈ Expr.literalsAll level es, C.literal l) :
    C.Obeys w (Expr.evalArguments eval s es) C.Arguments := by
  induction es generalizing w with
  | nil => exact .pure (.ok fun _ h => nomatch h)
  | cons e es ih =>
    rw [Expr.literalsAll, List.forall_mem_append] at hl
    rw [Expr.evalArguments]
    refine (he hs hl.1).bind_value (fun _ _ hv => .error hv) fun v hw hv => ?_
    refine (ih (C.scope_later hw hs) hl.2).bind (fun result hw' hr => ?_)
      fun result message hr => ?_
    · cases hr with
      | error h => exact .pure (.error h)
      | ok hvalues =>
        refine .pure (.ok ?_)
        rw [List.forall_mem_cons]
        exact ⟨C.value_later hw' hv, hvalues⟩
    · cases hr with
      | error h => exact ⟨.error _, rfl, .error h⟩

/-- A call opens, runs the body in a later world, and closes whichever way the body ends. -/
theorem call_obeys (he : C.Guides (Expr.eval C.verbosity depth)) {arguments : List Value}
    (hv : C.value w v) (ha : ∀ a ∈ arguments, C.value w a) :
    C.Obeys w (v.call C.verbosity depth (Expr.eval C.verbosity depth) arguments) C.Outcome := by
  cases v with
  | fn parameters body outer =>
    intro m hm
    obtain ⟨w₁, level, hw₁, hheap, hs, hl⟩ := C.heap_call hm hv ha
    have hopened : C.heap w₁ (m.opened C.verbosity parameters arguments outer).heap := by
      have hsame : (m.opened C.verbosity parameters arguments outer).heap =
        (m.heap.allocate ⟨argumentBindings parameters arguments, some outer⟩).2 := by
        rw [Machine.opened, Machine.enter, Machine.heap_note]
      rwa [hsame]
    have hbody : C.Obeys w₁ (body.eval C.verbosity depth (Expr.eval C.verbosity depth)
        m.heap.scopes.size) C.Result := block_obeys he hs hl
    have hrun := Value.run_call_fn C.verbosity depth (Expr.eval C.verbosity depth) parameters body
      outer arguments m
    by_cases hshown : 1 ≤ C.verbosity ∧ arguments.all (Value.fits depth) = false
    · rw [hrun, if_pos hshown]
      exact ⟨⟨w₁, hw₁, hheap⟩, C.halt_allocate⟩
    · rw [if_neg hshown] at hrun
      cases hr : (body.eval C.verbosity depth (Expr.eval C.verbosity depth)
          m.heap.scopes.size).run (m.opened C.verbosity parameters arguments outer) with
      | error e left =>
        obtain ⟨⟨w₂, hw₂, hleft⟩, hhalt⟩ := hbody.of_error hopened hr
        rw [hrun, hr]
        exact ⟨⟨w₂, C.later_trans hw₁ hw₂, hleft⟩, C.halt_call hhalt⟩
      | ok result left =>
        obtain ⟨w₂, error, hw₂, hleft, hresult, hcourse⟩ := hbody.of_ok hopened hr
        have hend := hresult.ofBody
        rw [hr] at hrun
        dsimp only at hrun
        by_cases hfits : 1 ≤ C.verbosity ∧ (Value.ofBody result).fits depth = false
        · rw [hrun, if_pos hfits]
          exact ⟨⟨w₂, C.later_trans hw₁ hw₂, hleft⟩,
            C.halt_call (C.halt_trans hcourse (C.halt_refl _))⟩
        · rw [if_neg hfits] at hrun
          rw [hrun]
          refine ⟨w₂, error, C.later_trans hw₁ hw₂, ?_, hend, C.course_call hrun ?_ hcourse⟩
          · rwa [Machine.closed, Machine.heap_note]
          · rintro message rfl
            exact hend.eq_error
  | int => exact .raise _
  | bool => exact .raise _
  | null => exact .raise _
  | error => exact .raise _
  | returned => exact .raise _

/-- The value of a branch, null if it has none. -/
theorem branch_obeys (he : C.Guides eval) (hs : C.scope w level s) {b : Block}
    (hl : ∀ l ∈ b.literals level, C.literal l) :
    C.Obeys w (do return (← b.eval C.verbosity depth eval s).getD .null) C.Outcome := by
  refine (block_obeys he hs hl).map fun result error hr => ?_
  cases hr with
  | none => exact .value C.value_null
  | some hv => exact hv

end Evaluator

/-- A choice between two branches. -/
theorem Obeys.cond {e : Expr} {x y z : EvalM Value} (hx : C.Obeys w x C.Outcome)
    (hy : ∀ {w'}, C.later w w' → C.Obeys w' y C.Outcome)
    (hz : ∀ {w'}, C.later w w' → C.Obeys w' z C.Outcome) : C.Obeys w (do
      let value ← x
      if value.interrupts then return value
      if 3 ≤ C.verbosity then
        let text ← EvalM.shownExpr depth e
        EvalM.record (.tested text (← EvalM.shown depth value) value.isTruthy)
      if value.isTruthy then y else z) C.Outcome := by
  refine hx.bind_value (fun _ _ h => h) fun v hw _ => ?_
  have hrest : C.Obeys _ (if v.isTruthy then y else z) C.Outcome :=
    .ite (fun _ => hy hw) fun _ => hz hw
  have hreads : ∀ m, (∃ p, (do
        let text ← EvalM.shownExpr depth e; return (text, ← EvalM.shown depth v)).run m = .ok p m) ∨
      (do let text ← EvalM.shownExpr depth e; return (text, ← EvalM.shown depth v)).run m =
        .error .mk m := by
    intro m
    rw [run_bind, run_shownExpr]
    cases e.fits depth with
    | false => exact .inr rfl
    | true =>
      simp only [if_true]
      rw [run_bind, run_shown]
      cases v.fits depth with
      | false => exact .inr rfl
      | true => exact .inl ⟨_, rfl⟩
  have hnote := Obeys.note 3 (fun p => .tested p.1 p.2 v.isTruthy) hreads
    (fun _ => ⟨rfl, rfl, rfl⟩) hrest
  simp only [bind_assoc, pure_bind] at hnote
  exact hnote

/-- Evaluation keeps to every conduct. -/
theorem expr_obeys (C : Conduct) (depth : Nat) : C.Guides (Expr.eval C.verbosity depth) := by
  induction depth with
  | zero =>
    intro w level s e _ _
    rw [Expr.eval]
    exact .exceed
  | succ depth ih =>
    intro w level s e hs hl
    cases e with
    | int =>
      rw [Expr.eval]
      exact .pure (.value (C.value_plain (by rintro ⟨⟩) rfl))
    | bool =>
      rw [Expr.eval]
      exact .pure (.value (C.value_plain (by rintro ⟨⟩) rfl))
    | fn token parameters body =>
      rw [Expr.literals, List.forall_mem_cons] at hl
      rw [Expr.eval]
      exact .pure (.value (C.fn hs hl.1))
    | ident name =>
      rw [Expr.eval]
      refine (Obeys.lookup hs).bind (fun found _ hf => ?_) fun _ _ h => nomatch h.2
      cases found with
      | none => exact .raise _
      | some v => exact .pure (.value (hf.1 v rfl))
    | unary token operator operand =>
      rw [Expr.literals] at hl
      rw [Expr.eval]
      refine (ih hs hl).bind_value (fun _ _ h => h) fun v _ _ => ?_
      exact .settle fun _ => Value.computed_unary
    | binary token left operator right =>
      rw [Expr.literals, List.forall_mem_append] at hl
      rw [Expr.eval]
      refine (ih hs hl.1).bind_value (fun _ _ h => h) fun v hw _ => ?_
      refine (ih (C.scope_later hw hs) hl.2).bind_value (fun _ _ h => h) fun u _ _ => ?_
      exact .settle fun _ => Value.computed_binary
    | cond token condition consequence alternative =>
      rw [Expr.literals, List.forall_mem_append, List.forall_mem_append] at hl
      have hthen : ∀ {w'}, C.later w w' → C.Obeys w' (do
          return (← consequence.eval C.verbosity depth (Expr.eval C.verbosity depth) s).getD .null)
          C.Outcome := fun hw => branch_obeys ih (C.scope_later hw hs) hl.2.1
      cases alternative with
      | none =>
        rw [Expr.eval]
        exact .cond (ih hs hl.1) hthen fun _ => .pure (.value C.value_null)
      | some block =>
        rw [Expr.eval]
        exact .cond (ih hs hl.1) hthen
          fun hw => branch_obeys ih (C.scope_later hw hs) hl.2.2
    | call token callee arguments =>
      rw [Expr.literals, List.forall_mem_append] at hl
      rw [Expr.eval]
      refine (ih hs hl.1).bind_value (fun _ _ h => h) fun v hw hv => ?_
      refine (arguments_obey ih (C.scope_later hw hs) hl.2).bind (fun result hw' hr => ?_)
        fun result message hr => ?_
      · cases hr with
        | error h => exact .pure h
        | ok hvalues => exact call_obeys ih (C.value_later hw' hv) hvalues
      · cases hr with
        | error h => exact ⟨_, rfl, h⟩

/-- A program keeps to every conduct. Its value is never a wrapper that was made on the way. -/
theorem program_obeys {program : Program} (hs : C.scope w level s)
    (hl : ∀ l ∈ Stmt.literalsAll level program.statements, C.literal l) :
    C.Obeys w (program.eval C.verbosity depth s) C.Result := by
  refine (stmts_obey (C.expr_obeys depth) hs .none hl).map fun result error hr => ?_
  cases hr with
  | none => exact .none
  | some hv => exact .some hv.unwrap

/-- A task that keeps to a conduct: it evaluates where its literals may be evaluated, or it calls a
value that may be called, with arguments that may be passed. -/
def Admits (C : Conduct) (w : C.World) : Task → Prop
  | .statements _ s ss =>
    ∃ level, C.scope w level s ∧ ∀ l ∈ Stmt.literalsAll level ss, C.literal l
  | .statement _ s a => ∃ level, C.scope w level s ∧ ∀ l ∈ a.literals level, C.literal l
  | .expression _ s e => ∃ level, C.scope w level s ∧ ∀ l ∈ e.literals level, C.literal l
  | .call _ callee arguments => C.value w callee ∧ ∀ a ∈ arguments, C.value w a

/-- A point has its place in a world if the heap is in order there and the task is admitted. -/
def Places (C : Conduct) (w : C.World) (p : Point) : Prop := C.heap w p.2.heap ∧ C.Admits w p.1

section Points

variable {m n : Machine} {e : Expr} {es : List Expr} {values : List Value}

/-- What an expression leaves behind where it is not interrupted. -/
theorem ends_obeys (h : e.Ends C.verbosity depth s m v n) (hm : C.heap w m.heap)
    (hs : C.scope w level s) (hl : ∀ l ∈ e.literals level, C.literal l) :
    ∃ w', C.later w w' ∧ C.heap w' n.heap ∧ C.scope w' level s ∧ C.value w' v := by
  obtain ⟨w', error, hw, hn, hv, -⟩ := (C.expr_obeys depth hs hl).of_ok hm h.1
  exact ⟨w', hw, hn, C.scope_later hw hs, (hv.good h.2).1⟩

/-- The arguments of a call are values of a later world, and the scope stays what it was. -/
theorem arguments_placed
    (h : (Expr.evalArguments (Expr.eval C.verbosity depth) s es).run m = .ok (.ok values) n)
    (hm : C.heap w m.heap) (hs : C.scope w level s)
    (hl : ∀ l ∈ Expr.literalsAll level es, C.literal l) :
    ∃ w', C.later w w' ∧ C.heap w' n.heap ∧ C.scope w' level s ∧ ∀ v ∈ values, C.value w' v := by
  obtain ⟨w', error, hw, hn, hv, -⟩ := (arguments_obey (C.expr_obeys depth) hs hl).of_ok hm h
  cases hv with
  | ok hvalues => exact ⟨w', hw, hn, C.scope_later hw hs, hvalues⟩

/-- One step of a run: what a task starts has its place in a later world. -/
theorem Places.starts {p q : Point} (hp : C.Places w p) (h : Starts C.verbosity p q) :
    ∃ w', C.later w w' ∧ C.Places w' q := by
  obtain ⟨hm, ht⟩ := hp
  have hrefl := C.later_refl w
  cases h with
  | statement hrun _ =>
    obtain ⟨level, hs, hl⟩ := ht
    rw [Stmt.literalsAll_append, List.forall_mem_append, Stmt.literalsAll,
      List.forall_mem_append] at hl
    obtain ⟨w', error, hw, hn, -⟩ :=
      (stmts_obey (C.expr_obeys _) hs .none hl.1).of_ok hm hrun
    exact ⟨w', hw, hn, level, C.scope_later hw hs, hl.2.1⟩
  | bare =>
    obtain ⟨level, hs, hl⟩ := ht
    exact ⟨w, hrefl, hm, level, hs, hl⟩
  | bound =>
    obtain ⟨level, hs, hl⟩ := ht
    exact ⟨w, hrefl, hm, level, hs, hl⟩
  | operand =>
    obtain ⟨level, hs, hl⟩ := ht
    exact ⟨w, hrefl, hm, level, hs, hl⟩
  | inner =>
    obtain ⟨level, hs, hl⟩ := ht
    exact ⟨w, hrefl, hm, level, hs, hl⟩
  | unary =>
    obtain ⟨level, hs, hl⟩ := ht
    rw [Expr.literals] at hl
    exact ⟨w, hrefl, hm, level, hs, hl⟩
  | left =>
    obtain ⟨level, hs, hl⟩ := ht
    rw [Expr.literals, List.forall_mem_append] at hl
    exact ⟨w, hrefl, hm, level, hs, hl.1⟩
  | right ha =>
    obtain ⟨level, hs, hl⟩ := ht
    rw [Expr.literals, List.forall_mem_append] at hl
    obtain ⟨w', hw, hn, hs', -⟩ := ends_obeys ha hm hs hl.1
    exact ⟨w', hw, hn, level, hs', hl.2⟩
  | condition =>
    obtain ⟨level, hs, hl⟩ := ht
    rw [Expr.literals, List.forall_mem_append] at hl
    exact ⟨w, hrefl, hm, level, hs, hl.1⟩
  | consequence hc _ hheap =>
    obtain ⟨level, hs, hl⟩ := ht
    rw [Expr.literals, List.forall_mem_append, List.forall_mem_append] at hl
    obtain ⟨w', hw, hn, hs', -⟩ := ends_obeys hc hm hs hl.1
    exact ⟨w', hw, hheap ▸ hn, level, hs', hl.2.1⟩
  | alternative hc _ hheap =>
    obtain ⟨level, hs, hl⟩ := ht
    rw [Expr.literals, List.forall_mem_append, List.forall_mem_append] at hl
    obtain ⟨w', hw, hn, hs', -⟩ := ends_obeys hc hm hs hl.1
    exact ⟨w', hw, hheap ▸ hn, level, hs', hl.2.2⟩
  | callee =>
    obtain ⟨level, hs, hl⟩ := ht
    rw [Expr.literals, List.forall_mem_append] at hl
    exact ⟨w, hrefl, hm, level, hs, hl.1⟩
  | argument hf hargs =>
    obtain ⟨level, hs, hl⟩ := ht
    rw [Expr.literals, Expr.literalsAll_append, List.forall_mem_append, List.forall_mem_append,
      Expr.literalsAll, List.forall_mem_append] at hl
    obtain ⟨w₁, hw₁, hn, hs₁, -⟩ := ends_obeys hf hm hs hl.1
    obtain ⟨w₂, hw₂, hlast, hs₂, -⟩ := arguments_placed hargs hn hs₁ hl.2.1
    exact ⟨w₂, C.later_trans hw₁ hw₂, hlast, level, hs₂, hl.2.2.1⟩
  | call hf hargs =>
    obtain ⟨level, hs, hl⟩ := ht
    rw [Expr.literals, List.forall_mem_append] at hl
    obtain ⟨w₁, hw₁, hn, hs₁, hv⟩ := ends_obeys hf hm hs hl.1
    obtain ⟨w₂, hw₂, hlast, -, hvalues⟩ := arguments_placed hargs hn hs₁ hl.2
    exact ⟨w₂, C.later_trans hw₁ hw₂, hlast, C.value_later hw₂ hv, hvalues⟩
  | body hheap =>
    obtain ⟨hv, hvalues⟩ := ht
    obtain ⟨w', level, hw, hnew, hs, hl⟩ := C.heap_call hm hv hvalues
    exact ⟨w', hw, hheap ▸ hnew, level, hs, hl⟩

/-- All points of a run have their places, in worlds that come later and later. -/
theorem Places.leads {p q : Point} (hp : C.Places w p) (h : p.Leads C.verbosity q) :
    ∃ w', C.later w w' ∧ C.Places w' q := by
  induction h with
  | refl => exact ⟨w, C.later_refl w, hp⟩
  | tail _ hstep ih =>
    obtain ⟨w₁, hw₁, hplaced⟩ := ih
    obtain ⟨w₂, hw₂, hq⟩ := hplaced.starts hstep
    exact ⟨w₂, C.later_trans hw₁ hw₂, hq⟩

end Points

end Conduct

end Inkwell
