import Inkwell.Proofs.Evaluation.Layout
import Inkwell.Proofs.Evaluation.Plain

/-!
# Chains are as long as literals nest

Where programs are run one after the other in a scope that was new and has no outer scope, chains of
scopes follow the text of the programs and not the course of the runs: a function was created in a
scope whose chain is longer by one than the number of function literals around its own, and no chain
is longer by more than one than literals nest at all, however deeply calls recurse and wherever
functions are handed.

Trees do not tell where they stand. So the programs may be marked, which changes nothing in their
runs but that the functions can be told apart.
-/

namespace Inkwell

open EvalM

/-- A program and how it is run. -/
structure Job where
  /-- The verbosity of the run. -/
  verbosity : Int
  /-- The depth that the run is allowed. -/
  depth : Nat
  /-- The program. -/
  program : Program

namespace Job

/-- The run in a scope of a heap. -/
def run (job : Job) (scope : ScopeId) (heap : Heap) : Run :=
  (Machine.ofHeap heap).run job.verbosity job.depth scope job.program

/-- The point at which the run starts. -/
def start (job : Job) (scope : ScopeId) (heap : Heap) : Point :=
  (.statements job.depth scope job.program.statements, .ofHeap heap)

/-- The same run of the marked program. -/
def marked (job : Job) : Job := { job with program := job.program.marked }

/-- The function literals in all the programs. -/
def literals (jobs : List Job) : List Literal := jobs.flatMap fun job => job.program.literals

/-- How deeply function literals nest in any of the programs. -/
def nesting (jobs : List Job) : Nat :=
  jobs.foldr (fun job n => max job.program.nesting n) 0

variable {job : Job} {jobs : List Job} {l inner : Literal}

/-- A literal of the program of a job is one of the jobs. -/
theorem mem_literals (hjob : job ∈ jobs) (h : l ∈ job.program.literals) :
    l ∈ literals jobs := List.mem_flatMap.mpr ⟨job, hjob, h⟩

/-- So is a literal in the body of such a literal. -/
theorem mem_literals_of_body (h : l ∈ literals jobs) (hi : inner ∈ l.body.literals (l.level + 1)) :
    inner ∈ literals jobs := by
  obtain ⟨job, hjob, hl⟩ := List.mem_flatMap.mp h
  exact mem_literals hjob (Stmt.mem_literalsAll_of_body hl hi)

/-- Fewer literals stand around a literal than are nested in the jobs. -/
theorem lt_nesting (h : l ∈ literals jobs) : l.level < nesting jobs := by
  induction jobs with
  | nil => cases h
  | cons first rest ih =>
    rw [literals, List.flatMap_cons, List.mem_append] at h
    rcases h with h | h
    · exact Nat.lt_of_lt_of_le (Program.lt_nesting h) (Nat.le_max_left ..)
    · exact Nat.lt_of_lt_of_le (ih h) (Nat.le_max_right ..)

/-- Marks tell function literals at different places apart. -/
theorem level_eq_of_marked {level other : Nat} {parameters parameters' : List String} {body : Block}
    (h : ⟨level, parameters, body⟩ ∈ literals (jobs.map marked))
    (h' : ⟨other, parameters', body⟩ ∈ literals (jobs.map marked)) : level = other := by
  have htoken : ∀ {l : Literal}, l ∈ literals (jobs.map marked) →
      l.body.token = Token.brace l.level := by
    intro l hl
    obtain ⟨job, hjob, hl⟩ := List.mem_flatMap.mp hl
    obtain ⟨original, -, rfl⟩ := List.mem_map.mp hjob
    exact Program.token_of_mem_marked hl
  exact Token.brace_injective ((htoken h).symm.trans (htoken h'))

end Job

/-- The heap after programs were run in a scope, one after the other and however they ended. -/
def Heap.after (heap : Heap) (scope : ScopeId) (jobs : List Job) : Heap :=
  jobs.foldl (fun heap job => (job.run scope heap).machine.heap) heap

/-- If a value is a function, the chain of the scope that it was created in is longer by one than
the number of function literals around its own, which is one of the given ones. -/
def Heap.Nests (heap : Heap) (literals : List Literal) (v : Value) : Prop :=
  ∀ parameters body captured, v = .fn parameters body captured →
    ∃ chain level, heap.Chain captured chain ∧ ⟨level, parameters, body⟩ ∈ literals ∧
      chain.length = 1 + level

/-- The layout of programs that are run in a scope without an outer scope. -/
def Layout.nested (jobs : List Job) : Layout where
  literal l := l ∈ Job.literals jobs
  place level length := length = level + 1 ∧ level ≤ Job.nesting jobs
  function length parameters body :=
    ∃ level, length = level + 1 ∧ ⟨level, parameters, body⟩ ∈ Job.literals jobs
  closure hplace hl := ⟨_, hplace.1, hl⟩
  call h := by
    obtain ⟨level, rfl, hl⟩ := h
    have hlt : level < Job.nesting jobs := Job.lt_nesting hl
    exact ⟨level + 1, ⟨rfl, hlt⟩, fun _ hi => Job.mem_literals_of_body hl hi⟩

variable {base scope : ScopeId} {heap : Heap} {lengths : Lengths} {jobs : List Job} {v : Value}

/-- A value that fits in nests as the literals do. -/
theorem Value.Laid.nests (hv : v.Laid (.nested jobs) lengths)
    (h : heap.Laid (.nested jobs) base lengths) : heap.Nests (Job.literals jobs) v := by
  rintro parameters body captured rfl
  obtain ⟨n, hn, level, rfl, hl⟩ := hv
  obtain ⟨chain, hchain, hlength⟩ := h.exists_chain hn
  exact ⟨chain, level, hchain, hl, hlength.trans (Nat.add_comm level 1)⟩

/-- Runs of programs that the layout is made for keep the heap laid out. -/
theorem Heap.Laid.after {runs : List Job} (h : heap.Laid (.nested jobs) base lengths)
    (hscope : lengths scope = some 1) (hruns : ∀ job ∈ runs, job ∈ jobs) :
    ∃ more, (heap.after scope runs).Laid (.nested jobs) base more ∧ more scope = some 1 := by
  induction runs generalizing heap lengths with
  | nil => exact ⟨lengths, h, hscope⟩
  | cons job rest ih =>
    rw [List.forall_mem_cons] at hruns
    have hplace : (Layout.nested jobs).place 0 1 := ⟨rfl, Nat.zero_le _⟩
    have hstart : (Machine.ofHeap heap).heap.Laid (.nested jobs) base lengths := h
    obtain ⟨more, hmore, hheap, -⟩ := hstart.run hscope hplace job.verbosity job.depth
      job.program fun l hl => Job.mem_literals hruns.1 hl
    exact ih hheap (hmore _ _ hscope) hruns.2

/-- A scope that is new is laid out for any programs that are run there. -/
theorem Heap.exists_laid_after (start : Heap) (jobs : List Job) {runs : List Job}
    (hruns : ∀ job ∈ runs, job ∈ jobs) : ∃ lengths,
      (start.fresh.2.after start.fresh.1 runs).Laid (.nested jobs) start.fresh.1 lengths ∧
        lengths start.fresh.1 = some 1 := by
  have hplace : (Layout.nested jobs).place 0 1 := ⟨rfl, Nat.zero_le _⟩
  have hfresh := (Heap.Laid.start start).fresh hplace
  exact hfresh.after (Function.update_self ..) hruns

/-- Runs of marked programs are the same but for marks. -/
theorem Job.run_marked (job : Job) (scope : ScopeId) {other : Heap}
    (h : heap.plain = other.plain) :
    (job.marked.run scope heap).outcome.map (Option.map Value.plain) =
        (job.run scope other).outcome.map (Option.map Value.plain) ∧
      (job.marked.run scope heap).machine.heap.plain =
        (job.run scope other).machine.heap.plain := by
  have hmachine : (Machine.ofHeap heap).plain = (Machine.ofHeap other).plain := by
    unfold Machine.plain Machine.ofHeap
    rw [h]
  have hmarked := (Machine.ofHeap heap).run_plain job.verbosity job.depth scope
    job.program.marked
  have hrun := (Machine.ofHeap other).run_plain job.verbosity job.depth scope job.program
  rw [hmachine, Program.plain_marked, hrun] at hmarked
  have houtcome := congrArg Run.outcome hmarked
  have hheap := congrArg (fun run => run.machine.heap) hmarked
  exact ⟨houtcome.symm, hheap.symm⟩

/-- Marking the programs changes nothing but the marks. -/
theorem Heap.after_marked (jobs : List Job) (scope : ScopeId) {other : Heap}
    (h : heap.plain = other.plain) :
    (heap.after scope (jobs.map Job.marked)).plain = (other.after scope jobs).plain := by
  induction jobs generalizing heap other with
  | nil => exact h
  | cons job rest ih => exact ih (job.run_marked scope h).2

/-- Programs are run one after the other in a scope that was new and has no outer scope, however
their runs end. Every scope that there is from this one on has a chain that is longer by one at most
than function literals nest in the programs. Every function that is bound in these scopes, or that
any expression gives in the next run, was created in a scope whose chain is longer by one than the
number of function literals around its own.

To know this number of a function that occurs at several places, one may mark the programs: their
runs then end alike and leave the same heap, but for the marks, and each of their function literals
tells the number of those around it. -/
theorem Heap.after_nests (start : Heap) :
    let scope := start.fresh.1
    let after := start.fresh.2.after scope
    ∀ (jobs : List Job) (job : Job),
      (∀ id, scope ≤ id → id < (after jobs).scopes.size → ∃ chain,
        (after jobs).Chain id chain ∧ chain.length ≤ 1 + Job.nesting jobs) ∧
      (∀ id name v, scope ≤ id → (name, v) ∈ (after jobs).bindings id →
        (after jobs).Nests (Job.literals jobs) v) ∧
      (∀ depth inner e m v last,
        (job.start scope (after jobs)).Leads job.verbosity (.expression depth inner e, m) →
        (e.eval job.verbosity depth inner).run m = .ok v last →
        last.heap.Nests (Job.literals (jobs ++ [job])) v) ∧
      ((job.marked.run scope (after (jobs.map Job.marked))).outcome.map
            (Option.map Value.plain) =
          (job.run scope (after jobs)).outcome.map (Option.map Value.plain) ∧
        (after (jobs.map Job.marked)).plain = (after jobs).plain) ∧
      ∀ level other parameters parameters' body,
        ⟨level, parameters, body⟩ ∈ Job.literals (jobs.map Job.marked) →
        ⟨other, parameters', body⟩ ∈ Job.literals (jobs.map Job.marked) → level = other := by
  intro scope after jobs job
  obtain ⟨lengths, hlaid, -⟩ := start.exists_laid_after jobs fun _ h => h
  have hmarked : (after (jobs.map Job.marked)).plain = (after jobs).plain :=
    Heap.after_marked jobs scope rfl
  refine ⟨fun id hscope hid => ?_, fun id name v hscope hmem => ?_,
    fun depth inner e m v last hleads hrun => ?_, ⟨(job.run_marked scope hmarked).1, hmarked⟩,
    fun level other parameters parameters' body h h' => Job.level_eq_of_marked h h'⟩
  · obtain ⟨n, hn⟩ := hlaid.all hscope hid
    obtain ⟨chain, hchain, hlength⟩ := hlaid.exists_chain hn
    obtain ⟨level, hlevel, hle⟩ := hlaid.place hn
    exact ⟨chain, hchain, by omega⟩
  · obtain ⟨s, hs, hbound⟩ := Heap.mem_bindings hmem
    obtain ⟨n, hn⟩ := hlaid.all hscope (Heap.scope_lt hs)
    exact (hlaid.bound hn hs hbound).nests hlaid
  · -- the next run is laid out for its own program too
    obtain ⟨lengths, hlaid, hlength⟩ :=
      start.exists_laid_after (jobs ++ [job]) fun _ h => List.mem_append_left [job] h
    let C := Conduct.laid (.nested (jobs ++ [job])) scope job.verbosity
    have hjob : job ∈ jobs ++ [job] := by simp
    have hstart : C.Places lengths (job.start scope (after jobs)) :=
      ⟨hlaid, 0, ⟨1, hlength, rfl, Nat.zero_le _⟩, fun l hl => Job.mem_literals hjob hl⟩
    obtain ⟨more, -, hm, level, hs, hl⟩ := hstart.leads hleads
    have hobeys : C.Obeys more (e.eval job.verbosity depth inner) C.Outcome :=
      C.expr_obeys depth hs hl
    obtain ⟨most, error, -, hlast, hv, -⟩ := hobeys.of_ok hm hrun
    exact (Conduct.laid_of_outcome hv).nests hlast

/-- A function that the call of another one gives: one function literal inside another. -/
theorem Heap.after_nests_closure :
    let x : Ident := ⟨⟨.ident, "x"⟩, "x"⟩
    let y : Ident := ⟨⟨.ident, "y"⟩, "y"⟩
    let f : Ident := ⟨⟨.ident, "f"⟩, "f"⟩
    let g : Ident := ⟨⟨.ident, "g"⟩, "g"⟩
    let brace : Token := ⟨.lbrace, "\x7b"⟩
    let inner : Block := .mk brace [.bare ⟨.ident, "x"⟩ (.ident x)]
    let outer : Block := .mk brace [.bare ⟨.fnKw, "fn"⟩ (.fn ⟨.fnKw, "fn"⟩ [y] inner)]
    let program : Program := ⟨[.define ⟨.letKw, "let"⟩ f (.fn ⟨.fnKw, "fn"⟩ [x] outer),
      .define ⟨.letKw, "let"⟩ g (.call ⟨.lparen, "("⟩ (.ident f) [.int ⟨.int, "1"⟩ 1])]⟩
    let job : Job := ⟨0, 9, program⟩
    let after := (∅ : Heap).fresh.2.after 0 [job]
    (∀ id < after.scopes.size, ∃ chain, after.Chain id chain ∧ chain.length ≤ 3) ∧
      ∃ chain, after.Chain 1 chain ∧ chain.length = 2 := by
  intro x y f g brace inner outer program job after
  obtain ⟨hbound, hfunctions, -⟩ := Heap.after_nests ∅ [job] job
  have hnesting : Job.nesting [job] = 2 := rfl
  refine ⟨fun id hid => ?_, ?_⟩
  · obtain ⟨chain, hchain, hlength⟩ := hbound id (Nat.zero_le id) hid
    exact ⟨chain, hchain, by rwa [hnesting] at hlength⟩
  · have hmem : ("g", Value.fn ["y"] inner 1) ∈ after.bindings 0 :=
      List.mem_cons_of_mem _ List.mem_cons_self
    obtain ⟨chain, level, hchain, hl, hlength⟩ :=
      hfunctions 0 "g" _ (Nat.le_refl 0) hmem ["y"] inner 1 rfl
    have hliterals : Job.literals [job] = [⟨0, ["x"], outer⟩, ⟨1, ["y"], inner⟩] := rfl
    rw [hliterals] at hl
    simp [y, x, inner, outer] at hl
    exact ⟨chain, hchain, by rw [hlength, hl]⟩

end Inkwell
