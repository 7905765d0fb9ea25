import Mathlib.Order.Filter.Finite
import Inkwell.Proofs.Grammar.Completion
import Inkwell.Proofs.Grammar.Exact

/-!
# The first mistake is found at once

A text is given up at the first token that cannot follow the ones before it: these could have been
completed to a program, while with that token, nothing that is put behind it changes what is found
first.
-/

namespace Inkwell

open Grammar Reading Filter

variable {depth place : Nat} {tokens : List Token} {result : Parsed} {d : Diagnostic}

/-- Some tokens behind these make up a program. -/
def Grammar.Completable (tokens : List Token) : Prop :=
  ∃ (more : List Token) (program : Program), (∀ token ∈ more, token.Readable) ∧
    IsProgram (tokens ++ more) program

/-- Readable tokens can be converted. -/
theorem Grammar.convertible_of_readable (h : ∀ token ∈ tokens, token.Readable) :
    Convertible tokens := by
  intro token ht hk digits hd
  obtain ⟨digits', hd', hshort⟩ := (h token ht).numeral hk
  rw [Option.mem_def, hd] at hd'
  cases hd'
  exact hshort

/-- The diagnostic is about the token at a place, and within a depth it is the first one whatever
stands behind that token. -/
structure Program.DecidedAt (place : Nat) (tokens : List Token) (d : Diagnostic) (depth : Nat) :
    Prop where
  found : d.found = nextKind (tokens.drop place)
  head? {others : List Token} {result : Parsed} : others.head? = (tokens.drop place).head? →
    Program.read depth (tokens.take place ++ others) = .ok result →
    result.diagnostics.head? = some d

/-- The first diagnostic of a reading. -/
theorem Program.finds_iff_head? (h : Program.read depth tokens = .ok result) :
    Finds (Reading.statements (fun _ => false) (expression depth) #[]) (.ofTokens tokens) d ↔
      result.diagnostics.head? = some d := by
  obtain ⟨after, hrun, hdiagnostics⟩ := Program.read_eq_ok_iff_statements.mp h
  unfold Finds
  rw [hrun, ← hdiagnostics, List.head?_eq_getElem?]
  rfl

/-- The first diagnostic is decided at a place before which nothing is wrong yet: the tokens up to
there can be completed, and those up to the next one cannot change it any more. -/
theorem Program.exists_decidedAt (ht : ∀ token ∈ tokens, token.Readable)
    (hread : Program.read depth tokens = .ok result) (hd : result.diagnostics.head? = some d) :
    ∃ place ∈ {place | place ≤ tokens.length}, Completable (tokens.take place) ∧
      Program.DecidedAt place tokens d depth := by
  have hfinds := finds_lift.mpr ((Program.finds_iff_head? hread).mpr hd)
  have hcursor : ∀ token ∈ (Cursor.ofTokens tokens).tokens, token.Readable := ht
  obtain ⟨used, rest, front, hfault, ⟨more, rfl⟩, hfront, hderives⟩ :=
    (viable_statements (expression_local depth) (soundReader_expression depth)
      (completes_expression depth)).repair hcursor hfinds
  obtain rfl : tokens = used ++ rest := hfault.tokens
  refine ⟨used.length, by simp, ?_, by simpa using hfault.found, fun {others result} ho hread => ?_⟩
  · obtain ⟨-, ss, hss⟩ := hderives [] (.inl rfl)
    rw [List.append_nil] at hss
    refine ⟨more, ⟨ss⟩, fun token ht => hfront token (List.mem_append_right _ ht), ?_⟩
    rwa [List.take_left]
  · rw [List.drop_left] at ho
    rw [List.take_left] at hread
    exact (Program.finds_iff_head? hread).mp (finds_lift.mp (hfault.finds ho))

/-- The place does not depend on the depth: it is one of finitely many, so one of them serves for
arbitrarily large depths, and thereby for all. -/
theorem Program.exists_place (ht : ∀ token ∈ tokens, token.Readable)
    (hread : Program.read depth tokens = .ok result) (hd : result.diagnostics.head? = some d) :
    ∃ place ≤ tokens.length, Completable (tokens.take place) ∧
      ∀ depth, Program.DecidedAt place tokens d depth := by
  have hdeeper : ∀ᶠ deeper in atTop, ∃ place ∈ {place | place ≤ tokens.length},
      Completable (tokens.take place) ∧ Program.DecidedAt place tokens d deeper := by
    filter_upwards [eventually_ge_atTop depth] with deeper hle
    refine Program.exists_decidedAt ht ?_ hd
    rw [Program.read_eq_of_le hle (by rw [hread]; exact nofun), hread]
  obtain ⟨place, hplace, hoften⟩ :=
    (frequently_exists_finite (Set.finite_le_nat _)).mp hdeeper.frequently
  obtain ⟨_, hcompletable, hdecided⟩ := hoften.exists
  refine ⟨place, hplace, hcompletable, fun depth => ⟨hdecided.found, fun ho hread => ?_⟩⟩
  obtain ⟨deeper, hle, -, hdecided⟩ := frequently_atTop.mp hoften depth
  refine hdecided.head? ho ?_
  rw [Program.read_eq_of_le hle (by rw [hread]; exact nofun), hread]

/-- A text that is not accepted is given up at the first token that makes it hopeless. What stands
before that token is the beginning of a program, and whatever stands behind it, the first diagnostic
is the same. If there is no such token, the diagnostic is about the end of the input. -/
theorem Program.read_viable_prefix (ht : ∀ token ∈ tokens, token.Readable)
    (hread : Program.read depth tokens = .ok result) (hd : result.diagnostics.head? = some d) :
    ∃ start, start <+: tokens ∧
      (∃ (more : List Token) (program : Program), (∀ token ∈ more, token.Readable) ∧
        ∀ᶠ depth in atTop, Program.read depth (start ++ more) = .ok ⟨program, []⟩) ∧
      (start = tokens ∧ d.found = .eof ∨
        ∃ token, start ++ [token] <+: tokens ∧ ∀ (others : List Token) (depth : Nat),
          start ++ [token] <+: others → (∀ token ∈ others, token.Readable) →
          Program.read depth others ≠ .error .tooDeep →
          ∃ result, Program.read depth others = .ok result ∧
            result.diagnostics.head? = some d) := by
  obtain ⟨place, hplace, ⟨more, program, hmore, hprogram⟩, hdecided⟩ :=
    Program.exists_place ht hread hd
  have hstart : tokens.take place ++ tokens.drop place = tokens := List.take_append_drop _ _
  refine ⟨tokens.take place, List.take_prefix _ _, ⟨more, program, hmore, ?_⟩, ?_⟩
  · refine hprogram.eventually_read (convertible_of_readable fun token htoken => ?_)
    exact (List.mem_append.mp htoken).elim (fun h => ht _ (List.mem_of_mem_take h)) (hmore _)
  · cases hrest : tokens.drop place with
    | nil =>
      rw [hrest, List.append_nil] at hstart
      exact .inl ⟨hstart, by rw [(hdecided 0).found, hrest]; rfl⟩
    | cons token rest =>
      refine .inr ⟨token, ⟨rest, ?_⟩, fun others depth hothers hreadable hdeep => ?_⟩
      · rw [List.append_assoc, List.singleton_append, ← hrest, hstart]
      · obtain ⟨behind, rfl⟩ := hothers
        obtain ⟨result, hresult⟩ := Program.exists_read_eq_ok hreadable hdeep
        have hbehind : Program.read depth (tokens.take place ++ token :: behind) = .ok result := by
          rwa [← List.singleton_append, ← List.append_assoc]
        exact ⟨result, hresult, (hdecided depth).head? (by rw [hrest]; rfl) hbehind⟩

/-- A definition whose name is followed by a number. -/
theorem Program.read_viable_prefix_number :
    ∃ start, start <+: [⟨.letKw, "let"⟩, ⟨.ident, "x"⟩, ⟨.int, "5"⟩] ∧
      (∃ (more : List Token) (program : Program), (∀ token ∈ more, token.Readable) ∧
        ∀ᶠ depth in atTop, Program.read depth (start ++ more) = .ok ⟨program, []⟩) ∧
      (start = [⟨.letKw, "let"⟩, ⟨.ident, "x"⟩, ⟨.int, "5"⟩] ∧
          (Diagnostic.expected .assign .int).found = .eof ∨
        ∃ token, start ++ [token] <+: [⟨.letKw, "let"⟩, ⟨.ident, "x"⟩, ⟨.int, "5"⟩] ∧
          ∀ (others : List Token) (depth : Nat),
            start ++ [token] <+: others → (∀ token ∈ others, token.Readable) →
            Program.read depth others ≠ .error .tooDeep →
            ∃ result, Program.read depth others = .ok result ∧
              result.diagnostics.head? = some (.expected .assign .int)) := by
  have hread : Program.read 1 [⟨.letKw, "let"⟩, ⟨.ident, "x"⟩, ⟨.int, "5"⟩] =
      .ok ⟨⟨[.bare ⟨.int, "5"⟩ (.int ⟨.int, "5"⟩ 5)]⟩, [.expected .assign .int]⟩ := rfl
  exact Program.read_viable_prefix (by decide) hread rfl

end Inkwell
