import Inkwell.Proofs.Grammar.Complete
import Inkwell.Proofs.Token.Spelling

/-!
# Reading is the grammar

Reading accepts the programs of the grammar and nothing else, and gives the tree that the grammar
derives. Depth is the only reservation: a reading that stops for want of it decides nothing.
-/

namespace Inkwell

/-- A token that scanning may have cut, and that can be converted if it is a numeral. -/
structure Token.Legible (token : Token) : Prop where
  /-- The end of the input is not a token of the list. -/
  ne_eof : token.kind ≠ .eof
  /-- A numeral is not too long. -/
  short : token.kind = .int → token.literal.toList.length ≤ maxNumeralLength

instance (token : Token) : Decidable token.Legible :=
  decidable_of_iff (token.kind ≠ .eof ∧
      (token.kind = .int → token.literal.toList.length ≤ maxNumeralLength))
    ⟨fun h => ⟨h.1, h.2⟩, fun h => ⟨h.ne_eof, h.short⟩⟩

/-- A numeral has as many digits as characters. -/
theorem Text.Decimal.length_of_mapM {text : List Char} {digits : List Nat}
    (h : text.mapM digit? = some digits) : digits.length = text.length := by
  induction text generalizing digits with
  | nil =>
    cases h
    rfl
  | cons c rest ih =>
    rw [List.mapM_cons] at h
    obtain ⟨digit, -, h⟩ := Option.bind_eq_some_iff.mp h
    obtain ⟨others, hothers, h⟩ := Option.bind_eq_some_iff.mp h
    cases h
    rw [List.length_cons, List.length_cons, ih hothers]

/-- A numeral has as many digits as characters. -/
theorem Text.Decimal.length_of_digits? {text : List Char} {digits : List Nat}
    (h : digits? text = some digits) : digits.length = text.length := by
  unfold digits? at h
  split at h
  · cases h
  · exact length_of_mapM h

namespace Grammar

open Reading Filter

/-- None of the tokens of a text stands for the end of the input. -/
theorem unended_scan (source : String) : Unended (Token.scan source) := fun _ h =>
  (Token.spelled_of_mem_scan h).ne_eof

/-- Tokens with short numerals can be converted. -/
theorem convertible_of_legible {tokens : List Token} (h : ∀ token ∈ tokens, token.Legible) :
    Convertible tokens := by
  intro token ht hk digits hd
  have hshort := (h token ht).short hk
  rwa [Text.Decimal.length_of_digits? hd]

/-- A program of the grammar is read within every sufficiently large depth. -/
theorem IsProgram.eventually_read {tokens : List Token} {program : Program}
    (h : IsProgram tokens program) (hv : Convertible tokens) :
    ∀ᶠ depth in atTop, Program.read depth tokens = .ok ⟨program, []⟩ := by
  have hloops : Loops (fun _ => false) (.ofTokens tokens) program.statements [] :=
    AreStmts.loops h hv (.inl rfl) (fun hends => absurd hends (by decide)) rfl
  obtain ⟨after, -, hloop⟩ := hloops
  filter_upwards [hloop] with depth hd
  refine read_eq_ok_iff.mpr ⟨after, (clean_program (expression_accounted depth)).mpr ?_⟩
  simpa using hd #[] _ (Nat.le_refl _)

/-- A program of the grammar is read within every depth that suffices to end. -/
theorem IsProgram.read_eq_ok {depth : Nat} {tokens : List Token} {program : Program}
    (h : IsProgram tokens program) (hv : Convertible tokens)
    (hdeep : Program.read depth tokens ≠ .error .tooDeep) :
    Program.read depth tokens = .ok ⟨program, []⟩ := by
  obtain ⟨deeper, hread, hle⟩ := ((h.eventually_read hv).and (eventually_ge_atTop depth)).exists
  rw [← Program.read_eq_of_le hle hdeep, hread]

/-- The grammar is unambiguous. -/
theorem IsProgram.unique {tokens : List Token} {first second : Program}
    (hv : Convertible tokens) (h : IsProgram tokens first) (h' : IsProgram tokens second) :
    first = second := by
  obtain ⟨depth, hread, hread'⟩ := ((h.eventually_read hv).and (h'.eventually_read hv)).exists
  rw [hread] at hread'
  cases hread'
  rfl

end Grammar

/-- Reading accepts exactly the programs of the grammar, and gives the tree that the grammar
derives, unless it stops for want of depth. -/
theorem Program.read_iff_isProgram {depth : Nat} {tokens : List Token} {program : Program}
    (ht : ∀ token ∈ tokens, token.Legible)
    (hdeep : Program.read depth tokens ≠ .error .tooDeep) :
    Program.read depth tokens = .ok ⟨program, []⟩ ↔ Grammar.IsProgram tokens program :=
  ⟨Grammar.isProgram_of_read fun token h => (ht token h).ne_eof,
    fun h => h.read_eq_ok (Grammar.convertible_of_legible ht) hdeep⟩

/-- The difference of a difference and a call, without a semicolon. -/
theorem Grammar.isProgram_differences :
    Grammar.IsProgram [⟨.int, "1"⟩, ⟨.minus, "-"⟩, ⟨.int, "2"⟩, ⟨.minus, "-"⟩, ⟨.ident, "f"⟩,
      ⟨.lparen, "("⟩, ⟨.rparen, ")"⟩]
      ⟨[.bare ⟨.int, "1"⟩ (.binary ⟨.minus, "-"⟩
        (.binary ⟨.minus, "-"⟩ (.int ⟨.int, "1"⟩ 1) "-" (.int ⟨.int, "2"⟩ 2)) "-"
        (.call ⟨.lparen, "("⟩ (.ident ⟨⟨.ident, "f"⟩, "f"⟩) []))]⟩ := by
  have hends : ∀ {tokens : List Token} {result : Parsed},
      Program.read 2 tokens = .ok result → Program.read 2 tokens ≠ .error .tooDeep :=
    fun h hdeep => nomatch h.symm.trans hdeep
  exact (Program.read_iff_isProgram (by decide) (hends rfl)).mp rfl

/-- A text is accepted if and only if its tokens are read without diagnostics. -/
theorem Program.ofSource_eq_ok_iff {depth : Nat} {source : String} {program : Program} :
    Program.ofSource depth source = .ok program ↔
      Program.read depth (Token.scan source) = .ok ⟨program, []⟩ := by
  unfold Program.ofSource
  rcases Program.read depth (Token.scan source) with cause | ⟨other, _ | ⟨diagnostic, rest⟩⟩
  · simp
  · simp
  · simp

/-- What is accepted as a program follows the grammar. -/
theorem Grammar.isProgram_of_ofSource {depth : Nat} {source : String} {program : Program}
    (h : Program.ofSource depth source = .ok program) :
    Grammar.IsProgram (Token.scan source) program :=
  Grammar.isProgram_of_read (Grammar.unended_scan source) (Program.ofSource_eq_ok_iff.mp h)

end Inkwell
