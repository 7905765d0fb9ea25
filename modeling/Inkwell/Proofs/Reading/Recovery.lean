import Inkwell.Proofs.Reading.Resume
import Inkwell.Proofs.Reading.Stops

/-!
# Recovery at a semicolon

An error in one statement does not change how the statements behind its semicolon are read, unless
it leaves a block open: two texts of which the first one ends in a semicolon are read one after the
other as if each of them stood alone.
-/

namespace Inkwell

/-- Two results, one behind the other. -/
def Parsed.append (first second : Parsed) : Parsed where
  program := ⟨first.program.statements ++ second.program.statements⟩
  diagnostics := first.diagnostics ++ second.diagnostics

open Grammar Reading

variable {depth : Nat} {tokens more : List Token} {first second : Parsed}

/-- Behind a last semicolon other tokens are read as if they stood alone, whatever was wrong before
it, if no brace opens a block or every block is closed. -/
theorem Program.read_append_of_capped (hu : Unended tokens) (hcap : Capped tokens)
    (hmore : nextKind more ≠ .semicolon)
    (hclosed : count .lbrace tokens = 0 ∨
      count .lbrace tokens + first.diagnostics.count (.noOperand .rbrace) ≤
        count .rbrace tokens + first.diagnostics.count (.noOperand .lbrace))
    (hfirst : Program.read depth tokens = .ok first)
    (hsecond : Program.read depth more = .ok second) :
    Program.read depth (tokens ++ more) = .ok (first.append second) := by
  obtain ⟨after, hrun, hdiagnostics⟩ := Program.read_eq_ok_iff_statements.mp hfirst
  obtain ⟨last, hrest, hdiagnostics'⟩ := Program.read_eq_ok_iff_statements.mp hsecond
  obtain ⟨htokens, -, hstop, hsame⟩ := resumes_statements (expression_accounted depth)
    (resumes_expression hmore depth) hmore hrun
  have hnil : after.tokens = [] := by
    refine (hu.of_suffix htokens).eq_nil ?_
    rw [← Cursor.current_kind]
    simpa using hstop
  have htally : count .lbrace tokens = 0 ∨ (Cursor.ofTokens tokens).tally ≤ after.tally := by
    refine hclosed.imp_right fun hle => ?_
    rw [← hdiagnostics, Array.count_toList, Array.count_toList] at hle
    have hstart : (Cursor.ofTokens tokens).tally =
        (count .lbrace tokens : Int) - (count .rbrace tokens : Int) := rfl
    have hend : after.tally = (after.diagnostics.count (.noOperand .lbrace) : Int) -
        (after.diagnostics.count (.noOperand .rbrace) : Int) := by
      simp [Cursor.tally, hnil, count]
    omega
  have hjoin : after.append more = (Cursor.ofTokens more).following after := by
    unfold Cursor.append Cursor.following Cursor.ofTokens
    rw [hnil]
    simp
  refine Program.read_eq_ok_iff_statements.mpr ⟨last.following after, ?_, ?_⟩
  · have hloop := hsame hcap htally
    rw [hjoin, run_statements_following hrest] at hloop
    exact hloop
  · unfold Cursor.following Parsed.append
    rw [Array.toList_append, hdiagnostics, hdiagnostics']

/-- Behind a text without braces that ends in a semicolon, other tokens are read as if they stood
alone: an error never changes how the statements behind the semicolon are read. -/
theorem Program.read_append_semicolon {semicolon : Token}
    (ht : ∀ token ∈ tokens, token.Readable) (hplain : ∀ token ∈ tokens, Plain token)
    (hlast : tokens.getLast? = some semicolon) (hs : semicolon.kind = .semicolon)
    (hm : ∀ token ∈ more, token.Readable) (hmore : nextKind more ≠ .semicolon)
    (hdeep : Program.read depth tokens ≠ .error .tooDeep)
    (hdeep' : Program.read depth more ≠ .error .tooDeep) :
    ∃ first second, Program.read depth tokens = .ok first ∧
      Program.read depth more = .ok second ∧
      Program.read depth (tokens ++ more) = .ok (first.append second) := by
  obtain ⟨first, hfirst⟩ := Program.exists_read_eq_ok ht hdeep
  obtain ⟨second, hsecond⟩ := Program.exists_read_eq_ok hm hdeep'
  have hcap : Capped tokens := by
    intro token htoken
    rw [hlast, Option.mem_some_iff] at htoken
    rwa [← htoken]
  have hbrace : count .lbrace tokens = 0 :=
    List.countP_eq_zero.mpr fun token h => by simpa using (hplain token h).1
  exact ⟨first, second, hfirst, hsecond, Program.read_append_of_capped
    (fun token h => (ht token h).ne_eof) hcap hmore (.inl hbrace) hfirst hsecond⟩

/-- Behind `let = 1 ; ) x ;`, a name is read as if it stood alone. -/
theorem Program.read_append_semicolon_name :
    ∃ first second,
      Program.read 2 [⟨.letKw, "let"⟩, ⟨.assign, "="⟩, ⟨.int, "1"⟩, ⟨.semicolon, ";"⟩,
        ⟨.rparen, ")"⟩, ⟨.ident, "x"⟩, ⟨.semicolon, ";"⟩] = .ok first ∧
      Program.read 2 [⟨.ident, "y"⟩] = .ok second ∧
      Program.read 2 ([⟨.letKw, "let"⟩, ⟨.assign, "="⟩, ⟨.int, "1"⟩, ⟨.semicolon, ";"⟩,
        ⟨.rparen, ")"⟩, ⟨.ident, "x"⟩, ⟨.semicolon, ";"⟩] ++ [⟨.ident, "y"⟩]) =
        .ok (first.append second) := by
  have hends : ∀ {tokens : List Token} {result : Parsed},
      Program.read 2 tokens = .ok result → Program.read 2 tokens ≠ .error .tooDeep :=
    fun h hdeep => nomatch h.symm.trans hdeep
  exact Program.read_append_semicolon (by decide) (by decide) rfl rfl (by decide) (by decide)
    (hends rfl) (hends rfl)

/-- The tokens of a function without parameters and of a semicolon, around those of its body. -/
def functionTokens (body : List Token) : List Token :=
  [⟨.fnKw, "fn"⟩, ⟨.lparen, "("⟩, ⟨.rparen, ")"⟩, ⟨.lbrace, "\x7b"⟩] ++ body ++
    [⟨.rbrace, "\x7d"⟩, ⟨.semicolon, ";"⟩]

/-- Behind a function and its semicolon, other tokens are read as if they stood alone, if no more
closing braces than opening ones are reported in the function. A closing brace that is reported has
been taken for an operand, and closes nothing. -/
theorem Program.read_append_function {body : List Token} (ht : ∀ token ∈ body, token.Readable)
    (hbody : Even body) (hm : ∀ token ∈ more, token.Readable) (hmore : nextKind more ≠ .semicolon)
    (hdeep : Program.read depth (functionTokens body) ≠ .error .tooDeep)
    (hdeep' : Program.read depth more ≠ .error .tooDeep) :
    ∃ first second, Program.read depth (functionTokens body) = .ok first ∧
      Program.read depth more = .ok second ∧
      (first.diagnostics.count (.noOperand .rbrace) ≤
          first.diagnostics.count (.noOperand .lbrace) →
        Program.read depth (functionTokens body ++ more) = .ok (first.append second)) := by
  have hreadable : ∀ token ∈ functionTokens body, token.Readable := by
    have hopening : ∀ token ∈ [(⟨.fnKw, "fn"⟩ : Token), ⟨.lparen, "("⟩, ⟨.rparen, ")"⟩,
        ⟨.lbrace, "\x7b"⟩], token.Readable := by decide
    have hclosing : ∀ token ∈ [(⟨.rbrace, "\x7d"⟩ : Token), ⟨.semicolon, ";"⟩],
        token.Readable := by decide
    intro token h
    rcases List.mem_append.mp h with h | h
    · exact (List.mem_append.mp h).elim (hopening token) (ht token)
    · exact hclosing token h
  obtain ⟨first, hfirst⟩ := Program.exists_read_eq_ok hreadable hdeep
  obtain ⟨second, hsecond⟩ := Program.exists_read_eq_ok hm hdeep'
  have hcap : Capped (functionTokens body) := by
    intro token h
    rw [functionTokens, List.getLast?_append, Option.mem_def] at h
    cases h
    rfl
  have heven : count .lbrace (functionTokens body) = count .rbrace (functionTokens body) := by
    have hbody' : count .lbrace body = count .rbrace body := hbody
    have hnil : ∀ kind, count kind [] = 0 := fun _ => rfl
    simp +decide only [functionTokens, count_append, count_cons, hnil, hbody', if_true, if_false]
    omega
  exact ⟨first, second, hfirst, hsecond, fun hle => Program.read_append_of_capped
    (fun token h => (hreadable token h).ne_eof) hcap hmore (.inr (by omega)) hfirst hsecond⟩

/-- A statement that fails in a function before its closing brace does not leave the body open. -/
theorem Program.read_append_function_name :
    ∃ first second, Program.read 4 (functionTokens [⟨.letKw, "let"⟩, ⟨.ident, "x"⟩]) = .ok first ∧
      Program.read 4 [⟨.ident, "y"⟩] = .ok second ∧
      Program.read 4 (functionTokens [⟨.letKw, "let"⟩, ⟨.ident, "x"⟩] ++ [⟨.ident, "y"⟩]) =
        .ok (first.append second) := by
  have hends : ∀ {tokens : List Token} {result : Parsed},
      Program.read 4 tokens = .ok result → Program.read 4 tokens ≠ .error .tooDeep :=
    fun h hdeep => nomatch h.symm.trans hdeep
  obtain ⟨first, second, hfirst, hsecond, hread⟩ :=
    @Program.read_append_function 4 [⟨.ident, "y"⟩] [⟨.letKw, "let"⟩, ⟨.ident, "x"⟩]
      (by decide) rfl (by decide) (by decide) (hends rfl) (hends rfl)
  refine ⟨first, second, hfirst, hsecond, hread ?_⟩
  cases hfirst.symm.trans rfl
  decide

/-- An operator before the closing brace takes the brace for its operand, and the statements behind
the function become its body. -/
theorem Program.read_append_function_open :
    ∃ first second result, Program.read 4 (functionTokens [⟨.minus, "-"⟩]) = .ok first ∧
      Program.read 4 [⟨.ident, "x"⟩] = .ok second ∧
      Program.read 4 (functionTokens [⟨.minus, "-"⟩] ++ [⟨.ident, "x"⟩]) = .ok result ∧
      result.program.statements ≠ first.program.statements ++ second.program.statements := by
  refine ⟨_, _, _, rfl, rfl, rfl, fun h => ?_⟩
  have hlength := congrArg List.length h
  exact absurd hlength (by decide)

end Inkwell
