import Inkwell.Evaluation.Run
import Inkwell.Proofs.Reading.Rounds
import Inkwell.Proofs.Text.Decimal
import Inkwell.Proofs.Token.Segmentation
import Inkwell.Proofs.Value.Wrap

/-!
# Printed integers

The text of an integer is a program again: a numeral, or a minus sign and a numeral. Run anywhere it
gives the integer, whatever blanks stand around it and whatever zeros before its digits. The
smallest integer is the exception: its numeral is above the largest one, and as every such numeral
it is refused.
-/

namespace Inkwell

open Token (IsNumeral IsGap number tokensOf)

variable {before digits after : String} {depth : Nat}

/-- Between blanks a numeral is the only token. -/
theorem Token.tokensOf_numeral_gap (h : IsNumeral digits) (ha : IsGap after.toList) :
    tokensOf (digits.toList ++ after.toList) = [⟨.int, digits⟩] := by
  have hapart : Apart after.toList := by
    intro c hc
    have hblank := ha c (List.mem_of_mem_head? hc)
    refine ⟨Bool.eq_false_iff.mpr fun hl => ?_, Bool.eq_false_iff.mpr fun hd => ?_⟩
    · exact nomatch hblank.symm.trans (isBlank_eq_false (.inl hl))
    · exact nomatch hblank.symm.trans (isBlank_eq_false (.inr hd))
  have hend : tokensOf after.toList = [] := by
    rw [← List.append_nil after.toList, tokensOf_gap ha, tokensOf_nil]
  rw [tokensOf_numeral h hapart, hend]

/-- A numeral between gaps is scanned as one token. -/
theorem Token.scan_numeral (hb : IsGap before.toList) (h : IsNumeral digits)
    (ha : IsGap after.toList) : scan (before ++ digits ++ after) = [⟨.int, digits⟩] := by
  rw [scan_eq, String.toList_append, String.toList_append, List.append_assoc, tokensOf_gap hb,
    tokensOf_numeral_gap h ha]

/-- A numeral behind a minus sign is scanned as two. -/
theorem Token.scan_negative (hb : IsGap before.toList) (h : IsNumeral digits)
    (ha : IsGap after.toList) :
    scan (before ++ ("-" ++ digits) ++ after) = [⟨.minus, "-"⟩, ⟨.int, digits⟩] := by
  have hhead : (digits.toList ++ after.toList).head? ≠ some '=' := by
    obtain ⟨hne, hall⟩ := h
    cases hd : digits.toList with
    | nil => exact absurd hd hne
    | cons c cs =>
      rw [hd, List.forall_mem_cons] at hall
      rintro heq
      cases heq
      exact absurd hall.1 (by decide)
  have hminus : tokensOf ("-".toList ++ (digits.toList ++ after.toList)) =
      ⟨.minus, "-"⟩ :: tokensOf (digits.toList ++ after.toList) :=
    @tokensOf_operator _ .minus (by decide) hhead
  rw [tokensOf_numeral_gap h ha] at hminus
  rw [scan_eq, String.toList_append, String.toList_append, String.toList_append, List.append_assoc,
    tokensOf_gap hb, List.append_assoc]
  exact hminus

namespace Reading

variable {cursor : Cursor}

/-- A short numeral is a literal, unless the number is above the largest integer. -/
theorem run_integerLiteral (hcurrent : cursor.current = ⟨.int, digits⟩) (h : IsNumeral digits)
    (hlength : digits.length ≤ maxNumeralLength) :
    integerLiteral.run.run cursor =
      if maxInteger < number digits then .ok none (cursor.report (.outOfRange digits))
      else .ok (some (.int ⟨.int, digits⟩ (number digits))) cursor := by
  have hrun : (liftM current : ParseM Token).run.run cursor =
      .ok (some cursor.current) cursor := rfl
  have hshort : ¬ maxNumeralLength < (digits.toList.map fun c => c.toNat - '0'.toNat).length := by
    rw [List.length_map, String.length_toList]
    exact Nat.not_lt.mpr hlength
  rw [integerLiteral, run_bind_parses, hrun, hcurrent]
  dsimp only
  rw [h.digits?_eq]
  dsimp only
  rw [if_neg hshort, h.value_eq h.digits?_eq]
  split <;> rfl

/-- Nothing continues an expression at the last token. -/
theorem run_extended_last {e : Int → ParseM Expr} {level : Int} {left : Expr} {last : Token}
    (h : cursor.tokens = [last]) :
    (extended e level left).run.run cursor = .ok (some left) cursor := by
  have hremaining : (liftM remaining : ParseM (List Token)).run.run cursor =
      .ok (some cursor.tokens) cursor := rfl
  have hupcoming : (liftM upcoming : ParseM Token).run.run cursor =
      .ok (some cursor.upcoming) cursor := rfl
  have heof : cursor.upcoming = Token.eof := by rw [Cursor.upcoming, h]
  have hstop : ¬ (Token.eof.kind ≠ .semicolon ∧ level < Token.eof.kind.precedence ∧
      Token.eof.kind.isInfix = true) := fun hgo => Bool.false_ne_true hgo.2.2
  rw [extended, run_bind_parses, hremaining]
  dsimp only
  rw [h, extendAll, run_bind_parses, hupcoming, heof]
  dsimp only
  rw [if_neg hstop]
  rfl

/-- What an expression is that ends at the last token, where a numeral stands. -/
theorem run_expression_numeral {e : Option Expr} {diagnostics : Array Diagnostic} (level : Int)
    (h : integerLiteral.run.run (.ofTokens [⟨.int, digits⟩]) =
      .ok e ⟨[⟨.int, digits⟩], diagnostics⟩) :
    (expression (depth + 1) level).run.run (.ofTokens [⟨.int, digits⟩]) =
      .ok e ⟨[⟨.int, digits⟩], diagnostics⟩ := by
  have hoperand : (operand (expression depth)).run.run (.ofTokens [⟨.int, digits⟩]) =
      integerLiteral.run.run (.ofTokens [⟨.int, digits⟩]) := rfl
  rw [expression_succ_eq, run_bind_parses, hoperand, h]
  cases e with
  | none => rfl
  | some e => exact run_extended_last rfl

/-- A minus sign makes a unary expression of the literal behind it, if that can be read. -/
theorem run_expression_negative {e : Option Expr} {diagnostics : Array Diagnostic} (level : Int)
    (h : integerLiteral.run.run (.ofTokens [⟨.int, digits⟩]) =
      .ok e ⟨[⟨.int, digits⟩], diagnostics⟩) :
    (expression (depth + 2) level).run.run (.ofTokens [⟨.minus, "-"⟩, ⟨.int, digits⟩]) =
      .ok (e.map fun e => .unary ⟨.minus, "-"⟩ "-" e) ⟨[⟨.int, digits⟩], diagnostics⟩ := by
  have hoperand : (operand (expression (depth + 1))).run.run
      (.ofTokens [⟨.minus, "-"⟩, ⟨.int, digits⟩]) =
      (do return .unary ⟨.minus, "-"⟩ "-" (← expression (depth + 1) Precedence.unary) :
        ParseM Expr).run.run (.ofTokens [⟨.int, digits⟩]) := rfl
  rw [expression_succ_eq, run_bind_parses, hoperand, run_bind_parses, run_expression_numeral _ h]
  cases e with
  | none => rfl
  | some e => exact run_extended_last rfl

/-- A program of one statement that is an expression, up to the last token. -/
theorem read_of_run_expression {first last : Token} {rest : List Token} {e : Option Expr}
    {diagnostics : Array Diagnostic} (hfirst : first.kind = .int ∨ first.kind = .minus)
    (h : (expression depth Precedence.lowest).run.run (.ofTokens (first :: rest)) =
      .ok e ⟨[last], diagnostics⟩) :
    Program.read depth (first :: rest) =
      .ok ⟨⟨(e.map (Stmt.bare first)).toList⟩, diagnostics.toList⟩ := by
  have he := expression_accounted depth
  have hkind : ¬ ((Cursor.ofTokens (first :: rest)).current.kind = .eof ∨ false = true) := by
    rintro (heof | hend)
    · rcases hfirst with hk | hk <;> exact nomatch hk.symm.trans heof
    · cases hend
  have hstatement : (statement (expression depth)).run.run (.ofTokens (first :: rest)) =
      (bareStatement (expression depth)).run.run (.ofTokens (first :: rest)) := by
    obtain ⟨kind, literal⟩ := first
    rcases hfirst with hk | hk <;> cases hk <;> rfl
  have hbare : (bareStatement (expression depth)).run.run (.ofTokens (first :: rest)) =
      .ok (e.map (Stmt.bare first)) ⟨[last], diagnostics⟩ := by
    have hrun : (bareStatement (expression depth)).run.run (.ofTokens (first :: rest)) =
        (do return .bare first (← terminated (expression depth Precedence.lowest)) :
          ParseM Stmt).run.run (.ofTokens (first :: rest)) := rfl
    rw [hrun, run_bind_parses, run_terminated, h]
    cases e <;> rfl
  have hend : ∀ kept : Array Stmt,
      (statements (fun _ => false) (expression depth) kept).run ⟨[], diagnostics⟩ =
        .ok kept.toList ⟨[], diagnostics⟩ := fun _ => run_statements_of_end he (.inl rfl)
  have hloop : (statements (fun _ => false) (expression depth) #[]).run
      (.ofTokens (first :: rest)) = .ok (e.map (Stmt.bare first)).toList ⟨[], diagnostics⟩ := by
    rw [run_statements he hkind, hstatement, hbare]
    cases e <;> exact hend _
  rw [Program.read, run_program, hloop]

end Reading

open Reading in
/-- A numeral between blanks is a program, unless the number is above the largest integer. -/
theorem Program.ofSource_numeral (hb : IsGap before.toList) (h : IsNumeral digits)
    (ha : IsGap after.toList) (hlength : digits.length ≤ maxNumeralLength) :
    Program.ofSource (depth + 1) (before ++ digits ++ after) =
      if maxInteger < number digits then .error (.rejected [.outOfRange digits])
      else .ok ⟨[.bare ⟨.int, digits⟩ (.int ⟨.int, digits⟩ (number digits))]⟩ := by
  have hliteral := @run_integerLiteral digits (.ofTokens [⟨.int, digits⟩]) rfl h hlength
  rw [Program.ofSource, Token.scan_numeral hb h ha]
  split at hliteral
  · rw [read_of_run_expression (.inl rfl) (run_expression_numeral _ hliteral), if_pos ‹_›]
    rfl
  · rw [read_of_run_expression (.inl rfl) (run_expression_numeral _ hliteral), if_neg ‹_›]
    rfl

open Reading in
/-- A minus sign and a numeral are a program, unless the number is above the largest integer. -/
theorem Program.ofSource_negative (hb : IsGap before.toList) (h : IsNumeral digits)
    (ha : IsGap after.toList) (hlength : digits.length ≤ maxNumeralLength) :
    Program.ofSource (depth + 2) (before ++ ("-" ++ digits) ++ after) =
      if maxInteger < number digits then .error (.rejected [.outOfRange digits])
      else .ok ⟨[.bare ⟨.minus, "-"⟩
        (.unary ⟨.minus, "-"⟩ "-" (.int ⟨.int, digits⟩ (number digits)))]⟩ := by
  have hliteral := @run_integerLiteral digits (.ofTokens [⟨.int, digits⟩]) rfl h hlength
  rw [Program.ofSource, Token.scan_negative hb h ha]
  split at hliteral
  · rw [read_of_run_expression (.inr rfl) (run_expression_negative _ hliteral), if_pos ‹_›]
    rfl
  · rw [read_of_run_expression (.inr rfl) (run_expression_negative _ hliteral), if_neg ‹_›]
    rfl

/-- A numeral above the largest integer is refused, also behind a minus sign. -/
theorem Program.ofSource_tooLarge {sign : String} (hsign : sign = "" ∨ sign = "-")
    (hb : IsGap before.toList) (h : IsNumeral digits) (ha : IsGap after.toList)
    (hlength : digits.length ≤ maxNumeralLength) (hlarge : maxInteger < number digits) :
    Program.ofSource (depth + 2) (before ++ (sign ++ digits) ++ after) =
      .error (.rejected [.outOfRange digits]) := by
  rcases hsign with rfl | rfl
  · rw [String.empty_append, Program.ofSource_numeral hb h ha hlength, if_pos hlarge]
  · rw [Program.ofSource_negative hb h ha hlength, if_pos hlarge]

/-- A negated literal gives the opposite number, wrapped to 64 bits. -/
theorem Machine.run_negated (heap : Heap) (verbosity : Int) (scope : ScopeId) (s t u : Token)
    (number : Int) :
    (Machine.ofHeap heap).run verbosity (depth + 2) scope
      ⟨[.bare s (.unary t "-" (.int u number))]⟩ =
        ⟨.ok (some (.int (wrap (-number)))), .ofHeap heap⟩ := rfl

/-- The text of an integer other than the smallest one gives the integer. -/
theorem Heap.runSource_integer (heap : Heap) (verbosity : Int) (scope : ScopeId)
    (hb : IsGap before.toList) (ha : IsGap after.toList) {n : Int} {zeros : Nat}
    (hlow : -2 ^ 63 < n) (hhigh : n < 2 ^ 63)
    (hlength : zeros + (Text.Decimal.ofNat n.natAbs).length ≤ maxNumeralLength) :
    heap.runSource verbosity (depth + 2) scope
      (before ++ Text.Decimal.padded zeros n ++ after) = ⟨.ok (some (.int n)), .ofHeap heap⟩ := by
  have hnumeral : IsNumeral (Text.Decimal.paddedNat zeros n.natAbs) :=
    Text.Decimal.isNumeral_paddedNat zeros n.natAbs
  have hnumber := Text.Decimal.number_paddedNat zeros n.natAbs
  have hshort : (Text.Decimal.paddedNat zeros n.natAbs).length ≤ maxNumeralLength := by
    rwa [Text.Decimal.length_paddedNat]
  have hsmall : ¬ maxInteger < number (Text.Decimal.paddedNat zeros n.natAbs) := by
    have hmax : (maxInteger : Int) = 2 ^ 63 - 1 := rfl
    rw [hnumber]
    omega
  cases n with
  | ofNat n =>
    have hsource : Program.ofSource (depth + 2)
        (before ++ Text.Decimal.padded zeros (.ofNat n) ++ after) = _ :=
      (Program.ofSource_numeral hb hnumeral ha hshort).trans (if_neg hsmall)
    rw [Heap.runSource, hsource, hnumber]
    rfl
  | negSucc n =>
    have hsource : Program.ofSource (depth + 2)
        (before ++ Text.Decimal.padded zeros (.negSucc n) ++ after) = _ :=
      (Program.ofSource_negative hb hnumeral ha hshort).trans (if_neg hsmall)
    have hwrap : wrap (-((Int.negSucc n).natAbs : Int)) = .negSucc n :=
      wrap_of_signed ⟨Int.le_of_lt hlow, hhigh⟩
    rw [Heap.runSource, hsource, hnumber]
    dsimp only
    rw [Machine.run_negated, hwrap]

/-- The smallest number is printed with digits that are out of range as a literal. -/
theorem Value.text_smallest : (Value.int (-2 ^ 63)).text = "-" ++ "9223372036854775808" := by
  have hsmallest : (-2 ^ 63 : Int) = .negSucc 9223372036854775807 := rfl
  rw [hsmallest]
  simp [Value.text, Text.Decimal.ofInt, Text.Decimal.ofNat]
  rfl

/-- The text of an integer that is not the smallest one, with any zeros before its digits and any
blanks around it, gives the integer wherever it is run. A numeral above the largest integer is
refused with one diagnostic, also behind a minus sign, and nothing is evaluated. So is the text of
the smallest integer. -/
theorem Heap.runSource_padded (heap : Heap) (verbosity : Int) (scope : ScopeId) (hdepth : 2 ≤ depth)
    (hb : IsGap before.toList) (ha : IsGap after.toList) :
    (∀ {number : Int} {zeros : Nat}, -2 ^ 63 < number → number < 2 ^ 63 →
      zeros + (Text.Decimal.ofNat number.natAbs).length ≤ maxNumeralLength →
      heap.runSource verbosity depth scope
        (before ++ Text.Decimal.padded zeros number ++ after) =
          ⟨.ok (some (.int number)), .ofHeap heap⟩) ∧
    (∀ number : Int, Text.Decimal.padded 0 number = (Value.int number).text) ∧
    (∀ {sign digits : String}, sign = "" ∨ sign = "-" → IsNumeral digits →
      digits.length ≤ maxNumeralLength → 2 ^ 63 - 1 < number digits →
      heap.runSource verbosity depth scope (before ++ (sign ++ digits) ++ after) =
        ⟨.error (.refused (.rejected [.outOfRange digits])), .ofHeap heap⟩) ∧
    (∀ digits : String, (Diagnostic.outOfRange digits).message =
      "could not parse " ++ digits ++ " as integer") ∧
    heap.runSource verbosity depth scope (before ++ (Value.int (-2 ^ 63)).text ++ after) =
      ⟨.error (.refused (.rejected [.outOfRange "9223372036854775808"])), .ofHeap heap⟩ := by
  obtain ⟨depth, rfl⟩ := Nat.exists_eq_add_of_le' hdepth
  have hrefused : ∀ {sign digits : String}, sign = "" ∨ sign = "-" → IsNumeral digits →
      digits.length ≤ maxNumeralLength → 2 ^ 63 - 1 < number digits →
      heap.runSource verbosity (depth + 2) scope (before ++ (sign ++ digits) ++ after) =
        ⟨.error (.refused (.rejected [.outOfRange digits])), .ofHeap heap⟩ := by
    intro sign digits hsign h hlength hlarge
    rw [Heap.runSource, Program.ofSource_tooLarge hsign hb h ha hlength hlarge]
  refine ⟨Heap.runSource_integer heap verbosity scope hb ha, fun number => ?_, hrefused,
    fun _ => rfl, ?_⟩
  · rw [Text.Decimal.padded_zero]
    rfl
  · rw [Value.text_smallest]
    exact hrefused (.inr rfl) (by decide) (by decide) (by decide)

/-- A negative integer with two zeros before its digit, and the numeral above the largest integer,
each with a space before it and a line feed behind. -/
theorem Heap.runSource_padded_seven :
    let heap := (∅ : Heap).fresh.2
    IsGap " ".toList ∧ IsGap "\n".toList ∧
      heap.runSource 3 5 0 (" " ++ Text.Decimal.padded 2 (-7) ++ "\n") =
        ⟨.ok (some (.int (-7))), .ofHeap heap⟩ ∧
      heap.runSource 3 5 0 (" " ++ ("" ++ "9223372036854775808") ++ "\n") =
        ⟨.error (.refused (.rejected [.outOfRange "9223372036854775808"])), .ofHeap heap⟩ := by
  intro heap
  have hb : ∀ c ∈ " ".toList, Token.isBlank c = true := List.forall_mem_singleton.mpr rfl
  have ha : ∀ c ∈ "\n".toList, Token.isBlank c = true := List.forall_mem_singleton.mpr rfl
  have hall := Heap.runSource_padded heap 3 0 (by decide : 2 ≤ 5) hb ha
  have hseven : (Text.Decimal.ofNat (-7 : Int).natAbs).length = 1 := by
    simp [Text.Decimal.ofNat]
  refine ⟨hb, ha, hall.1 (by decide) (by decide) ?_, ?_⟩
  · rw [hseven]
    decide
  · exact hall.2.2.1 (.inl rfl) (by decide) (by decide) (by decide)

end Inkwell
