import Inkwell.Proofs.Grammar.Exact
import Inkwell.Proofs.Token.Cutting
import Inkwell.Tree.Canonical

/-!
# Canonical text reads back

Trees without choices and functions whose nodes carry the tokens that reading would give them. The
text of such a tree is fully parenthesised, so it is a call, the tightest expression that is not an
atom, whatever stands behind it. What stands behind it may not go on with a letter or a digit,
which would become part of a last name or numeral.
-/

namespace Inkwell

open Token (IsWord IsNumeral Apart tokensOf)

/-- A run of letters that is not a keyword, with the token of its occurrence. -/
inductive Ident.Canonical : Ident → Prop
  | mk {text : String} :
    IsWord text → Token.Kind.ofWord text = .ident → Canonical ⟨⟨.ident, text⟩, text⟩

/-- An expression of names, literals, operators and calls, with the tokens of its text. -/
inductive Expr.Canonical : Expr → Prop
  | ident {name : Ident} : name.Canonical → Canonical (.ident name)
  | int {text : String} {digits : List Nat} :
    IsNumeral text → text.toList.length ≤ maxNumeralLength →
    Text.Decimal.digits? text.toList = some digits → Text.Decimal.value digits ≤ maxInteger →
    Canonical (.int ⟨.int, text⟩ (Text.Decimal.value digits))
  | true : Canonical (.bool ⟨.trueKw, "true"⟩ true)
  | false : Canonical (.bool ⟨.falseKw, "false"⟩ false)
  | unary {kind : Token.Kind} {operand : Expr} :
    kind = .bang ∨ kind = .minus → Canonical operand →
    Canonical (.unary ⟨kind, kind.display⟩ kind.display operand)
  | binary {s : Grammar.Stratum} {kind : Token.Kind} {left right : Expr} :
    kind ∈ s.operators → Canonical left → Canonical right →
    Canonical (.binary ⟨kind, kind.display⟩ left kind.display right)
  | call {callee : Expr} {arguments : List Expr} :
    Canonical callee → (∀ argument ∈ arguments, Canonical argument) →
    Canonical (.call ⟨.lparen, "("⟩ callee arguments)

/-- A statement that is printed with its semicolon, with the tokens of its text. -/
inductive Stmt.Canonical : Stmt → Prop
  | define {name : Ident} {value : Expr} :
    name.Canonical → value.Canonical → Canonical (.define ⟨.letKw, "let"⟩ name value)
  | ret {operand : Expr} : operand.Canonical → Canonical (.ret ⟨.returnKw, "return"⟩ (some operand))
  | leave : Canonical (.ret ⟨.returnKw, "return"⟩ none)

/-- Statements with semicolons, and an expression behind them or none. The token that the last
statement carries is not printed, and may be any. -/
inductive Program.Canonical : Program → Prop
  | closed {ss : List Stmt} : (∀ s ∈ ss, s.Canonical) → Canonical ⟨ss⟩
  | ended {ss : List Stmt} {first : Token} {e : Expr} :
    (∀ s ∈ ss, s.Canonical) → e.Canonical → Canonical ⟨ss ++ [.bare first e]⟩

/-- A statement with the token that its text starts with, if it is an expression. -/
def Stmt.readBack : Stmt → Stmt
  | .bare _ e => .bare ((Token.scan e.text).headD .eof) e
  | s => s

/-- A program with the tokens that its statements' texts start with. -/
def Program.readBack (program : Program) : Program :=
  ⟨program.statements.map Stmt.readBack⟩

namespace Grammar

variable {tokens rest : List Token}

/-- Where there are no tokens, there is no numeral. -/
theorem Convertible.nil : Convertible [] := List.forall_mem_nil _

/-- A token of another kind is no numeral. -/
theorem Convertible.cons {token : Token} (hk : token.kind ≠ .int) (h : Convertible tokens) :
    Convertible (token :: tokens) :=
  List.forall_mem_cons.mpr ⟨fun hint => absurd hint hk, h⟩

/-- Tokens that start with an expression, and that can be converted if those behind it can. -/
structure Starts (e : Expr) (tokens rest : List Token) : Prop where
  isExpr : IsExpr .call tokens rest e
  convertible : Convertible rest → Convertible tokens

/-- An expression in parentheses may be called. -/
theorem Starts.group {s : Stratum} {e : Expr} (h : IsExpr s tokens (⟨.rparen, ")"⟩ :: rest) e)
    (hv : Convertible (⟨.rparen, ")"⟩ :: rest) → Convertible tokens) :
    Starts e (⟨.lparen, "("⟩ :: tokens) rest where
  isExpr := .tighter (.group rfl h.loosest rfl)
  convertible hrest := .cons nofun (hv (.cons nofun hrest))

/-- The text of an expression starts with the expression, whatever stands behind it. -/
structure Prints (e : Expr) : Prop where
  /-- Behind an exclamation mark the text does not turn it into an inequality. -/
  head (behind : List Char) : (e.text.toList ++ behind).head? ≠ some '='
  starts (behind : List Char) :
    Apart behind → Starts e (tokensOf (e.text.toList ++ behind)) (tokensOf behind)

/-- The first character of a run with a property that the equals sign does not have. -/
theorem head_ne {p : Char → Bool} {text : String} (hp : p '=' = false)
    (h : text.toList ≠ [] ∧ ∀ c ∈ text.toList, p c = true) (behind : List Char) :
    (text.toList ++ behind).head? ≠ some '=' := by
  obtain ⟨hne, hall⟩ := h
  cases ht : text.toList with
  | nil => exact absurd ht hne
  | cons c run =>
    intro hc
    cases hc
    rw [hall '=' (by rw [ht]; exact List.mem_cons_self)] at hp
    cases hp

/-- A word that is an expression by itself. -/
theorem Prints.word {e : Expr} (h : IsWord e.text) (hk : Token.Kind.ofWord e.text ≠ .int)
    (he : ∀ rest, IsExpr .atom (⟨Token.Kind.ofWord e.text, e.text⟩ :: rest) rest e) :
    Prints e := by
  refine ⟨head_ne (by decide) h, fun behind hbehind => ?_⟩
  rw [Token.tokensOf_word h hbehind]
  exact ⟨.tighter (he _), .cons hk⟩

/-- A name is printed as its letters. -/
theorem Prints.ident {name : Ident} (h : name.Canonical) : Prints (.ident name) := by
  obtain ⟨hword, hfree⟩ := h
  refine .word hword ?_ fun rest => ?_
  · rw [Expr.text, hfree]
    nofun
  · rw [Expr.text, hfree]
    exact .ident rfl

/-- One truth value is printed as its keyword. -/
theorem Prints.true : Prints (.bool ⟨.trueKw, "true"⟩ true) :=
  .word (by decide) (by decide) fun _ => .true rfl

theorem Prints.false : Prints (.bool ⟨.falseKw, "false"⟩ false) :=
  .word (by decide) (by decide) fun _ => .false rfl

/-- An integer is printed as the digits of its token. -/
theorem Prints.int {text : String} {digits : List Nat} (h : IsNumeral text)
    (hlength : text.toList.length ≤ maxNumeralLength)
    (hdigits : Text.Decimal.digits? text.toList = some digits)
    (hvalue : Text.Decimal.value digits ≤ maxInteger) :
    Prints (.int ⟨.int, text⟩ (Text.Decimal.value digits)) := by
  refine ⟨head_ne (by decide) h, fun behind hbehind => ?_⟩
  rw [Expr.text, Token.tokensOf_numeral h hbehind]
  have hshort : ∀ others, Text.Decimal.digits? text.toList = some others →
      others.length ≤ maxNumeralLength := by
    intro others hothers
    rwa [Text.Decimal.length_of_digits? hothers]
  exact ⟨.tighter (.int rfl hdigits hvalue), fun hv =>
    List.forall_mem_cons.mpr ⟨fun _ => hshort, hv⟩⟩

/-- An operator in front of an expression, in parentheses. -/
theorem Prints.unary {kind : Token.Kind} {operand : Expr} (hk : kind = .bang ∨ kind = .minus)
    (h : Prints operand) : Prints (.unary ⟨kind, kind.display⟩ kind.display operand) := by
  have htext : ∀ behind : List Char,
      (Expr.unary ⟨kind, kind.display⟩ kind.display operand).text.toList ++ behind =
        '(' :: (kind.display.toList ++ (operand.text.toList ++ (')' :: behind))) := by
    intro behind
    simp [Expr.text, String.toList_append]
  obtain ⟨hoperator, hint⟩ : kind ∈ Token.Kind.operators ∧ kind ≠ .int := by
    rcases hk with rfl | rfl <;> decide
  refine ⟨fun behind => by rw [htext]; simp, fun behind hbehind => ?_⟩
  have hinner := h.starts (')' :: behind) (Token.apart_cons rfl rfl)
  rw [Token.tokensOf_rparen] at hinner
  rw [htext, Token.tokensOf_lparen, Token.tokensOf_operator hoperator (h.head _)]
  have hstacked : IsExpr .unary _ _ operand := .tighter hinner.isExpr
  exact .group (.unary hk hstacked) fun hv => .cons hint (hinner.convertible hv)

/-- An operator between two expressions, in parentheses. -/
theorem Prints.binary {s : Stratum} {kind : Token.Kind} {left right : Expr}
    (hk : kind ∈ s.operators) (ha : Prints left) (hb : Prints right) :
    Prints (.binary ⟨kind, kind.display⟩ left kind.display right) := by
  have htext : ∀ behind : List Char,
      (Expr.binary ⟨kind, kind.display⟩ left kind.display right).text.toList ++ behind =
        '(' :: (left.text.toList ++ (' ' :: (kind.display.toList ++
          (' ' :: (right.text.toList ++ (')' :: behind)))))) := by
    intro behind
    simp [Expr.text, String.toList_append]
  obtain ⟨hoperator, hint, hs, ht⟩ : kind ∈ Token.Kind.operators ∧ kind ≠ .int ∧
      s.rank ≤ Stratum.call.rank ∧ s.tighter.rank ≤ Stratum.call.rank := by
    revert hk
    cases s <;> cases kind <;> decide
  refine ⟨fun behind => by rw [htext]; simp, fun behind hbehind => ?_⟩
  have hright := hb.starts (')' :: behind) (Token.apart_cons rfl rfl)
  have hleft := ha.starts (' ' :: (kind.display.toList ++ (' ' :: (right.text.toList ++
    (')' :: behind))))) (Token.apart_cons rfl rfl)
  rw [Token.tokensOf_rparen] at hright
  rw [Token.tokensOf_space, Token.tokensOf_operator hoperator (by simp), Token.tokensOf_space]
    at hleft
  rw [htext, Token.tokensOf_lparen]
  have hgrouped : IsExpr s _ _ _ :=
    .binary hk (hleft.isExpr.of_rank_le hs) (hright.isExpr.of_rank_le ht)
  exact .group hgrouped fun hv => hleft.convertible (.cons hint (hright.convertible hv))

/-- The text of the arguments of a call, with the closing parenthesis and the text behind it. -/
def argumentsText (arguments : List Expr) (behind : List Char) : List Char :=
  (", ".intercalate (Expr.texts arguments)).toList ++ (')' :: behind)

/-- Without arguments there is only the closing parenthesis. -/
theorem argumentsText_nil (behind : List Char) : argumentsText [] behind = ')' :: behind := rfl

/-- No comma stands behind the last argument. -/
theorem argumentsText_singleton (e : Expr) (behind : List Char) :
    argumentsText [e] behind = e.text.toList ++ (')' :: behind) := by
  rw [argumentsText, Expr.texts, Expr.texts, String.intercalate_singleton]

/-- Between two arguments there is a comma and a blank. -/
theorem argumentsText_cons_cons (e next : Expr) (es : List Expr) (behind : List Char) :
    argumentsText (e :: next :: es) behind =
      e.text.toList ++ (',' :: ' ' :: argumentsText (next :: es) behind) := by
  simp [argumentsText, Expr.texts, String.intercalate_cons_cons, String.toList_append]

/-- The text of one argument or more. -/
theorem areExprs_of_prints {e : Expr} {es : List Expr} (h : ∀ argument ∈ e :: es, Prints argument)
    (behind : List Char) :
    AreExprs (tokensOf (argumentsText (e :: es) behind)) (tokensOf behind) (e :: es) ∧
      (Convertible (tokensOf behind) →
        Convertible (tokensOf (argumentsText (e :: es) behind))) := by
  induction es generalizing e with
  | nil =>
    have hlast := (h e List.mem_cons_self).starts (')' :: behind) (Token.apart_cons rfl rfl)
    rw [Token.tokensOf_rparen] at hlast
    rw [argumentsText_singleton]
    exact ⟨.last hlast.isExpr.loosest rfl, fun hv => hlast.convertible (.cons nofun hv)⟩
  | cons next es ih =>
    obtain ⟨hothers, hv⟩ := ih (List.forall_mem_cons.mp h).2
    have hfirst := (h e List.mem_cons_self).starts (',' :: ' ' :: argumentsText (next :: es) behind)
      (Token.apart_cons rfl rfl)
    rw [Token.tokensOf_comma, Token.tokensOf_space] at hfirst
    rw [argumentsText_cons_cons]
    exact ⟨.more hfirst.isExpr.loosest rfl hothers,
      fun hrest => hfirst.convertible (.cons nofun (hv hrest))⟩

/-- The text of the arguments of a call. -/
theorem areArguments_of_prints {es : List Expr} (h : ∀ argument ∈ es, Prints argument)
    (behind : List Char) :
    AreArguments (tokensOf (argumentsText es behind)) (tokensOf behind) es ∧
      (Convertible (tokensOf behind) → Convertible (tokensOf (argumentsText es behind))) := by
  cases es with
  | nil =>
    rw [argumentsText_nil, Token.tokensOf_rparen]
    exact ⟨.none rfl, .cons nofun⟩
  | cons e es =>
    obtain ⟨hes, hv⟩ := areExprs_of_prints h behind
    exact ⟨.some hes, hv⟩

/-- The text of a call. -/
theorem Prints.call {callee : Expr} {arguments : List Expr} (hf : Prints callee)
    (ha : ∀ argument ∈ arguments, Prints argument) :
    Prints (.call ⟨.lparen, "("⟩ callee arguments) := by
  have htext : ∀ behind : List Char,
      (Expr.call ⟨.lparen, "("⟩ callee arguments).text.toList ++ behind =
        callee.text.toList ++ ('(' :: argumentsText arguments behind) := by
    intro behind
    simp [Expr.text, argumentsText, String.toList_append]
  refine ⟨fun behind => by rw [htext]; exact hf.head _, fun behind _ => ?_⟩
  obtain ⟨harguments, hv⟩ := areArguments_of_prints ha behind
  have hcallee := hf.starts ('(' :: argumentsText arguments behind)
    (Token.apart_cons rfl rfl)
  rw [Token.tokensOf_lparen] at hcallee
  rw [htext]
  exact ⟨.call hcallee.isExpr rfl harguments,
    fun hrest => hcallee.convertible (.cons nofun (hv hrest))⟩

end Grammar

/-- The text of a canonical expression starts with the expression, by induction on the tree. -/
theorem Expr.Canonical.prints {e : Expr} (h : e.Canonical) : Grammar.Prints e := by
  induction h with
  | ident hname => exact .ident hname
  | int hnumeral hlength hdigits hvalue => exact .int hnumeral hlength hdigits hvalue
  | true => exact .true
  | false => exact .false
  | unary hk _ ih => exact .unary hk ih
  | binary hk _ _ iha ihb => exact .binary hk iha ihb
  | call _ _ ihf iha => exact .call ihf iha

namespace Grammar

/-- The keyword of a definition is a word. -/
theorem isWord_let : IsWord "let" := by decide

theorem isWord_return : IsWord "return" := by decide

/-- The text of an expression, and the semicolon behind it. -/
theorem Prints.ended {e : Expr} (h : Prints e) (behind : List Char) :
    Starts e (tokensOf (e.text.toList ++ (';' :: behind)))
      (⟨.semicolon, ";"⟩ :: tokensOf behind) := by
  have hstarts := h.starts (';' :: behind) (Token.apart_cons rfl rfl)
  rwa [Token.tokensOf_semicolon] at hstarts

/-- The text of a statement that is printed with its semicolon. -/
theorem isStmt_of_canonical {s : Stmt} (h : s.Canonical) (behind : List Char) :
    IsStmt (tokensOf (s.text.toList ++ behind)) (tokensOf behind) s ∧
      (Convertible (tokensOf behind) → Convertible (tokensOf (s.text.toList ++ behind))) := by
  cases h with
  | @define name value hname hvalue =>
    obtain @⟨word, hword, hfree⟩ := hname
    have htext : (Stmt.define ⟨.letKw, "let"⟩ ⟨⟨.ident, word⟩, word⟩ value).text.toList ++ behind =
        "let".toList ++ (' ' :: (word.toList ++ (' ' :: '=' :: ' ' ::
          (value.text.toList ++ (';' :: behind))))) := by
      simp [Stmt.text, String.toList_append]
    have hended := hvalue.prints.ended behind
    rw [htext, Token.tokensOf_word isWord_let (Token.apart_cons rfl rfl), Token.tokensOf_space,
      Token.tokensOf_word hword (Token.apart_cons rfl rfl), Token.tokensOf_space,
      Token.tokensOf_assign, Token.tokensOf_space, hfree]
    refine ⟨.define rfl rfl rfl hended.isExpr.loosest (.semicolon rfl), fun hv => ?_⟩
    exact .cons (by decide) (.cons nofun (.cons nofun (hended.convertible (.cons nofun hv))))
  | @ret operand hoperand =>
    have htext : (Stmt.ret ⟨.returnKw, "return"⟩ (some operand)).text.toList ++ behind =
        "return".toList ++ (' ' :: (operand.text.toList ++ (';' :: behind))) := by
      simp [Stmt.text, Expr.operandText, String.toList_append]
    have hended := hoperand.prints.ended behind
    rw [htext, Token.tokensOf_word isWord_return (Token.apart_cons rfl rfl), Token.tokensOf_space]
    refine ⟨.ret rfl hended.isExpr.loosest (.semicolon rfl), fun hv => ?_⟩
    exact .cons (by decide) (hended.convertible (.cons nofun hv))
  | leave =>
    have htext : (Stmt.ret ⟨.returnKw, "return"⟩ none).text.toList ++ behind =
        "return".toList ++ (';' :: behind) := by
      simp [Stmt.text, Expr.operandText]
    rw [htext, Token.tokensOf_word isWord_return (Token.apart_cons rfl rfl),
      Token.tokensOf_semicolon]
    exact ⟨.leave rfl rfl, fun hv => .cons (by decide) (.cons nofun hv)⟩

/-- Statements that are printed with their semicolons, in front of statements read already. -/
theorem areStmts_of_canonical {ss more : List Stmt} (h : ∀ s ∈ ss, s.Canonical)
    {behind : List Char} (hmore : AreStmts (tokensOf behind) [] more)
    (hv : Convertible (tokensOf behind)) :
    AreStmts (tokensOf ((String.join (Stmt.texts ss)).toList ++ behind)) [] (ss ++ more) ∧
      Convertible (tokensOf ((String.join (Stmt.texts ss)).toList ++ behind)) := by
  induction ss with
  | nil => exact ⟨hmore, hv⟩
  | cons s ss ih =>
    obtain ⟨hs, hss⟩ := List.forall_mem_cons.mp h
    obtain ⟨hstmts, htokens⟩ := ih hss
    obtain ⟨hstmt, hfirst⟩ :=
      isStmt_of_canonical hs ((String.join (Stmt.texts ss)).toList ++ behind)
    rw [Stmt.texts, String.join_cons, String.toList_append, List.append_assoc]
    exact ⟨.cons hstmt hstmts, hfirst htokens⟩

/-- An expression up to the end of the text is a statement, with the first token of the text. -/
theorem areStmts_of_prints {e : Expr} (h : Prints e) :
    AreStmts (tokensOf e.text.toList) [] [.bare ((tokensOf e.text.toList).headD .eof) e] ∧
      Convertible (tokensOf e.text.toList) := by
  have hstarts := h.starts [] Token.apart_nil
  rw [List.append_nil, Token.tokensOf_nil] at hstarts
  refine ⟨.cons ?_ .nil, hstarts.convertible .nil⟩
  have hkind := hstarts.isExpr.nextKind_mem
  cases htokens : tokensOf e.text.toList with
  | nil =>
    rw [htokens] at hkind
    exact absurd hkind (by decide)
  | cons first tokens =>
    have hends : EndsStmt [] [] := .missing (by decide)
    rw [htokens] at hstarts
    exact .bare hstarts.isExpr.loosest hends

end Grammar

/-- The texts of statements stand one behind the other. -/
theorem Stmt.texts_append (ss more : List Stmt) :
    Stmt.texts (ss ++ more) = Stmt.texts ss ++ Stmt.texts more := by
  induction ss with
  | nil => rfl
  | cons s ss ih => rw [List.cons_append, Stmt.texts, Stmt.texts, ih, List.cons_append]

/-- A canonical statement carries the token that its text starts with already. -/
theorem Stmt.Canonical.readBack {s : Stmt} (h : s.Canonical) : s.readBack = s := by
  cases h <;> rfl

theorem Stmt.map_readBack {ss : List Stmt} (h : ∀ s ∈ ss, s.Canonical) :
    ss.map Stmt.readBack = ss :=
  (List.map_congr_left fun s hs => (h s hs).readBack).trans (List.map_id ss)

/-- The text of a statement does not show which token it carries. -/
theorem Stmt.text_readBack (s : Stmt) : s.readBack.text = s.text := by
  cases s <;> rfl

/-- The text does not show the token that a statement of an expression carries. -/
theorem Program.text_readBack (program : Program) : program.readBack.text = program.text := by
  have htexts : ∀ ss : List Stmt, Stmt.texts (ss.map Stmt.readBack) = Stmt.texts ss := by
    intro ss
    induction ss with
    | nil => rfl
    | cons s ss ih => rw [List.map_cons, Stmt.texts, Stmt.texts, ih, s.text_readBack]
  rw [Program.text, Program.text, Program.readBack, htexts]

/-- The text of a canonical program follows the grammar, and its numerals can be converted. -/
theorem Program.Canonical.isProgram {program : Program} (h : program.Canonical) :
    Grammar.IsProgram (Token.scan program.text) program.readBack ∧
      Grammar.Convertible (Token.scan program.text) := by
  rw [Token.scan_eq, Grammar.IsProgram]
  cases h with
  | @closed ss hss =>
    have hnil : Grammar.AreStmts (tokensOf []) [] [] := by
      rw [Token.tokensOf_nil]
      exact .nil
    have hv : Grammar.Convertible (tokensOf []) := by
      rw [Token.tokensOf_nil]
      exact .nil
    have hstmts := Grammar.areStmts_of_canonical hss hnil hv
    rw [List.append_nil, List.append_nil] at hstmts
    rw [Program.readBack, Stmt.map_readBack hss]
    exact hstmts
  | @ended ss first e hss he =>
    obtain ⟨hlast, hv⟩ := Grammar.areStmts_of_prints he.prints
    have hstmts := Grammar.areStmts_of_canonical hss hlast hv
    have htext : (Program.text ⟨ss ++ [.bare first e]⟩).toList =
        (String.join (Stmt.texts ss)).toList ++ e.text.toList := by
      simp [Program.text, Stmt.texts_append, Stmt.texts, Stmt.text, String.join_append]
    rw [Program.readBack, List.map_append, Stmt.map_readBack hss, htext]
    exact hstmts

/-- Canonical text reads back as the program it was made from, with the first token of its own text
in a last expression. So two canonical programs with the same text differ in this token at most, and
the program read has the same text again. -/
theorem Program.ofSource_text {depth : Nat} {program : Program} (h : program.Canonical) :
    (Program.ofSource depth program.text ≠ .error (.stopped .tooDeep) →
      Program.ofSource depth program.text = .ok program.readBack) ∧
    program.readBack.text = program.text ∧
    ∀ other : Program, other.Canonical → other.text = program.text →
      other.readBack = program.readBack := by
  obtain ⟨hprogram, hv⟩ := h.isProgram
  refine ⟨fun hdeep => ?_, program.text_readBack, fun other hother htext => ?_⟩
  · have hends : Program.read depth (Token.scan program.text) ≠ .error .tooDeep := fun hread =>
      hdeep (by rw [Program.ofSource, hread])
    rw [Program.ofSource, hprogram.read_eq_ok hv hends]
  · have hsame := hother.isProgram.1
    rw [htext] at hsame
    exact hsame.unique hv hprogram

/-- A call of a negation. -/
theorem Program.ofSource_text_negated :
    Program.ofSource 3 "(-x)(1)" = .ok ⟨[.bare ⟨.lparen, "("⟩ (.call ⟨.lparen, "("⟩
      (.unary ⟨.minus, "-"⟩ "-" (.ident ⟨⟨.ident, "x"⟩, "x"⟩)) [.int ⟨.int, "1"⟩ 1])]⟩ := by
  have hscan : Token.scan "(-x)(1)" = [⟨.lparen, "("⟩, ⟨.minus, "-"⟩, ⟨.ident, "x"⟩, ⟨.rparen, ")"⟩,
      ⟨.lparen, "("⟩, ⟨.int, "1"⟩, ⟨.rparen, ")"⟩] := by
    have hminus : tokensOf ['-', 'x', ')', '(', '1', ')'] =
        ⟨.minus, "-"⟩ :: tokensOf ['x', ')', '(', '1', ')'] := Token.tokensOf_of_some rfl
    have hword : tokensOf ['x', ')', '(', '1', ')'] =
        ⟨.ident, "x"⟩ :: tokensOf [')', '(', '1', ')'] := Token.tokensOf_of_some rfl
    have hnumeral : tokensOf ['1', ')'] = ⟨.int, "1"⟩ :: tokensOf [')'] :=
      Token.tokensOf_of_some rfl
    rw [Token.scan_eq]
    change tokensOf ['(', '-', 'x', ')', '(', '1', ')'] = _
    rw [Token.tokensOf_lparen, hminus, hword, Token.tokensOf_rparen, Token.tokensOf_lparen,
      hnumeral, Token.tokensOf_rparen, Token.tokensOf_nil]
  have hname : Ident.Canonical ⟨⟨.ident, "x"⟩, "x"⟩ := .mk (by decide) (by decide)
  have hone : Expr.Canonical (.int ⟨.int, "1"⟩ 1) :=
    @Expr.Canonical.int "1" [1] (by decide) (by decide) rfl (by decide)
  have hcall : Expr.Canonical (.call ⟨.lparen, "("⟩
      (.unary ⟨.minus, "-"⟩ "-" (.ident ⟨⟨.ident, "x"⟩, "x"⟩)) [.int ⟨.int, "1"⟩ 1]) :=
    .call (.unary (.inr rfl) (.ident hname)) (List.forall_mem_singleton.mpr hone)
  have hcanonical := @Program.Canonical.ended [] .eof _ nofun hcall
  have hread := (@Program.ofSource_text 3 _ hcanonical).1
  have hends : Program.ofSource 3 "(-x)(1)" ≠ .error (.stopped .tooDeep) := by
    rw [Program.ofSource, hscan]
    nofun
  change _ → Program.ofSource 3 "(-x)(1)" =
    .ok ⟨[.bare ((Token.scan "(-x)(1)").headD .eof) _]⟩ at hread
  rw [hscan] at hread
  exact hread hends

end Inkwell
