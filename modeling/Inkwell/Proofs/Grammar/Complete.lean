import Inkwell.Proofs.Grammar.Sound
import Inkwell.Proofs.Reading.Depth
import Mathlib.Order.Filter.AtTopBot.Basic

/-!
# What follows the grammar is read

Whatever the grammar derives is read cleanly within every sufficiently large depth, and gives the
tree of the derivation. An operator that stands to the left of a whole expression in its tree was
read before it, in a loop; a derivation therefore says where that loop arrives, and from there the
loop goes on with the token behind. This is `Leads`; `Reads` is what remains of it when the token
behind ends the loop.
-/

namespace Inkwell

/-- The current token is the first one. -/
theorem Cursor.current_of_tokens {cursor : Cursor} {token : Token} {rest : List Token}
    (h : cursor.tokens = token :: rest) : cursor.current = token := by
  rw [Cursor.current, h]

/-- Behind a move the others are left. -/
theorem Cursor.advance_of_tokens {cursor : Cursor} {token : Token} {rest : List Token}
    (h : cursor.tokens = token :: rest) : cursor.advance.tokens = rest := by
  rw [Cursor.advance, h, List.tail_cons]

/-- The upcoming token is the first one behind a move. -/
theorem Cursor.upcoming_of_tokens {cursor : Cursor} {token : Token} {rest : List Token}
    (h : cursor.advance.tokens = token :: rest) : cursor.upcoming = token := by
  rw [← cursor.current_advance, Cursor.current_of_tokens h]

namespace Grammar

open Reading Filter

/-- No numeral is longer than can be converted. -/
def Convertible (tokens : List Token) : Prop :=
  ∀ token ∈ tokens, token.kind = .int → ∀ digits,
    Text.Decimal.digits? token.literal.toList = some digits → digits.length ≤ maxNumeralLength

/-- Numerals that can be converted stay so while tokens are passed. -/
theorem Convertible.of_suffix {tokens rest : List Token} (h : Convertible tokens)
    (hs : rest <:+ tokens) : Convertible rest := fun token ht => h token (hs.subset ht)

/-- What is left behind names is the end of the tokens. -/
theorem AreNames.suffix {tokens rest : List Token} {names : List Ident}
    (h : AreNames tokens rest names) : rest <:+ tokens := by
  induction h with
  | last => exact (List.suffix_cons _ _).trans (List.suffix_cons _ _)
  | more _ _ _ ih => exact (ih.trans (List.suffix_cons _ _)).trans (List.suffix_cons _ _)

theorem AreParameters.suffix {tokens rest : List Token} {names : List Ident}
    (h : AreParameters tokens rest names) : rest <:+ tokens := by
  cases h with
  | none => exact List.suffix_cons _ _
  | some h => exact h.suffix

/-- So it is behind the end of a statement. -/
theorem EndsStmt.suffix {tokens rest : List Token} (h : EndsStmt tokens rest) :
    rest <:+ tokens := by
  cases h with
  | semicolon => exact List.suffix_cons _ _
  | missing => exact List.suffix_refl _

mutual

theorem IsExpr.suffix : ∀ {s : Stratum} {tokens rest : List Token} {e : Expr},
    IsExpr s tokens rest e → rest <:+ tokens
  | _, _, _, _, .tighter h => h.suffix
  | _, _, _, _, .binary _ ha hb => (hb.suffix.trans (List.suffix_cons _ _)).trans ha.suffix
  | _, _, _, _, .unary _ h => h.suffix.trans (List.suffix_cons _ _)
  | _, _, _, _, .call hf _ ha => (ha.suffix.trans (List.suffix_cons _ _)).trans hf.suffix
  | _, _, _, _, .ident _ => List.suffix_cons _ _
  | _, _, _, _, .int _ _ _ => List.suffix_cons _ _
  | _, _, _, _, .true _ => List.suffix_cons _ _
  | _, _, _, _, .false _ => List.suffix_cons _ _
  | _, _, _, _, .group _ h _ =>
    ((List.suffix_cons _ _).trans h.suffix).trans (List.suffix_cons _ _)
  | _, _, _, _, .when _ _ hc _ hb =>
    (((hb.suffix.trans (List.suffix_cons _ _)).trans hc.suffix).trans
      (List.suffix_cons _ _)).trans (List.suffix_cons _ _)
  | _, _, _, _, .choice _ _ hc _ hb _ hd =>
    (((((hd.suffix.trans (List.suffix_cons _ _)).trans hb.suffix).trans
      (List.suffix_cons _ _)).trans hc.suffix).trans (List.suffix_cons _ _)).trans
      (List.suffix_cons _ _)
  | _, _, _, _, .fn _ _ hp hb =>
    ((hb.suffix.trans hp.suffix).trans (List.suffix_cons _ _)).trans (List.suffix_cons _ _)

/-- So it is behind the arguments of a call. -/
theorem AreArguments.suffix : ∀ {tokens rest : List Token} {es : List Expr},
    AreArguments tokens rest es → rest <:+ tokens
  | _, _, _, .none _ => List.suffix_cons _ _
  | _, _, _, .some h => h.suffix

/-- So it is behind expressions between commas. -/
theorem AreExprs.suffix : ∀ {tokens rest : List Token} {es : List Expr},
    AreExprs tokens rest es → rest <:+ tokens
  | _, _, _, .last h _ => (List.suffix_cons _ _).trans h.suffix
  | _, _, _, .more h _ hs => (hs.suffix.trans (List.suffix_cons _ _)).trans h.suffix

theorem IsBlock.suffix : ∀ {tokens rest : List Token} {b : Block},
    IsBlock tokens rest b → rest <:+ tokens
  | _, _, _, .closed _ h _ =>
    ((List.suffix_cons _ _).trans h.suffix).trans (List.suffix_cons _ _)
  | _, _, _, .unclosed _ _ => List.nil_suffix

theorem IsStmt.suffix : ∀ {tokens rest : List Token} {s : Stmt},
    IsStmt tokens rest s → rest <:+ tokens
  | _, _, _, .define _ _ _ h hend =>
    (((hend.suffix.trans h.suffix).trans (List.suffix_cons _ _)).trans
      (List.suffix_cons _ _)).trans (List.suffix_cons _ _)
  | _, _, _, .ret _ h hend => (hend.suffix.trans h.suffix).trans (List.suffix_cons _ _)
  | _, _, _, .leave _ _ => (List.suffix_cons _ _).trans (List.suffix_cons _ _)
  | _, _, _, .leaveLast _ _ => List.suffix_cons _ _
  | _, _, _, .bare h hend => hend.suffix.trans h.suffix

/-- So it is behind statements one after the other. -/
theorem AreStmts.suffix : ∀ {tokens rest : List Token} {ss : List Stmt},
    AreStmts tokens rest ss → rest <:+ tokens
  | _, _, _, .nil => List.suffix_refl _
  | _, _, _, .cons h hs => hs.suffix.trans h.suffix

end

/-- The kinds of token that an expression may start with. -/
def starting : List Token.Kind :=
  [.ident, .int, .trueKw, .falseKw, .bang, .minus, .lparen, .ifKw, .fnKw]

/-- An expression starts with a token that expressions may start with. -/
theorem IsExpr.nextKind_mem : ∀ {s : Stratum} {tokens rest : List Token} {e : Expr},
    IsExpr s tokens rest e → nextKind tokens ∈ starting
  | _, _, _, _, .tighter h => h.nextKind_mem
  | _, _, _, _, .binary _ ha _ => ha.nextKind_mem
  | _, _, _, _, .unary h _ => by rcases h with h | h <;> rw [nextKind, h] <;> decide
  | _, _, _, _, .call hf _ _ => hf.nextKind_mem
  | _, _, _, _, .ident h => by rw [nextKind, h]; decide
  | _, _, _, _, .int h _ _ => by rw [nextKind, h]; decide
  | _, _, _, _, .true h => by rw [nextKind, h]; decide
  | _, _, _, _, .false h => by rw [nextKind, h]; decide
  | _, _, _, _, .group h _ _ => by rw [nextKind, h]; decide
  | _, _, _, _, .when h _ _ _ _ => by rw [nextKind, h]; decide
  | _, _, _, _, .choice h _ _ _ _ _ _ => by rw [nextKind, h]; decide
  | _, _, _, _, .fn h _ _ _ => by rw [nextKind, h]; decide

/-- A statement starts with a keyword of its own or with an expression. -/
theorem IsStmt.nextKind_mem {tokens rest : List Token} {s : Stmt} (h : IsStmt tokens rest s) :
    nextKind tokens ∈ Token.Kind.letKw :: .returnKw :: starting := by
  cases h with
  | define h => rw [nextKind, h]; decide
  | ret h => rw [nextKind, h]; decide
  | leave h => rw [nextKind, h]; decide
  | leaveLast h => rw [nextKind, h]; decide
  | bare h => exact List.mem_cons_of_mem _ (List.mem_cons_of_mem _ h.nextKind_mem)

/-- What may stand behind a statement: not a semicolon, which belongs to it, nor a second branch. -/
def Detached (rest : List Token) : Prop :=
  nextKind rest ≠ .semicolon ∧ nextKind rest ≠ .elseKw

/-- Statements may stand behind another one, if what follows them may. -/
theorem AreStmts.detached {tokens rest : List Token} {ss : List Stmt}
    (h : AreStmts tokens rest ss) (hrest : Detached rest) : Detached tokens := by
  cases h with
  | nil => exact hrest
  | cons h _ =>
    have hk := h.nextKind_mem
    constructor <;> intro heq <;> rw [heq] at hk <;> exact absurd hk (by decide)

variable {before middle after : Cursor} {α : Type}

/-- Within every sufficiently large depth, a reader accepts and ends before the given rest. -/
def Reads (x : (Int → ParseM Expr) → ParseM α) (before : Cursor) (a : α) (rest : List Token) :
    Prop :=
  ∃ after, after.advance.tokens = rest ∧
    ∀ᶠ depth in atTop, Accepts (x (expression depth)) before a after

/-- Within every sufficiently large depth, reading an expression at a level comes to a tree before
the given rest, and goes on from there. -/
def Leads (level : Int) (before : Cursor) (e : Expr) (rest : List Token) : Prop :=
  ∃ middle, middle.advance.tokens = rest ∧ ∀ᶠ depth in atTop, ∀ {r : Expr} {after : Cursor},
    Accepts (extendAll (expression depth) level middle.tokens e) middle r after →
    Accepts (expression (depth + 1) level) before r after

/-- What holds of the next depth from some depth on, holds from some depth on. -/
theorem eventually_of_succ {p : Nat → Prop} (h : ∀ᶠ depth in atTop, p (depth + 1)) :
    ∀ᶠ depth in atTop, p depth := by
  obtain ⟨n, hn⟩ := eventually_atTop.mp h
  refine eventually_atTop.mpr ⟨n + 1, fun depth hd => ?_⟩
  obtain ⟨m, rfl⟩ : ∃ m, depth = m + 1 := ⟨depth - 1, by omega⟩
  exact hn m (by omega)

/-- The loop that continues an expression ends where the next token does not bind tightly
enough. -/
theorem accepts_extendAll_settled {f : Int → ParseM Expr} (hf : ∀ level, Accounted (f level))
    {level : Int} {rounds : List Token} {e r : Expr} (h : Settled level middle.advance.tokens) :
    Accepts (extendAll f level rounds e) middle r after ↔ r = e ∧ after = middle := by
  cases rounds with
  | nil => exact accepts_extendAll_nil
  | cons round rounds =>
    rw [accepts_extendAll_cons hf, if_neg]
    rintro ⟨-, hlt, hinfix⟩
    rw [Cursor.upcoming_kind] at hlt hinfix
    exact absurd (h (mem_continuing_iff.mpr hinfix)) (Int.not_le.mpr hlt)

/-- The end of the input continues no expression. -/
theorem settled_of_nil {l : Int} (h : middle.tokens = []) :
    Settled l middle.advance.tokens := by
  have hrest : middle.advance.tokens = [] := by rw [Cursor.advance, h, List.tail_nil]
  rw [hrest]
  exact fun hc => absurd hc (by decide)

/-- The number of rounds of the loop does not matter, if there are as many as tokens. -/
theorem accepts_extendAll_congr {f : Int → ParseM Expr} (hf : ∀ level, Accounted (f level))
    {level : Int} {rounds others : List Token} {e r : Expr}
    (hr : middle.tokens.length ≤ rounds.length) (ho : middle.tokens.length ≤ others.length) :
    Accepts (extendAll f level rounds e) middle r after ↔
      Accepts (extendAll f level others e) middle r after := by
  induction rounds generalizing others e middle with
  | nil =>
    have hnil : middle.tokens = [] := List.eq_nil_of_length_eq_zero (by simpa using hr)
    have hset := settled_of_nil (l := level) hnil
    rw [accepts_extendAll_settled hf hset, accepts_extendAll_settled hf hset]
  | cons round rounds ih =>
    cases others with
    | nil =>
      have hnil : middle.tokens = [] := List.eq_nil_of_length_eq_zero (by simpa using ho)
      have hset := settled_of_nil (l := level) hnil
      rw [accepts_extendAll_settled hf hset, accepts_extendAll_settled hf hset]
    | cons other others =>
      rw [accepts_extendAll_cons hf, accepts_extendAll_cons hf]
      split
      · refine exists_congr fun next => exists_congr fun last => and_congr_right fun hext => ?_
        have hsuffix := (hext.suffix (respectedProgress.extend (f := f) hf e)).length_le
        have htail : middle.advance.tokens.length = middle.tokens.length - 1 := List.length_tail
        simp only [List.length_cons] at hr ho
        exact ih (by omega) (by omega)
      · rfl

/-- One round of the loop: an operator or a call that binds tightly enough. -/
theorem accepts_extendAll_of_extend {f : Int → ParseM Expr} (hf : ∀ level, Accounted (f level))
    {level : Int} {last : Cursor} {e next r : Expr} (hk : middle.upcoming.kind ∈ continuing)
    (hlt : level < middle.upcoming.kind.precedence)
    (hext : Accepts (extend f e) middle.advance next last)
    (h : Accepts (extendAll f level last.tokens next) last r after) :
    Accepts (extendAll f level middle.tokens e) middle r after := by
  have hsuffix := (hext.suffix (respectedProgress.extend (f := f) hf e)).length_le
  have hne : middle.upcoming.kind ≠ .eof := fun heq => absurd (heq ▸ hk) (by decide)
  have hsemi : middle.upcoming.kind ≠ .semicolon := fun heq => absurd (heq ▸ hk) (by decide)
  have hcons := Cursor.tokens_advance_eq rfl hne
  cases ht : middle.tokens with
  | nil => rw [Cursor.advance, ht] at hcons; cases hcons
  | cons token rest =>
    have hrest : middle.advance.tokens = rest := by rw [Cursor.advance, ht, List.tail_cons]
    rw [accepts_extendAll_cons hf, if_pos ⟨hsemi, hlt, mem_continuing_iff.mp hk⟩]
    refine ⟨next, last, hext, (accepts_extendAll_congr hf (Nat.le_refl _) ?_).mp h⟩
    rwa [hrest] at hsuffix

/-- Where the next token ends the loop, what reading leads to is what is read. -/
theorem Leads.reads {level : Int} {e : Expr} {rest : List Token} (h : Leads level before e rest)
    (hset : Settled level rest) : Reads (fun f => f level) before e rest := by
  obtain ⟨middle, rfl, hm⟩ := h
  refine ⟨middle, rfl, eventually_of_succ ?_⟩
  filter_upwards [hm] with depth hd
  exact hd ((accepts_extendAll_settled (expression_accounted depth) hset).mpr ⟨rfl, rfl⟩)

/-- An operand leads to itself. -/
theorem Reads.leads {level : Int} {e : Expr} {rest : List Token}
    (h : Reads operand before e rest) : Leads level before e rest := by
  obtain ⟨middle, rfl, hm⟩ := h
  refine ⟨middle, rfl, ?_⟩
  filter_upwards [hm] with depth hd r after hloop
  exact accepts_expression_succ.mpr ⟨e, middle, hd, hloop⟩

/-- What does not continue an expression does not continue one that binds more tightly. -/
theorem Settled.mono {low high : Int} {rest : List Token} (h : Settled low rest)
    (hle : low ≤ high) : Settled high rest := fun hc => Int.le_trans (h hc) hle

/-- A token that continues no expression settles every level. -/
theorem settled_of_not_mem {l : Int} {rest : List Token} (h : nextKind rest ∉ continuing) :
    Settled l rest := fun hc => absurd hc h

/-- The binary operators of a stratum bind as tightly as it does. -/
theorem precedence_of_operator {s : Stratum} {kind : Token.Kind} (h : kind ∈ s.operators) :
    kind.precedence = s.rank ∧ kind ∈ continuing ∧ kind ≠ .lparen ∧ kind ≠ .elseKw ∧
      s.rank < Precedence.unary := by
  cases s <;> cases kind <;> first | exact absurd h (by decide) | decide

/-- What ends a statement continues no expression. -/
theorem EndsStmt.not_mem {behind rest : List Token} (h : EndsStmt behind rest) :
    nextKind behind ∉ continuing := by
  cases h with
  | semicolon h => rw [nextKind, h]; decide
  | missing h => exact h

/-- What ends a statement is no second branch. -/
theorem EndsStmt.ne_elseKw {behind rest : List Token} (h : EndsStmt behind rest)
    (hd : Detached rest) : nextKind behind ≠ .elseKw := by
  cases h with
  | semicolon h => rw [nextKind, h]; decide
  | missing => exact hd.2

/-- Whether the semicolon is there or missing, the reader goes on with the next statement. -/
theorem EndsStmt.skipSemicolon {behind rest : List Token} (h : EndsStmt behind rest)
    (hd : Detached rest) (hm : middle.advance.tokens = behind) :
    middle.skipSemicolon.advance.tokens = rest := by
  unfold Cursor.skipSemicolon
  cases h with
  | semicolon h =>
    rw [if_pos (by rw [Cursor.upcoming_of_tokens hm, h]), Cursor.advance_of_tokens hm]
  | missing =>
    rw [if_neg (by rw [Cursor.upcoming_kind, hm]; exact hd.1), hm]

/-- A loop over further names goes on to the closing parenthesis. -/
theorem AreNames.accepts {tokens rest : List Token} {names : List Ident}
    (h : AreNames tokens rest names) (hb : before.tokens = tokens) :
    before.current.kind = .ident ∧ ∃ last, last.upcoming.kind = .rparen ∧
      last.advance.advance.tokens = rest ∧ ∀ (found : Array Ident) (rounds : List Token),
        before.tokens.length ≤ rounds.length →
        Accepts (moreParameters rounds (found.push ⟨before.current, before.current.literal⟩))
          before (found.toList ++ names) last := by
  induction h generalizing before with
  | last hi hc =>
    have hnext := Cursor.advance_of_tokens hb
    refine ⟨by rw [Cursor.current_of_tokens hb, hi], before,
      by rw [Cursor.upcoming_of_tokens hnext, hc], Cursor.advance_of_tokens hnext, ?_⟩
    intro found rounds _
    rw [Cursor.current_of_tokens hb, ← Array.toList_push]
    cases rounds with
    | nil => exact accepts_moreParameters_nil.mpr ⟨rfl, rfl⟩
    | cons =>
      rw [accepts_moreParameters_cons, if_neg]
      · exact ⟨rfl, rfl⟩
      · rw [Cursor.upcoming_of_tokens hnext, hc]
        decide
  | more hi hc _ ih =>
    have hnext := Cursor.advance_of_tokens hb
    obtain ⟨hident, last, hclose, hrest, hmore⟩ := ih (Cursor.advance_of_tokens hnext)
    refine ⟨by rw [Cursor.current_of_tokens hb, hi], last, hclose, hrest, ?_⟩
    intro found rounds hlen
    cases rounds with
    | nil => rw [hb] at hlen; cases hlen
    | cons round rounds =>
      have hshort : before.advance.advance.tokens.length ≤ rounds.length := by
        have htwo : before.advance.advance.tokens.length = before.advance.tokens.length - 1 :=
          List.length_tail
        have hone : before.advance.tokens.length = before.tokens.length - 1 := List.length_tail
        simp only [List.length_cons] at hlen
        omega
      have hm := hmore (found.push ⟨before.current, before.current.literal⟩) _ hshort
      rw [accepts_moreParameters_cons,
        if_pos (by rw [Cursor.upcoming_of_tokens hnext, hc])]
      refine ⟨by rw [← Cursor.current_advance, hident], ?_⟩
      rw [Array.toList_push, List.append_assoc, List.singleton_append,
        Cursor.current_of_tokens hb] at hm
      rwa [Cursor.current_of_tokens hb]

/-- Derived parameters are accepted as they are. -/
theorem AreParameters.accepts {tokens rest : List Token} {names : List Ident}
    (h : AreParameters tokens rest names) (hb : before.advance.tokens = tokens) :
    ∃ after, after.advance.tokens = rest ∧ Accepts functionParameters before names after := by
  cases h with
  | none hc =>
    refine ⟨before.advance, Cursor.advance_of_tokens hb, ?_⟩
    rw [accepts_functionParameters, if_pos (by rw [Cursor.upcoming_of_tokens hb, hc])]
    exact ⟨rfl, rfl⟩
  | some h =>
    obtain ⟨hident, last, hclose, hrest, hmore⟩ := h.accepts hb
    rw [Cursor.current_advance] at hident
    refine ⟨last.advance, hrest, ?_⟩
    rw [accepts_functionParameters, if_neg (by rw [hident]; decide)]
    exact ⟨hident, last, by simpa using hmore #[] _ (Nat.le_refl _), hclose, rfl⟩

/-- A binary operator continues its left operand, and its right one is read at its own level. -/
theorem leads_binary {s : Stratum} {level : Int} {op : Token} {right rest : List Token}
    {a b : Expr} (hop : op.kind ∈ s.operators) (hlevel : level < s.rank)
    (ha : Leads level before a (op :: right))
    (hb : ∀ {cursor : Cursor}, cursor.tokens = right → Leads s.rank cursor b rest)
    (hset : Settled s.rank rest) : Leads level before (.binary op a op.literal b) rest := by
  obtain ⟨hprec, hcont, hparen, -, -⟩ := precedence_of_operator hop
  obtain ⟨middle, hm, hleft⟩ := ha
  obtain ⟨last, hl, hright⟩ := (hb (Cursor.advance_of_tokens hm)).reads hset
  have hup := Cursor.upcoming_of_tokens hm
  have hcur := Cursor.current_of_tokens hm
  refine ⟨last, hl, ?_⟩
  filter_upwards [hleft, hright] with depth hgo hr r after hloop
  have he := expression_accounted depth
  refine hgo (accepts_extendAll_of_extend he ?_ ?_ ?_ hloop)
  · rwa [hup]
  · rwa [hup, hprec]
  · rw [accepts_extend he, hcur, if_neg hparen, hprec]
    exact ⟨b, hr, rfl⟩

/-- A call continues the expression that is called. -/
theorem leads_call {level : Int} {opening : Token} {inner rest : List Token} {f : Expr}
    {es : List Expr} (hk : opening.kind = .lparen) (hlevel : level ≤ Precedence.unary)
    (hf : Leads level before f (opening :: inner))
    (ha : ∀ {cursor : Cursor}, cursor.advance.tokens = inner →
      Reads (fun e => expressionList e .rparen) cursor es rest) :
    Leads level before (.call opening f es) rest := by
  obtain ⟨middle, hm, hleft⟩ := hf
  obtain ⟨last, hl, hargs⟩ := ha (Cursor.advance_of_tokens hm)
  have hup := Cursor.upcoming_of_tokens hm
  have hcur := Cursor.current_of_tokens hm
  refine ⟨last, hl, ?_⟩
  filter_upwards [hleft, hargs] with depth hgo hr r after hloop
  have he := expression_accounted depth
  refine hgo (accepts_extendAll_of_extend he ?_ ?_ ?_ hloop)
  · rw [hup, hk]; decide
  · rw [hup, hk]
    exact Int.lt_of_le_of_lt hlevel (by decide)
  · rw [accepts_extend he, hcur, if_pos hk]
    exact ⟨es, hr, rfl⟩

/-- An operator before an operand is read where its operand is. -/
theorem reads_unary {op : Token} {tokens rest : List Token} {e : Expr}
    (hk : op.kind = .bang ∨ op.kind = .minus) (hb : before.tokens = op :: tokens)
    (h : Reads (fun f => f Precedence.unary) before.advance e rest) :
    Reads operand before (.unary op op.literal e) rest := by
  obtain ⟨after, hafter, h⟩ := h
  have hcur := Cursor.current_of_tokens hb
  refine ⟨after, hafter, ?_⟩
  filter_upwards [h] with depth hd
  have hun : Accepts (unaryExpression (expression depth)) before (.unary op op.literal e) after :=
    (accepts_unaryExpression (expression_accounted depth)).mpr ⟨e, hd, by rw [hcur]⟩
  rw [accepts_operand, hcur]
  rcases hk with hk | hk <;> rwa [hk]

/-- An expression in parentheses is read where the one inside is. -/
theorem reads_group {opening closing : Token} {tokens rest : List Token} {e : Expr}
    (hk : opening.kind = .lparen) (hc : closing.kind = .rparen)
    (hb : before.tokens = opening :: tokens)
    (h : Reads (fun f => f Precedence.lowest) before.advance e (closing :: rest)) :
    Reads operand before e rest := by
  obtain ⟨middle, hm, h⟩ := h
  refine ⟨middle.advance, Cursor.advance_of_tokens hm, ?_⟩
  filter_upwards [h] with depth hd
  rw [accepts_operand, Cursor.current_of_tokens hb, hk]
  refine (accepts_groupedExpression (expression_accounted depth)).mpr ⟨middle, hd, ?_, rfl⟩
  rw [Cursor.upcoming_of_tokens hm, hc]

/-- A block starts with an opening brace. -/
theorem IsBlock.nextKind_eq {tokens rest : List Token} {b : Block} (h : IsBlock tokens rest b) :
    nextKind tokens = .lbrace := by
  cases h with
  | closed h => exact h
  | unclosed h => exact h

/-- What a choice has in common, with and without a second branch. -/
theorem ifExpression_starts {word opening closing : Token} {tokens inner behind : List Token}
    {c : Expr} {b : Block} (ho : opening.kind = .lparen) (hc : closing.kind = .rparen)
    (hbrace : nextKind inner = .lbrace) (hb : before.tokens = word :: opening :: tokens)
    (hcond : ∀ {cursor : Cursor}, cursor.tokens = tokens →
      Reads (fun f => f Precedence.lowest) cursor c (closing :: inner))
    (hblock : ∀ {cursor : Cursor}, cursor.tokens = inner →
      Reads (fun f => liftM (block f)) cursor b behind) :
    before.upcoming.kind = .lparen ∧ ∃ first second,
      first.upcoming.kind = .rparen ∧ first.advance.upcoming.kind = .lbrace ∧
      second.advance.tokens = behind ∧ ∀ᶠ depth in atTop,
        Accepts (expression depth Precedence.lowest) before.advance.advance c first ∧
        Clean (block (expression depth)) first.advance.advance b second := by
  have hnext := Cursor.advance_of_tokens hb
  obtain ⟨first, hfirst, hreads⟩ := hcond (Cursor.advance_of_tokens hnext)
  have hbehind := Cursor.advance_of_tokens hfirst
  obtain ⟨second, hsecond, hbody⟩ := hblock hbehind
  refine ⟨by rw [Cursor.upcoming_of_tokens hnext, ho], first, second, ?_, ?_, hsecond, ?_⟩
  · rw [Cursor.upcoming_of_tokens hfirst, hc]
  · rw [Cursor.upcoming_kind, hbehind, hbrace]
  · filter_upwards [hreads, hbody] with depth hd hbd
    exact ⟨hd, accepts_lift.mp hbd⟩

/-- A choice without a second branch is read where its condition and its block are. -/
theorem reads_when {word opening closing : Token} {tokens inner rest : List Token}
    {c : Expr} {b : Block} (hk : word.kind = .ifKw) (ho : opening.kind = .lparen)
    (hc : closing.kind = .rparen) (hbrace : nextKind inner = .lbrace)
    (hb : before.tokens = word :: opening :: tokens)
    (hcond : ∀ {cursor : Cursor}, cursor.tokens = tokens →
      Reads (fun f => f Precedence.lowest) cursor c (closing :: inner))
    (hblock : ∀ {cursor : Cursor}, cursor.tokens = inner →
      Reads (fun f => liftM (block f)) cursor b rest)
    (helse : nextKind rest ≠ .elseKw) : Reads operand before (.cond word c b none) rest := by
  obtain ⟨hopen, first, second, hclose, hnext, hrest, hreads⟩ :=
    ifExpression_starts ho hc hbrace hb hcond hblock
  refine ⟨second, hrest, ?_⟩
  filter_upwards [hreads] with depth hd
  rw [accepts_operand, Cursor.current_of_tokens hb, hk]
  refine (accepts_ifExpression (expression_accounted depth)).mpr
    ⟨hopen, c, first, hd.1, hclose, hnext, b, second, hd.2, ?_⟩
  rw [if_neg (by rwa [Cursor.upcoming_kind, hrest]), Cursor.current_of_tokens hb]
  exact ⟨rfl, rfl⟩

/-- A choice with two branches is read where its condition and both blocks are. -/
theorem reads_choice {word opening closing other : Token} {tokens inner behind rest : List Token}
    {c : Expr} {b d : Block} (hk : word.kind = .ifKw) (ho : opening.kind = .lparen)
    (hc : closing.kind = .rparen) (hbrace : nextKind inner = .lbrace)
    (hother : other.kind = .elseKw) (hbrace' : nextKind behind = .lbrace)
    (hb : before.tokens = word :: opening :: tokens)
    (hcond : ∀ {cursor : Cursor}, cursor.tokens = tokens →
      Reads (fun f => f Precedence.lowest) cursor c (closing :: inner))
    (hblock : ∀ {cursor : Cursor}, cursor.tokens = inner →
      Reads (fun f => liftM (block f)) cursor b (other :: behind))
    (hblock' : ∀ {cursor : Cursor}, cursor.tokens = behind →
      Reads (fun f => liftM (block f)) cursor d rest) :
    Reads operand before (.cond word c b (some d)) rest := by
  obtain ⟨hopen, first, second, hclose, hnext, hsecond, hreads⟩ :=
    ifExpression_starts ho hc hbrace hb hcond hblock
  have hbehind := Cursor.advance_of_tokens hsecond
  obtain ⟨last, hlast, hreads'⟩ := hblock' hbehind
  refine ⟨last, hlast, ?_⟩
  filter_upwards [hreads, hreads'] with depth hd hd'
  rw [accepts_operand, Cursor.current_of_tokens hb, hk]
  refine (accepts_ifExpression (expression_accounted depth)).mpr
    ⟨hopen, c, first, hd.1, hclose, hnext, b, second, hd.2, ?_⟩
  rw [if_pos (by rw [Cursor.upcoming_of_tokens hsecond, hother]), Cursor.current_of_tokens hb]
  exact ⟨by rw [Cursor.upcoming_kind, hbehind, hbrace'], d, accepts_lift.mp hd', rfl⟩

/-- A function literal is read where its block is. -/
theorem reads_fn {word opening : Token} {tokens inner rest : List Token}
    {parameters : List Ident} {b : Block} (hk : word.kind = .fnKw) (ho : opening.kind = .lparen)
    (hp : AreParameters tokens inner parameters) (hbrace : nextKind inner = .lbrace)
    (hb : before.tokens = word :: opening :: tokens)
    (hblock : ∀ {cursor : Cursor}, cursor.tokens = inner →
      Reads (fun f => liftM (block f)) cursor b rest) :
    Reads operand before (.fn word parameters b) rest := by
  have hnext := Cursor.advance_of_tokens hb
  obtain ⟨middle, hm, hparameters⟩ := hp.accepts (Cursor.advance_of_tokens hnext)
  obtain ⟨after, hafter, hbody⟩ := hblock hm
  refine ⟨after, hafter, ?_⟩
  filter_upwards [hbody] with depth hd
  rw [accepts_operand, Cursor.current_of_tokens hb, hk]
  refine (accepts_functionLiteral (expression_accounted depth)).mpr
    ⟨by rw [Cursor.upcoming_of_tokens hnext, ho], parameters, middle, b, hparameters, ?_,
      accepts_lift.mp hd, by rw [Cursor.current_of_tokens hb]⟩
  rw [Cursor.upcoming_kind, hm, hbrace]

/-- Within every sufficiently large depth, a first expression and a loop over further ones go on to
the closing parenthesis. -/
def ReadsAll (before : Cursor) (es : List Expr) (rest : List Token) : Prop :=
  ∃ first middle last, last.upcoming.kind = .rparen ∧ last.advance.advance.tokens = rest ∧
    ∀ᶠ depth in atTop, Accepts (expression depth Precedence.lowest) before first middle ∧
      ∀ (found : Array Expr) (rounds : List Token), middle.tokens.length ≤ rounds.length →
        Accepts (moreExpressions (expression depth) rounds (found.push first)) middle
          (found.toList ++ es) last

/-- The last argument is followed by the parenthesis. -/
theorem readsAll_last {closing : Token} {rest : List Token} {e : Expr}
    (hc : closing.kind = .rparen)
    (h : Reads (fun f => f Precedence.lowest) before e (closing :: rest)) :
    ReadsAll before [e] rest := by
  obtain ⟨middle, hm, h⟩ := h
  have hup : middle.upcoming.kind = .rparen := by rw [Cursor.upcoming_of_tokens hm, hc]
  refine ⟨e, middle, middle, hup, Cursor.advance_of_tokens hm, ?_⟩
  filter_upwards [h] with depth hd
  refine ⟨hd, fun found rounds _ => ?_⟩
  rw [← Array.toList_push]
  cases rounds with
  | nil => exact accepts_moreExpressions_nil.mpr ⟨rfl, rfl⟩
  | cons =>
    rw [accepts_moreExpressions_cons (expression_accounted depth),
      if_neg (by rw [hup]; decide)]
    exact ⟨rfl, rfl⟩

/-- Any other one is followed by a comma and the next. -/
theorem readsAll_more {comma : Token} {inner rest : List Token} {e : Expr} {es : List Expr}
    (hc : comma.kind = .comma) (h : Reads (fun f => f Precedence.lowest) before e (comma :: inner))
    (hs : ∀ {cursor : Cursor}, cursor.tokens = inner → ReadsAll cursor es rest) :
    ReadsAll before (e :: es) rest := by
  obtain ⟨middle, hm, h⟩ := h
  obtain ⟨next, following, last, hclose, hrest, hmore⟩ := hs (Cursor.advance_of_tokens hm)
  refine ⟨e, middle, last, hclose, hrest, ?_⟩
  filter_upwards [h, hmore] with depth hd hgo
  have he := expression_accounted depth
  refine ⟨hd, fun found rounds hlen => ?_⟩
  have hne : middle.tokens.length ≠ 0 := by
    intro hzero
    rw [Cursor.advance, List.eq_nil_of_length_eq_zero hzero] at hm
    cases hm
  cases rounds with
  | nil => exact absurd (Nat.le_zero.mp hlen) hne
  | cons round rounds =>
    have hshort : following.tokens.length ≤ rounds.length := by
      have hsuffix := (hgo.1.suffix (he _)).length_le
      have htwo : middle.advance.advance.tokens.length = middle.advance.tokens.length - 1 :=
        List.length_tail
      have hone : middle.advance.tokens.length = middle.tokens.length - 1 := List.length_tail
      simp only [List.length_cons] at hlen
      omega
    have hall := hgo.2 (found.push e) _ hshort
    rw [Array.toList_push, List.append_assoc, List.singleton_append] at hall
    rw [accepts_moreExpressions_cons he, if_pos (by rw [Cursor.upcoming_of_tokens hm, hc])]
    exact ⟨next, following, hgo.1, hall⟩

/-- A call without arguments has its parenthesis at once. -/
theorem reads_arguments_none {closing : Token} {rest : List Token} (hc : closing.kind = .rparen)
    (hb : before.advance.tokens = closing :: rest) :
    Reads (fun f => expressionList f .rparen) before [] rest := by
  refine ⟨before.advance, Cursor.advance_of_tokens hb, .of_forall fun depth => ?_⟩
  rw [accepts_expressionList (expression_accounted depth),
    if_pos (by rw [Cursor.upcoming_of_tokens hb, hc])]
  exact ⟨rfl, rfl⟩

/-- A call with arguments does not start with the parenthesis. -/
theorem reads_arguments_some {rest : List Token} {es : List Expr}
    (hstart : nextKind before.advance.tokens ≠ .rparen)
    (h : ReadsAll before.advance es rest) :
    Reads (fun f => expressionList f .rparen) before es rest := by
  obtain ⟨first, middle, last, hclose, hrest, h⟩ := h
  refine ⟨last.advance, hrest, ?_⟩
  filter_upwards [h] with depth hd
  rw [accepts_expressionList (expression_accounted depth), if_neg (by rwa [Cursor.upcoming_kind])]
  have hall := hd.2 #[] _ (Nat.le_refl _)
  exact ⟨first, middle, last, hd.1, by simpa using hall, hclose, rfl⟩

/-- A `let` is read where its value is. -/
theorem reads_define {word name equals : Token} {tokens behind rest : List Token} {e : Expr}
    (hk : word.kind = .letKw) (hn : name.kind = .ident) (ha : equals.kind = .assign)
    (hend : EndsStmt behind rest) (hd : Detached rest)
    (hb : before.tokens = word :: name :: equals :: tokens)
    (h : ∀ {cursor : Cursor}, cursor.tokens = tokens →
      Reads (fun f => f Precedence.lowest) cursor e behind) :
    Reads statement before (.define word ⟨name, name.literal⟩ e) rest := by
  have hname := Cursor.advance_of_tokens hb
  have hequals := Cursor.advance_of_tokens hname
  obtain ⟨middle, hm, h⟩ := h (Cursor.advance_of_tokens hequals)
  refine ⟨middle.skipSemicolon, hend.skipSemicolon hd hm, ?_⟩
  filter_upwards [h] with depth hval
  have hcur := Cursor.current_of_tokens hb
  refine accepts_statement.mpr (.inl ⟨by rw [hcur, hk], ?_⟩)
  refine (accepts_letStatement (expression_accounted depth)).mpr
    ⟨e, middle, ?_, ?_, hval, ?_, rfl⟩
  · rw [Cursor.upcoming_of_tokens hname, hn]
  · rw [Cursor.upcoming_of_tokens hequals, ha]
  · rw [hcur, Cursor.current_of_tokens hname]

/-- At its keyword a `return` is what a statement is. -/
theorem accepts_return {depth : Nat} {s : Stmt} (hk : before.current.kind = .returnKw)
    (h : Accepts (returnStatement (expression depth)) before s after) :
    Accepts (statement (expression depth)) before s after :=
  accepts_statement.mpr (.inr (.inl ⟨hk, h⟩))

/-- A `return` with an operand is read where the operand is. -/
theorem reads_ret {word : Token} {tokens behind rest : List Token} {e : Expr}
    (hk : word.kind = .returnKw) (hstart : nextKind tokens ∈ starting)
    (hend : EndsStmt behind rest) (hd : Detached rest) (hb : before.tokens = word :: tokens)
    (h : ∀ {cursor : Cursor}, cursor.tokens = tokens →
      Reads (fun f => f Precedence.lowest) cursor e behind) :
    Reads statement before (.ret word (some e)) rest := by
  have hnext := Cursor.advance_of_tokens hb
  have hcur := Cursor.current_of_tokens hb
  obtain ⟨middle, hm, h⟩ := h hnext
  rw [← hnext, ← Cursor.upcoming_kind] at hstart
  refine ⟨middle.skipSemicolon, hend.skipSemicolon hd hm, ?_⟩
  filter_upwards [h] with depth hval
  refine accepts_return (by rw [hcur, hk]) ?_
  refine (accepts_returnStatement (expression_accounted depth)).mpr (.inr (.inr ?_))
  refine ⟨?_, ?_, ?_, e, middle, hval, by rw [hcur], rfl⟩
  all_goals
    intro heq
    rw [heq] at hstart
    exact absurd hstart (by decide)

/-- Before a semicolon a `return` has none. -/
theorem reads_leave {word semicolon : Token} {rest : List Token} (hk : word.kind = .returnKw)
    (hs : semicolon.kind = .semicolon) (hb : before.tokens = word :: semicolon :: rest) :
    Reads statement before (.ret word none) rest := by
  have hnext := Cursor.advance_of_tokens hb
  have hcur := Cursor.current_of_tokens hb
  refine ⟨before.advance, Cursor.advance_of_tokens hnext, .of_forall fun depth => ?_⟩
  refine accepts_return (by rw [hcur, hk]) ?_
  refine (accepts_returnStatement (expression_accounted depth)).mpr (.inl ?_)
  exact ⟨by rw [Cursor.upcoming_of_tokens hnext, hs], by rw [hcur], rfl⟩

/-- Nor has it one before a closing brace or at the end. -/
theorem reads_leaveLast {word : Token} {rest : List Token} (hk : word.kind = .returnKw)
    (hr : nextKind rest = .rbrace ∨ rest = []) (hb : before.tokens = word :: rest) :
    Reads statement before (.ret word none) rest := by
  have hnext := Cursor.advance_of_tokens hb
  have hcur := Cursor.current_of_tokens hb
  refine ⟨before, hnext, .of_forall fun depth => ?_⟩
  refine accepts_return (by rw [hcur, hk]) ?_
  refine (accepts_returnStatement (expression_accounted depth)).mpr (.inr (.inl ?_))
  refine ⟨?_, by rw [hcur], rfl⟩
  rw [Cursor.upcoming_kind, hnext]
  rcases hr with hr | rfl
  · exact .inl hr
  · exact .inr rfl

/-- An expression as a statement is read where the expression is. -/
theorem reads_bare {first : Token} {tokens behind rest : List Token} {e : Expr}
    (hstart : first.kind ∈ starting) (hend : EndsStmt behind rest) (hd : Detached rest)
    (hb : before.tokens = first :: tokens)
    (h : Reads (fun f => f Precedence.lowest) before e behind) :
    Reads statement before (.bare first e) rest := by
  obtain ⟨middle, hm, h⟩ := h
  have hcur := Cursor.current_of_tokens hb
  refine ⟨middle.skipSemicolon, hend.skipSemicolon hd hm, ?_⟩
  filter_upwards [h] with depth hval
  refine accepts_statement.mpr (.inr (.inr ⟨?_, ?_, ?_⟩))
  · rintro heq
    rw [← hcur, heq] at hstart
    exact absurd hstart (by decide)
  · rintro heq
    rw [← hcur, heq] at hstart
    exact absurd hstart (by decide)
  · exact (accepts_bareStatement (expression_accounted depth)).mpr
      ⟨e, middle, hval, by rw [hcur], rfl⟩

/-- A loop over statements, up to a token that ends it. -/
def Loops (ends : Token.Kind → Bool) (before : Cursor) (ss : List Stmt) (rest : List Token) :
    Prop :=
  ∃ after, after.tokens = rest ∧ ∀ᶠ depth in atTop, ∀ (kept : Array Stmt) (rounds : List Token),
    before.tokens.length ≤ rounds.length →
      Clean (statementsUntil ends (expression depth) rounds kept) before (kept.toList ++ ss) after

/-- A token at which a loop over statements ends. -/
def Ends (ends : Token.Kind → Bool) (rest : List Token) : Prop :=
  rest = [] ∨ nextKind rest = .rbrace ∧ ends .rbrace = true

/-- A token at which a loop ends may stand behind a statement. -/
theorem Ends.detached {ends : Token.Kind → Bool} {rest : List Token} (h : Ends ends rest) :
    Detached rest := by
  rcases h with rfl | ⟨h, -⟩
  · exact ⟨by decide, by decide⟩
  · exact ⟨by rw [h]; decide, by rw [h]; decide⟩

/-- At such a token the loop has no more statements. -/
theorem loops_nil {ends : Token.Kind → Bool} {rest : List Token} (h : Ends ends rest)
    (hb : before.tokens = rest) : Loops ends before [] rest := by
  refine ⟨before, hb, .of_forall fun depth kept rounds _ => ?_⟩
  have hend : before.current.kind = .eof ∨ ends before.current.kind = true := by
    rw [Cursor.current_kind, hb]
    rcases h with rfl | ⟨h, he⟩
    · exact .inl rfl
    · exact .inr (by rw [h, he])
  cases rounds with
  | nil => exact clean_statementsUntil_nil.mpr ⟨by simp, rfl⟩
  | cons =>
    rw [clean_statementsUntil_cons (expression_accounted depth), if_pos hend]
    exact ⟨by simp, rfl⟩

/-- Before any other one it has the statement that is read there. -/
theorem loops_cons {ends : Token.Kind → Bool} {behind rest : List Token} {s : Stmt}
    {ss : List Stmt} (hends : ∀ {kind : Token.Kind}, ends kind = true → kind = .rbrace)
    (hstart : nextKind before.tokens ∈ Token.Kind.letKw :: .returnKw :: starting)
    (h : Reads statement before s behind)
    (hs : ∀ {cursor : Cursor}, cursor.tokens = behind → Loops ends cursor ss rest) :
    Loops ends before (s :: ss) rest := by
  obtain ⟨middle, hm, h⟩ := h
  obtain ⟨after, hafter, hloop⟩ := hs hm
  rw [← Cursor.current_kind] at hstart
  have hgo : ¬ (before.current.kind = .eof ∨ ends before.current.kind = true) := by
    rintro (heq | heq)
    · rw [heq] at hstart
      exact absurd hstart (by decide)
    · rw [hends heq] at hstart
      exact absurd hstart (by decide)
  refine ⟨after, hafter, ?_⟩
  filter_upwards [h, hloop] with depth hd hrest kept rounds hlen
  have he := expression_accounted depth
  cases rounds with
  | nil =>
    have hnil := List.eq_nil_of_length_eq_zero (Nat.le_zero.mp hlen)
    rw [Cursor.current_kind, hnil] at hstart
    exact absurd hstart (by decide)
  | cons round rounds =>
    have hshort : middle.advance.tokens.length ≤ rounds.length := by
      have hsuffix :=
        (hd.suffix (respectedProgress.statement (f := expression depth) he)).length_le
      have hone : middle.advance.tokens.length = middle.tokens.length - 1 := List.length_tail
      simp only [List.length_cons] at hlen
      omega
    have hall := hrest (kept.push s) rounds hshort
    rw [Array.toList_push, List.append_assoc, List.singleton_append] at hall
    rw [clean_statementsUntil_cons he, if_neg hgo]
    exact ⟨s, middle, hd, hall⟩

/-- A block is read where its loop is. -/
theorem reads_block {opening : Token} {tokens rest behind : List Token} {ss : List Stmt}
    (hb : before.tokens = opening :: tokens) (hrest : behind.tail = rest)
    (h : Loops (· == .rbrace) before.advance ss behind) :
    Reads (fun f => liftM (block f)) before (.mk opening ss) rest := by
  obtain ⟨after, hafter, h⟩ := h
  refine ⟨after, by rw [Cursor.advance, hafter, hrest], ?_⟩
  filter_upwards [h] with depth hd
  refine accepts_lift.mpr ((clean_block (expression_accounted depth)).mpr ⟨ss, ?_, ?_⟩)
  · simpa using hd #[] _ (Nat.le_refl _)
  · rw [Cursor.current_of_tokens hb]

/-- Reading leads to an expression of a stratum at every level below it, and at every level to an
operand. -/
def Readable (s : Stratum) (tokens rest : List Token) (e : Expr) : Prop :=
  Convertible tokens → nextKind rest ≠ .elseKw → Settled s.rank rest →
    ∀ {level : Int} {before : Cursor}, level ≤ Precedence.unary →
      (level < s.rank ∨ Precedence.unary ≤ s.rank) → before.tokens = tokens →
      Leads level before e rest

/-- A whole expression is read at the lowest level. -/
theorem Readable.reads {tokens rest : List Token} {e : Expr}
    (h : Readable .equality tokens rest e) (hv : Convertible tokens)
    (helse : nextKind rest ≠ .elseKw) (hend : nextKind rest ∉ continuing)
    (hb : before.tokens = tokens) : Reads (fun f => f Precedence.lowest) before e rest :=
  (h hv helse (settled_of_not_mem hend) (by decide) (.inl (by decide)) hb).reads
    (settled_of_not_mem hend)

/-- Before a token that neither continues an expression nor starts a second branch. -/
theorem Readable.reads_before {tokens rest : List Token} {token : Token} {e : Expr}
    (h : Readable .equality tokens (token :: rest) e) (hv : Convertible tokens)
    (hk : token.kind = .rparen ∨ token.kind = .comma) (hb : before.tokens = tokens) :
    Reads (fun f => f Precedence.lowest) before e (token :: rest) := by
  refine h.reads hv ?_ ?_ hb
  all_goals rcases hk with hk | hk <;> rw [nextKind, hk] <;> decide

/-- An expression that ends its statement is read up to that end. -/
theorem Readable.reads_stmt {tokens behind rest : List Token} {e : Expr}
    (h : Readable .equality tokens behind e) (hv : Convertible tokens)
    (hend : EndsStmt behind rest) (hd : Detached rest) (hb : before.tokens = tokens) :
    Reads (fun f => f Precedence.lowest) before e behind :=
  h.reads hv (hend.ne_elseKw hd) hend.not_mem hb

/-- Arguments start with what expressions may start with. -/
theorem AreExprs.nextKind_mem {tokens rest : List Token} {es : List Expr}
    (h : AreExprs tokens rest es) : nextKind tokens ∈ starting := by
  cases h with
  | last h => exact h.nextKind_mem
  | more h => exact h.nextKind_mem

/-- Numerals that can be converted stay so behind the first token. -/
theorem Convertible.tail {token : Token} {tokens : List Token} (h : Convertible (token :: tokens)) :
    Convertible tokens := h.of_suffix (List.suffix_cons _ _)

/-- An operand that is a single token. -/
theorem leads_token {level : Int} {token : Token} {rest : List Token} {e : Expr}
    (hb : before.tokens = token :: rest)
    (h : ∀ depth, Accepts (operand (expression depth)) before e before) :
    Leads level before e rest :=
  Reads.leads ⟨before, Cursor.advance_of_tokens hb, .of_forall h⟩

mutual

/-- A derived expression is read, at every level below its stratum and as an operand at every level.
-/
theorem IsExpr.readable : ∀ {s : Stratum} {tokens rest : List Token} {e : Expr},
    IsExpr s tokens rest e → Readable s tokens rest e
  | s, _, _, _, .tighter h => fun hv helse hset level _ hle hlt hb => by
    have hrank := s.rank_le_tighter
    exact h.readable hv helse (hset.mono hrank) hle (by omega) hb
  | _, _, _, _, @IsExpr.binary s op _ right _ a _ hop ha hb =>
    fun hv helse hset level _ hle hlt hbefore => by
    obtain ⟨hprec, -, -, hother, hunary⟩ := precedence_of_operator hop
    have hright : Convertible right := hv.of_suffix ((List.suffix_cons _ _).trans ha.suffix)
    have hrank := s.rank_le_tighter
    have htight : s.tighter.rank = s.rank + 1 :=
      Stratum.rank_tighter (Int.lt_of_lt_of_le hunary (by decide))
    have hleft : Leads level _ a (op :: right) :=
      ha.readable hv hother (fun _ => Int.le_of_eq hprec) hle hlt hbefore
    refine leads_binary hop (by omega) hleft (fun hc => ?_) hset
    exact hb.readable hright helse (hset.mono hrank) (Int.le_of_lt hunary) (by omega) hc
  | _, _, _, _, .unary hop h => fun hv helse hset level _ _ _ hb => by
    have hinner := h.readable hv.tail helse hset (Int.le_refl _) (.inr (Int.le_refl _))
      (Cursor.advance_of_tokens hb)
    exact (reads_unary hop hb (hinner.reads hset)).leads
  | _, _, _, _, .call hf ho ha => fun hv _ _ level _ hle _ hb => by
    have hinner := (hv.of_suffix hf.suffix).tail
    refine leads_call ho hle ?_ fun hc => ha.reads hinner hc
    refine hf.readable hv ?_ (fun _ => ?_) hle (.inr (by decide)) hb
    · rw [nextKind, ho]; decide
    · rw [nextKind, ho]; decide
  | _, _, _, _, .ident hk => fun _ _ _ _ _ _ _ hb => by
    refine leads_token hb fun depth => ?_
    rw [accepts_operand, Cursor.current_of_tokens hb, hk]
    exact ⟨rfl, rfl⟩
  | _, _, _, _, .int hk hd hval => fun hv _ _ _ _ _ _ hb => by
    refine leads_token hb fun depth => ?_
    have hlen := hv _ List.mem_cons_self hk _ hd
    have hcur := Cursor.current_of_tokens hb
    rw [accepts_operand, hcur, hk]
    exact accepts_integerLiteral.mpr ⟨_, by rwa [hcur], hlen, hval, by rw [hcur], rfl⟩
  | _, _, _, _, .true hk => fun _ _ _ _ _ _ _ hb => by
    refine leads_token hb fun depth => ?_
    rw [accepts_operand, Cursor.current_of_tokens hb, hk]
    exact ⟨rfl, rfl⟩
  | _, _, _, _, .false hk => fun _ _ _ _ _ _ _ hb => by
    refine leads_token hb fun depth => ?_
    rw [accepts_operand, Cursor.current_of_tokens hb, hk]
    exact ⟨rfl, rfl⟩
  | _, _, _, _, .group hk h hc => fun hv _ _ _ _ _ _ hb =>
    (reads_group hk hc hb
      (h.readable.reads_before hv.tail (.inl hc) (Cursor.advance_of_tokens hb))).leads
  | _, _, _, _, .when hk ho hcond hc hblock => fun hv helse _ _ _ _ _ hb => by
    have hinner := (hv.tail.tail.of_suffix hcond.suffix).tail
    refine (reads_when hk ho hc hblock.nextKind_eq hb ?_ ?_ helse).leads
    · exact fun h => hcond.readable.reads_before hv.tail.tail (.inl hc) h
    · exact fun h => hblock.reads hinner h
  | _, _, _, _, .choice hk ho hcond hc hblock hother hblock' => fun hv _ _ _ _ _ _ hb => by
    have hinner := (hv.tail.tail.of_suffix hcond.suffix).tail
    have hbehind := (hinner.of_suffix hblock.suffix).tail
    refine (reads_choice hk ho hc hblock.nextKind_eq hother hblock'.nextKind_eq hb
      ?_ ?_ ?_).leads
    · exact fun h => hcond.readable.reads_before hv.tail.tail (.inl hc) h
    · exact fun h => hblock.reads hinner h
    · exact fun h => hblock'.reads hbehind h
  | _, _, _, _, .fn hk ho hp hblock => fun hv _ _ _ _ _ _ hb => by
    have hinner := hv.tail.tail.of_suffix hp.suffix
    exact (reads_fn hk ho hp hblock.nextKind_eq hb fun h => hblock.reads hinner h).leads

/-- The derived arguments of a call are read. -/
theorem AreArguments.reads : ∀ {tokens rest : List Token} {es : List Expr},
    AreArguments tokens rest es → Convertible tokens → ∀ {before : Cursor},
      before.advance.tokens = tokens → Reads (fun f => expressionList f .rparen) before es rest
  | _, _, _, .none hc, _, _, hb => reads_arguments_none hc hb
  | _, _, _, .some h, hv, _, hb => by
    have hstart := h.nextKind_mem
    rw [← hb] at hstart
    refine reads_arguments_some (fun heq => ?_) (h.readsAll hv hb)
    rw [heq] at hstart
    exact absurd hstart (by decide)

/-- Derived expressions between commas are read. -/
theorem AreExprs.readsAll : ∀ {tokens rest : List Token} {es : List Expr},
    AreExprs tokens rest es → Convertible tokens → ∀ {before : Cursor},
      before.tokens = tokens → ReadsAll before es rest
  | _, _, _, .last h hc, hv, _, hb =>
    readsAll_last hc (h.readable.reads_before hv (.inl hc) hb)
  | _, _, _, .more h hc hs, hv, _, hb =>
    readsAll_more hc (h.readable.reads_before hv (.inr hc) hb)
      fun hcursor => hs.readsAll (hv.of_suffix h.suffix).tail hcursor

/-- A derived block is read. -/
theorem IsBlock.reads : ∀ {tokens rest : List Token} {b : Block},
    IsBlock tokens rest b → Convertible tokens → ∀ {before : Cursor},
      before.tokens = tokens → Reads (fun f => liftM (block f)) before b rest
  | _, _, _, .closed _ h hc, hv, _, hb =>
    reads_block hb rfl
      (h.loops hv.tail (.inr ⟨hc, rfl⟩) (fun he => beq_iff_eq.mp he) (Cursor.advance_of_tokens hb))
  | _, _, _, .unclosed _ h, hv, _, hb =>
    reads_block hb rfl
      (h.loops hv.tail (.inl rfl) (fun he => beq_iff_eq.mp he) (Cursor.advance_of_tokens hb))

/-- A derived statement is read, if what follows may stand behind it. -/
theorem IsStmt.reads : ∀ {tokens rest : List Token} {s : Stmt},
    IsStmt tokens rest s → Convertible tokens → Detached rest → ∀ {before : Cursor},
      before.tokens = tokens → Reads statement before s rest
  | _, _, _, .define hk hn ha h hend, hv, hd, _, hb =>
    reads_define hk hn ha hend hd hb
      fun hcursor => h.readable.reads_stmt hv.tail.tail.tail hend hd hcursor
  | _, _, _, .ret hk h hend, hv, hd, _, hb =>
    reads_ret hk h.nextKind_mem hend hd hb
      fun hcursor => h.readable.reads_stmt hv.tail hend hd hcursor
  | _, _, _, .leave hk hs, _, _, _, hb => reads_leave hk hs hb
  | _, _, _, .leaveLast hk hr, _, _, _, hb => reads_leaveLast hk hr hb
  | _, _, _, .bare h hend, hv, hd, _, hb =>
    reads_bare h.nextKind_mem hend hd hb (h.readable.reads_stmt hv hend hd hb)

/-- Derived statements are read by the loop up to where it ends. -/
theorem AreStmts.loops : ∀ {tokens rest : List Token} {ss : List Stmt},
    AreStmts tokens rest ss → Convertible tokens → ∀ {ends : Token.Kind → Bool},
      Ends ends rest → (∀ {kind : Token.Kind}, ends kind = true → kind = .rbrace) →
      ∀ {before : Cursor}, before.tokens = tokens → Loops ends before ss rest
  | _, _, _, .nil, _, _, hends, _, _, hb => loops_nil hends hb
  | _, _, _, .cons h hs, hv, _, hends, hbrace, _, hb => by
    have hd := hs.detached hends.detached
    refine loops_cons hbrace ?_ (h.reads hv hd hb) fun hcursor =>
      hs.loops (hv.of_suffix h.suffix) hends hbrace hcursor
    rw [hb]
    exact h.nextKind_mem

end

end Grammar

end Inkwell
