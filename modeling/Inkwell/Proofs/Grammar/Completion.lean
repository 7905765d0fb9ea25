import Inkwell.Proofs.Grammar.Viable

/-!
# How every reader is completed

Each reader is gone through once, with what would complete it at every place where it can find
something wrong: a missing token is put there with the shortest text that may follow it, and what
is read at the time is closed behind that.
-/

namespace Inkwell.Grammar

open Reading

variable {before middle : Cursor} {e : Int → ParseM Expr}

/-- A list of parameters that fails behind the first one can be completed by a name or by the
parenthesis. -/
theorem viable_parametersBehind {found : Array Ident} :
    Viable (before.tokens.take 1) (do
      let ps ← parametersBehind found
      expect .rparen
      return ps).run before (Behind .ident SomeNames) := by
  induction hn : before.tokens.length using Nat.strong_induction_on generalizing before found with
  | h n ih =>
    rw [parametersBehind_eq, bind_assoc]
    refine .upcoming ?_
    split
    · rename_i hcomma
      have hfull : 2 ≤ before.tokens.length := Cursor.full_of_upcoming hcomma (by decide)
      have hlen := length_advance before
      have hlen' := length_advance before.advance
      simp only [bind_assoc]
      refine .skip hcomma (by decide) ?_
      refine .expect_token (by decide) [⟨.ident, "x"⟩, ⟨.rparen, ")"⟩] (by decide) ?_
        fun _ => .identifier ((ih _ (by omega) rfl).mono ?_)
      · intro others comma hc name hname
        exact ⟨_, .more hname hc (.last rfl rfl)⟩
      · intro tokens others htail next hnext comma hc name hname
        obtain ⟨names, h⟩ := htail next hnext
        exact ⟨_, .more hname hc h⟩
    · rw [pure_bind]
      exact .close ⟨.rparen, ")"⟩ (by decide) fun others name hname => ⟨_, .last hname rfl⟩

/-- So can a list of parameters that fails at all. -/
theorem viable_functionParameters :
    Viable (before.tokens.take 1) functionParameters.run before SomeParameters := by
  rw [functionParameters_eq]
  refine .upcoming ?_
  split
  · exact .advance .pure
  · refine .expect_token (by decide) [⟨.rparen, ")"⟩] (by decide) (fun others => ⟨_, .none rfl⟩)
      fun _ => .identifier (viable_parametersBehind.mono ?_)
    intro tokens others htail name hname
    obtain ⟨names, h⟩ := htail name hname
    exact ⟨_, .some h⟩

/-- Whatever a reader of expressions finds wrong first, the tokens before it are the beginning of an
expression that could be read at the same level. -/
def Completes (e : Int → ParseM Expr) : Prop :=
  ∀ {level : Int} {before : Cursor}, Precedence.lowest ≤ level →
    Viable [] (e level).run before fun tokens rest =>
      ∃ s : Stratum, (level < s.rank ∨ Precedence.unary ≤ s.rank) ∧ SomeExpr s tokens rest

/-- An expression of a tight stratum is one of every looser stratum. -/
theorem SomeExpr.of_rank_le {s t : Stratum} {tokens rest : List Token} (h : SomeExpr t tokens rest)
    (hr : s.rank ≤ t.rank) : SomeExpr s tokens rest := by
  obtain ⟨r, h⟩ := h
  exact ⟨r, h.of_rank_le hr⟩

/-- Whatever its stratum, an expression is one of the loosest. -/
theorem SomeExpr.loosest {s : Stratum} {tokens rest : List Token} (h : SomeExpr s tokens rest) :
    SomeExpr .equality tokens rest := h.of_rank_le (by cases s <;> decide)

/-- What fails at the lowest level can be completed to any expression. -/
theorem Completes.lowest (hv : Completes e) :
    Viable [] (e Precedence.lowest).run before (SomeExpr .equality) :=
  (hv (Int.le_refl _)).mono fun _ _ ⟨_, _, h⟩ => h.loosest

/-- An expression and the end of its statement. A semicolon ends any statement. -/
theorem Completes.terminated (hv : Completes e) :
    Viable [] (terminated (e Precedence.lowest)).run before SomeValue :=
  hv.lowest.terminated.imp [⟨.semicolon, ";"⟩] (by decide) fun _ _ h => ⟨_, h, .semicolon rfl⟩

/-- What an expression at the lowest level used can be followed by anything. -/
theorem SoundReader.exchanges_lowest (hs : SoundReader e) {r : Expr}
    (hread : ∀ token ∈ before.tokens, token.Readable)
    (h : Accepts (e Precedence.lowest) before r middle) :
    Exchanges Anything (SomeExpr .equality) before.tokens middle.advance.tokens :=
  (hs.lowest (.of_readable hread) h).1.exchanges

section Arguments

variable (he : ∀ level, LocalParses (e level)) (hs : SoundReader e) (hv : Completes e)

include he hs hv

/-- Expressions between commas can be completed where one of them fails, or where the comma or
parenthesis does. -/
theorem viable_expressions (found : Array Expr) :
    Viable [] (do
      let first ← e Precedence.lowest
      let es ← expressionsBehind e (found.push first)
      expect .rparen
      return es).run before SomeExprs := by
  have hacc : ∀ (found : Array Expr) first, Accounted (do
      let es ← expressionsBehind e (found.push first)
      expect .rparen
      return es) := fun found first =>
    ((expressionsBehind_local he _).bind (close_local .rparen)).accounted
  induction hn : before.tokens.length using Nat.strong_induction_on generalizing before found with
  | h n ih =>
    refine .bind (he _) (hacc found) (List.nil_append _).symm
      (hv.lowest.imp [⟨.rparen, ")"⟩] (by decide) ?_)
      fun hread first middle hfirst => ⟨_, hs.exchanges_lowest hread hfirst, ?_⟩
    · rintro tokens others ⟨r, h⟩
      exact ⟨_, .last h rfl⟩
    · have hle := (hfirst.suffix (he _).accounted).length_le
      rw [expressionsBehind_eq fun level => (he level).accounted, bind_assoc]
      refine .upcoming ?_
      split
      · rename_i hcomma
        have hfull : 2 ≤ middle.tokens.length := Cursor.full_of_upcoming hcomma (by decide)
        have hlen := length_advance middle
        have hlen' := length_advance middle.advance
        simp only [bind_assoc]
        refine .skip hcomma (by decide) (.advance ((ih _ (by omega) _ rfl).mono ?_))
        rintro tokens others ⟨es, hes⟩ comma hc start ⟨r, h⟩
        exact ⟨_, .more h hc hes⟩
      · rw [pure_bind]
        refine .close ⟨.rparen, ")"⟩ (by decide) ?_
        rintro others start ⟨r, h⟩
        exact ⟨_, .last h rfl⟩

theorem viable_expressionList :
    Viable (before.tokens.take 1) (expressionList e .rparen).run before SomeArguments := by
  rw [expressionList_eq]
  refine .upcoming ?_
  split
  · exact .advance .pure
  · refine .advance ((viable_expressions he hs hv #[]).mono ?_)
    rintro _ _ ⟨_, h⟩
    exact ⟨_, .some h⟩

end Arguments

section Readers

variable (he : ∀ level, LocalParses (e level)) (hv : Completes e)

include he hv

/-- A `let` can be completed where its name, its sign or its value fails. -/
theorem viable_letStatement (hk : before.current.kind = .letKw) :
    Viable [] (letStatement e).run before SomeStmt := by
  refine .behind hk (by decide) (.current ?_)
  refine .expect_token (by decide) [⟨.ident, "x"⟩, ⟨.assign, "="⟩, ⟨.ident, "x"⟩, ⟨.semicolon, ";"⟩]
    (by decide) ?_ fun _ => .identifier ?_
  · intro others word hw
    exact ⟨_, .define hw rfl rfl (IsExpr.ident rfl).loosest (.semicolon rfl)⟩
  refine .expect_token (by decide) [⟨.assign, "="⟩, ⟨.ident, "x"⟩, ⟨.semicolon, ";"⟩] (by decide) ?_
    fun _ => .advance ?_
  · intro others name hn word hw
    exact ⟨_, .define hw hn rfl (IsExpr.ident rfl).loosest (.semicolon rfl)⟩
  refine .map (he _).accounted.terminated (hv.terminated.mono ?_)
  rintro tokens others ⟨behind, ⟨r, h⟩, hend⟩ equals hq name hn word hw
  exact ⟨_, .define hw hn hq h hend⟩

/-- A `return` can be completed where its operand fails. -/
theorem viable_returnStatement (hk : before.current.kind = .returnKw) :
    Viable [] (returnStatement e).run before SomeStmt := by
  refine .behind hk (by decide) (.current (.upcoming ?_))
  split
  · exact .advance .pure
  · exact .pure
  · exact .pure
  · refine .advance (.map (he _).accounted.terminated (hv.terminated.mono ?_))
    rintro tokens others ⟨behind, ⟨r, h⟩, hend⟩ word hw
    exact ⟨_, .ret hw h hend⟩

theorem viable_statement : Viable [] (statement e).run before SomeStmt := by
  refine .current ?_
  split
  all_goals rename_i hk
  · exact viable_letStatement he hv hk
  · exact viable_returnStatement he hv hk
  · refine .current (.map (he _).accounted.terminated (hv.terminated.mono ?_))
    exact fun _ _ h => h.someStmt

end Readers

/-- Statements that end the input or a block, in the place of those from the cursor on. They start
like those, or there are none of them. -/
def Continues (start tokens rest : List Token) : Prop :=
  rest = [] ∨ nextKind rest = .rbrace → Replaces start tokens ∧ SomeStmts tokens rest

/-- A statement that fails is completed by itself, or not at all. -/
theorem viable_attempted (h : Viable [] (statement e).run before SomeStmt) :
    Viable [] (statement e).run before (Continues before.tokens) := by
  refine ⟨fun hread d hd => ?_⟩
  obtain ⟨used, rest, front, hfault, hused, hfront, h⟩ := h.repair hread hd
  cases used with
  -- nothing was used: the statements end here, and need no statement at all
  | nil =>
    refine ⟨[], rest, [], hfault, List.nil_prefix, by simp, fun others ho => ?_⟩
    exact ⟨ho.imp_right .inl, _, .nil⟩
  | cons token used =>
    refine ⟨token :: used, rest, front, hfault, hused, hfront, fun others ho => ?_⟩
    obtain ⟨more, rfl⟩ := hused
    obtain ⟨_, h⟩ := h others
    have htokens : before.tokens = token :: (used ++ rest) := hfault.tokens
    rw [htokens]
    exact ⟨.inr (.inr ⟨List.cons_ne_nil _ _, rfl⟩), _, .cons h .nil⟩

/-- What a statement used can be followed by other statements that start like those behind it. -/
theorem IsStmt.exchanges_continues {tokens rest : List Token} {s : Stmt}
    (h : IsStmt tokens rest s) (hlt : rest.length < tokens.length) :
    Exchanges Anything (fun start between =>
      Replaces tokens start ∧ (Replaces rest between → SomeStmt start between)) tokens rest := by
  obtain ⟨used, n, rfl, hn, h⟩ := h.exchanges
  refine ⟨used, n, rfl, hn, fun others _ => ⟨?_, h others⟩⟩
  cases used with
  | nil => exact absurd hlt (Nat.lt_irrefl _)
  | cons token used => exact .inr (.inr ⟨List.cons_ne_nil _ _, rfl⟩)

/-- One round of the loop over statements, among readers that may give up. -/
theorem lift_statements_eq (he : ∀ level, Accounted (e level)) (ends : Token.Kind → Bool)
    (kept : Array Stmt) :
    (liftM (statements ends e kept) : ParseM (List Stmt)) = (do
      let token ← current
      if token.kind = .eof ∨ ends token.kind then return kept.toList
      else do
        let result ← liftM (statement e).run
        advance
        statements ends e (kept ++ result.toArray)) := by
  rw [statements_eq he, liftM_bind]
  congr 1
  funext token
  dsimp only
  split
  · rfl
  · simp only [liftM_bind]

section Blocks

variable (he : ∀ level, LocalParses (e level)) (hs : SoundReader e) (hv : Completes e)

include he hs hv

/-- Statements can be completed where one of them fails: by the rest of this one, and by none behind
it. -/
theorem viable_statements {ends : Token.Kind → Bool} {kept : Array Stmt} :
    Viable [] (liftM (statements ends e kept) : ParseM (List Stmt)).run before
      (Continues before.tokens) := by
  have hacc := fun level => (he level).accounted
  have hstmt := composedLocal.statement (f := e) he
  -- one round of the loop: what stands behind a statement is shorter, whatever is dropped
  induction hn : before.tokens.length using Nat.strong_induction_on generalizing before kept with
  | h n ih =>
    rw [lift_statements_eq hacc]
    refine .current ?_
    split
    · exact .pure
    · rename_i hend
      have htail : ∀ result, Accounted (do
          advance
          liftM (statements ends e (kept ++ Option.toArray result)) : ParseM (List Stmt)) :=
        fun result => (LocalParses.lift (.advance)).bind
          (fun _ => .lift (statements_local he ends _)) |>.accounted
      refine .bind (LocalParses.lift (.attempted hstmt)) htail (List.nil_append _).symm
        (viable_attempted (viable_statement he hv)).lift fun hread result middle hresult => ?_
      obtain ⟨s, rfl, haccepts⟩ := (clean_run_iff hstmt.accounted).mp (accepts_lift.mp hresult)
      have hc : before.current.kind ≠ .eof := fun hk => hend (.inl hk)
      have hs := isStmt_of_accepts hacc hs hc (.of_readable hread) haccepts
      have hlt : middle.advance.tokens.length < before.tokens.length := by
        have hle := (haccepts.suffix hstmt.accounted).length_le
        have hlen := length_advance middle
        have hfirst := length_advance_lt hc
        omega
      refine ⟨_, hs.exchanges_continues hlt, .advance ((ih _ (by omega) rfl).mono ?_)⟩
      rintro tokens others hmore start ⟨hstart, hfirst⟩ ho
      obtain ⟨hreplaces, _, hss⟩ := hmore ho
      obtain ⟨_, hs⟩ := hfirst hreplaces
      exact ⟨hstart, _, .cons hs hss⟩

/-- A block can be completed where one of its statements fails. -/
theorem viable_block (hk : before.current.kind = .lbrace) :
    Viable [] (liftM (block e) : ParseM Block).run before SomeBlock := by
  have hlift : (liftM (block e) : ParseM Block) = (do
      let token ← current
      advance
      let ss ← statements (· == .rbrace) e #[]
      return .mk token ss) := by
    simp only [block_eq, liftM_bind]
    rfl
  rw [hlift]
  refine .behind hk (by decide) (.current (.advance ?_))
  refine .map (LocalParses.lift (statements_local he _ _)).accounted
    ((viable_statements he hs hv).imp [⟨.rbrace, "\x7d"⟩] (by decide) ?_)
  intro tokens others hmore opening hopening
  obtain ⟨-, _, hss⟩ := hmore (.inr rfl)
  exact ⟨_, .closed hopening hss rfl⟩

end Blocks

/-- The shortest block. -/
def emptyBlock : List Token := [⟨.lbrace, "\x7b"⟩, ⟨.rbrace, "\x7d"⟩]

/-- Two braces are a block. -/
theorem someBlock_empty (rest : List Token) : SomeBlock (emptyBlock ++ rest) rest :=
  ⟨_, .closed rfl .nil rfl⟩

/-- The second branch of a choice, behind the first one, if there is one. -/
def SecondBranch (tokens rest : List Token) : Prop :=
  tokens = rest ∨ ∃ (other : Token) (behind : List Token), other.kind = .elseKw ∧
    tokens = other :: behind ∧ SomeBlock behind rest

/-- A choice, with a second branch or without one. -/
theorem SomeExpr.choice {word opening closing : Token} {tokens inner behind rest : List Token}
    (hw : word.kind = .ifKw) (ho : opening.kind = .lparen)
    (hcond : SomeExpr .equality tokens (closing :: inner)) (hc : closing.kind = .rparen)
    (hb : SomeBlock inner behind) (hd : SecondBranch behind rest) :
    SomeExpr .atom (word :: opening :: tokens) rest := by
  obtain ⟨condition, hcond⟩ := hcond
  obtain ⟨consequence, hb⟩ := hb
  obtain rfl | ⟨other, behind, he, rfl, alternative, hd⟩ := hd
  · exact ⟨_, .when hw ho hcond hc hb⟩
  · exact ⟨_, .choice hw ho hcond hc hb he hd⟩

/-- What follows the first branch of a choice. -/
def secondBranch (e : Int → ParseM Expr) (choice : Option Block → Expr) : ParseM Expr := do
  if (← upcoming).kind = .elseKw then
    advance
    expect .lbrace
    let alternative ← block e
    return choice (some alternative)
  else
    return choice none

/-- A choice, with its second branch set apart. -/
theorem ifExpression_eq : ifExpression e = (do
    let token ← current
    expect .lparen
    advance
    let condition ← e Precedence.lowest
    expect .rparen
    expect .lbrace
    let consequence ← block e
    secondBranch e (.cond token condition consequence)) := rfl

/-- Whether there is a second branch is seen in the upcoming token. -/
theorem secondBranch_local (he : ∀ level, LocalParses (e level)) (choice : Option Block → Expr) :
    LocalParses (secondBranch e choice) := by
  refine (LocalParses.lift upcoming_local).bind fun token => ?_
  split
  · refine (LocalParses.lift .advance).bind fun _ =>
      (composedLocal.expect .lbrace).bind fun _ => ?_
    exact (LocalParses.lift (block_local he)).bind fun _ => composedLocal.pure_parses _
  · exact composedLocal.pure_parses _

/-- A number that is too large can be exchanged for a name. -/
theorem viable_integerLiteral (hk : before.current.kind = .int) :
    Viable [] integerLiteral.run before (SomeExpr .atom) := by
  refine .current ?_
  split
  · exact .of_not fun _ h => finds_stop (finds_lift.mp h)
  · split
    · exact .of_not fun _ h => finds_stop (finds_lift.mp h)
    · dsimp only
      split
      · exact .reject hk.symm [⟨.ident, "x"⟩] (by decide) fun others => ⟨_, .ident rfl⟩
      · exact .pure

section Operands

variable (he : ∀ level, LocalParses (e level)) (hs : SoundReader e) (hv : Completes e)

include he hv

/-- An operator before its operand can be completed where the operand fails. -/
theorem viable_unaryExpression (hk : before.current.kind = .bang ∨ before.current.kind = .minus) :
    Viable [] (unaryExpression e).run before (SomeExpr .unary) := by
  have hne : before.current.kind ≠ .eof := by rcases hk with hk | hk <;> rw [hk] <;> decide
  refine .behind rfl hne (.current (.advance ?_))
  refine .map (he _).accounted ((hv (by decide)).mono ?_)
  rintro tokens others ⟨s, hr, h⟩ op hop
  have hunary : Stratum.unary.rank = Precedence.unary := rfl
  obtain ⟨r, h⟩ := h.of_rank_le (s := .unary) (by omega)
  exact ⟨_, .unary (hop ▸ hk) h⟩

include hs

/-- An expression in parentheses can be completed where it fails or where the closing one is
missing. -/
theorem viable_groupedExpression (hk : before.current.kind = .lparen) :
    Viable [] (groupedExpression e).run before (SomeExpr .atom) := by
  refine .behind hk (by decide) (.advance ?_)
  refine .bind (he _) (fun r => (close_local .rparen r).accounted) (List.nil_append _).symm
    (hv.lowest.imp [⟨.rparen, ")"⟩] (by decide) ?_) fun hread r middle hinner => ?_
  · rintro tokens others ⟨r, h⟩ opening ho
    exact ⟨_, .group ho h rfl⟩
  · refine ⟨_, hs.exchanges_lowest hread hinner, .close ⟨.rparen, ")"⟩ (by decide) ?_⟩
    rintro others start ⟨r, h⟩ opening ho
    exact ⟨_, .group ho h rfl⟩

/-- A block and its opening brace, at the end of an operand. -/
theorem viable_body {g : Block → Expr} :
    Viable (before.tokens.take 1) (do expect .lbrace; let b ← block e; return g b).run before
      SomeBlock := by
  refine .expect emptyBlock (by decide) someBlock_empty fun hbrace => ?_
  rw [← Cursor.current_advance] at hbrace
  exact .map (LocalParses.lift (block_local he)).accounted (viable_block he hs hv hbrace)

/-- A second branch can be completed where it fails. -/
theorem viable_secondBranch {choice : Option Block → Expr} :
    Viable (before.tokens.take 1) (secondBranch e choice).run before SecondBranch := by
  refine .upcoming ?_
  split
  · rename_i helse
    refine .skip helse (by decide) ((viable_body he hs hv).mono ?_)
    exact fun tokens others h other ho => .inr ⟨other, tokens, ho, rfl, h⟩
  · exact .pure

theorem viable_ifExpression (hk : before.current.kind = .ifKw) :
    Viable [] (ifExpression e).run before (SomeExpr .atom) := by
  have hsecond : ∀ choice : Block → Option Block → Expr, LocalParses (do
      let consequence ← block e
      secondBranch e (choice consequence)) := fun choice =>
    (LocalParses.lift (block_local he)).bind fun _ => secondBranch_local he _
  have hbranches : ∀ choice : Block → Option Block → Expr, LocalParses (do
      expect .rparen
      expect .lbrace
      let consequence ← block e
      secondBranch e (choice consequence)) := fun choice =>
    (composedLocal.expect .rparen).bind fun _ =>
      (composedLocal.expect .lbrace).bind fun _ => hsecond choice
  have hcondition : ∀ others : List Token,
      SomeExpr .equality (⟨.ident, "x"⟩ :: ⟨.rparen, ")"⟩ :: others) (⟨.rparen, ")"⟩ :: others) :=
    fun others => ⟨_, (IsExpr.ident rfl).loosest⟩
  rw [ifExpression_eq]
  refine .behind hk (by decide) (.current ?_)
  refine .expect_token (by decide) (⟨.lparen, "("⟩ :: ⟨.ident, "x"⟩ :: ⟨.rparen, ")"⟩ :: emptyBlock)
    (by decide) ?_ fun _ => .advance ?_
  · intro others word hw
    exact .choice hw rfl (hcondition _) rfl (someBlock_empty _) (.inl rfl)
  refine .bind (he _) (fun _ => (hbranches _).accounted) (List.nil_append _).symm
    (hv.lowest.imp (⟨.rparen, ")"⟩ :: emptyBlock) (by decide) ?_)
    fun hread condition middle hcond => ⟨_, hs.exchanges_lowest hread hcond, ?_⟩
  · intro tokens others h opening ho word hw
    exact .choice hw ho h rfl (someBlock_empty _) (.inl rfl)
  refine .expect_token (by decide) (⟨.rparen, ")"⟩ :: emptyBlock) (by decide) ?_
    fun _ => .expect emptyBlock (by decide) ?_ fun hbrace => ?_
  · intro others start h opening ho word hw
    exact .choice hw ho h rfl (someBlock_empty _) (.inl rfl)
  · intro others closing hc start h opening ho word hw
    exact .choice hw ho h hc (someBlock_empty _) (.inl rfl)
  rw [← Cursor.current_advance] at hbrace
  refine .bind (LocalParses.lift (block_local he)) (fun _ => (secondBranch_local he _).accounted)
    (List.nil_append _).symm ((viable_block he hs hv hbrace).mono ?_)
    fun hread consequence last hblock => ?_
  · intro tokens others hb closing hc start h opening ho word hw
    exact .choice hw ho h hc hb (.inl rfl)
  · have hb := isBlock_of_clean (fun level => (he level).accounted) hs hbrace
      (.of_readable hread) (accepts_lift.mp hblock)
    refine ⟨SomeBlock, hb.exchanges, (viable_secondBranch he hs hv).mono ?_⟩
    intro tokens others hd between hb closing hc start h opening ho word hw
    exact .choice hw ho h hc hb hd

theorem viable_functionLiteral (hk : before.current.kind = .fnKw) :
    Viable [] (functionLiteral e).run before (SomeExpr .atom) := by
  have hbody : ∀ (token : Token) (ps : List Ident), LocalParses (do
      expect .lbrace
      let body ← block e
      return (.fn token ps body : Expr)) := fun token ps =>
    (composedLocal.expect .lbrace).bind fun _ =>
      (LocalParses.lift (block_local he)).bind fun _ => composedLocal.pure_parses _
  refine .behind hk (by decide) (.current ?_)
  refine .expect_token (by decide) (⟨.lparen, "("⟩ :: ⟨.rparen, ")"⟩ :: emptyBlock)
    (by decide) ?_ fun _ => ?_
  · intro others word hw
    exact ⟨_, .fn hw rfl (.none rfl) (.closed rfl .nil rfl)⟩
  -- the opening parenthesis is used, and what is derived are the tokens behind it
  refine .bind functionParameters_local (fun ps => (hbody _ ps).accounted)
    (take_one_append_advance _).symm
    (viable_functionParameters.imp emptyBlock (by decide) ?_)
    fun hread ps middle hps => ?_
  · rintro tokens others ⟨ps, hps⟩ opening ho word hw
    exact ⟨_, .fn hw ho hps (.closed rfl .nil rfl)⟩
  · refine ⟨_, (areParameters_of_accepts hps).exchanges, (viable_body he hs hv).mono ?_⟩
    rintro tokens others ⟨b, hb⟩ start ⟨ps, hps⟩ opening ho word hw
    exact ⟨_, .fn hw ho hps hb⟩

/-- An operand of any kind can be completed where it fails. -/
theorem viable_operand : Viable [] (operand e).run before fun tokens rest =>
    ∃ s : Stratum, Precedence.unary ≤ s.rank ∧ SomeExpr s tokens rest := by
  have hatom : ∀ tokens others, SomeExpr .atom tokens others →
      ∃ s : Stratum, Precedence.unary ≤ s.rank ∧ SomeExpr s tokens others :=
    fun _ _ h => ⟨.atom, by decide, h⟩
  have hunary : ∀ tokens others, SomeExpr .unary tokens others →
      ∃ s : Stratum, Precedence.unary ≤ s.rank ∧ SomeExpr s tokens others :=
    fun _ _ h => ⟨.unary, Int.le_refl _, h⟩
  refine .current ?_
  split
  all_goals rename_i hk
  · exact .identifier .pure
  · exact (viable_integerLiteral hk).mono hatom
  · exact .current (f := fun token => pure (Expr.bool token (token.kind == .trueKw))) .pure
  · exact .current (f := fun token => pure (Expr.bool token (token.kind == .trueKw))) .pure
  · exact (viable_unaryExpression he hv (.inl hk)).mono hunary
  · exact (viable_unaryExpression he hv (.inr hk)).mono hunary
  · exact (viable_groupedExpression he hs hv hk).mono hatom
  · exact (viable_ifExpression he hs hv hk).mono hatom
  · exact (viable_functionLiteral he hs hv hk).mono hatom
  · exact .reject rfl [⟨.ident, "x"⟩] (by decide) fun others => hatom _ _ ⟨_, .ident rfl⟩

end Operands

/-- An expression of a stratum goes on to one of another stratum, of which more is known. -/
def Grows (s : Stratum) (known : Stratum → Prop) : List Token → List Token → Prop :=
  After (SomeExpr s) fun tokens rest => ∃ t, known t ∧ SomeExpr t tokens rest

/-- The end of the input continues no expression. -/
theorem ne_eof_of_continuing {kind : Token.Kind} (h : kind ∈ continuing) : kind ≠ .eof := by
  rintro rfl
  exact absurd h (by decide)

/-- The operators of every precedence have a stratum. -/
theorem exists_rank {kind : Token.Kind} (h : kind ∈ continuing) :
    ∃ t : Stratum, t.rank = kind.precedence := by
  by_cases hp : kind = .lparen
  · exact ⟨.call, by rw [hp]; rfl⟩
  · obtain ⟨t, -, ht, -⟩ := exists_stratum h hp
    exact ⟨t, ht⟩

/-- A call makes an operand of the expression before it. -/
theorem grows_call {s : Stratum} {kind : Token.Kind} {tokens rest : List Token}
    (hp : kind = .lparen) (hle : kind.precedence ≤ s.rank) (h : SomeArguments tokens rest) :
    Behind kind (Grows s fun t => t.rank = kind.precedence) tokens rest := by
  rintro opening rfl start hstart
  have hrank : Stratum.call.rank = opening.kind.precedence := by rw [hp]; rfl
  obtain ⟨arguments, h⟩ := h
  obtain ⟨f, hf⟩ := hstart.of_rank_le (s := .call) (by omega)
  exact ⟨.call, hrank, _, .call hf hp h⟩

/-- An operator with its right operand makes an expression of its own stratum. -/
theorem grows_binary {s u : Stratum} {kind : Token.Kind} {tokens rest : List Token}
    (hk : kind ∈ continuing) (hp : kind ≠ .lparen) (hle : kind.precedence ≤ s.rank)
    (hu : kind.precedence < u.rank ∨ Precedence.unary ≤ u.rank) (h : SomeExpr u tokens rest) :
    Behind kind (Grows s fun t => t.rank = kind.precedence) tokens rest := by
  rintro op rfl start hstart
  obtain ⟨t, hop, hrank, htop⟩ := exists_stratum hk hp
  have hu8 := u.rank_le
  have htight : t.tighter.rank = t.rank + 1 := Stratum.rank_tighter (by omega)
  obtain ⟨b, hb⟩ := h.of_rank_le (s := t.tighter) (by omega)
  obtain ⟨a, ha⟩ := hstart.of_rank_le (s := t) (by omega)
  exact ⟨t, hrank, _, .binary hop ha hb⟩

section Operators

variable (he : ∀ level, LocalParses (e level)) (hs : SoundReader e) (hv : Completes e)

include he hs

/-- What an operator or a call used can be followed by anything, and what stands behind it does not
bind more tightly. -/
theorem exchanges_of_extend {s : Stratum} {left r : Expr}
    (hk : before.current.kind ∈ continuing) (hle : before.current.kind.precedence ≤ s.rank)
    (hread : ∀ token ∈ before.tokens, token.Readable)
    (h : Accepts (extend e left) before r middle) :
    Exchanges Anything (Grows s fun t => t.rank = before.current.kind.precedence)
      before.tokens middle.advance.tokens ∧
    Settled before.current.kind.precedence middle.advance.tokens := by
  have hacc := fun level => (he level).accounted
  have hu : Unended before.tokens := .of_readable hread
  rw [Cursor.tokens_eq rfl (ne_eof_of_continuing hk)]
  rw [accepts_extend hacc] at h
  split at h
  · rename_i hp
    obtain ⟨arguments, hargs, rfl⟩ := h
    have hexchanges := (areArguments_of_accepts hacc hs hu hargs).exchanges
    refine ⟨.cons rfl (hexchanges.mono fun _ _ => grows_call hp hle), fun hc => ?_⟩
    exact hp ▸ (precedence_of_continuing hc).2
  · rename_i hp
    obtain ⟨right, hright, rfl⟩ := h
    obtain ⟨u, hurank, hexpr, hset⟩ :=
      hs (Int.le_of_lt (precedence_of_continuing hk).1) hu.advance hright
    exact ⟨.cons rfl (hexpr.exchanges.mono fun _ _ => grows_binary hk hp hle hurank), hset⟩

include hv

/-- The continuation by an operator or a call can be completed where it fails. -/
theorem viable_extend {s : Stratum} {left : Expr} (hk : before.current.kind ∈ continuing)
    (hle : before.current.kind.precedence ≤ s.rank) :
    Viable [] (extend e left).run before
      (Grows s fun t => t.rank = before.current.kind.precedence) := by
  refine .behind rfl (ne_eof_of_continuing hk) (.current ?_)
  split
  · rename_i hp
    refine .current (.map (expressionList_local he _).accounted
      ((viable_expressionList he hs hv).mono ?_))
    exact fun _ _ => grows_call hp hle
  · rename_i hp
    refine .current (.advance (.map (he _).accounted
      ((hv (Int.le_of_lt (precedence_of_continuing hk).1)).mono ?_)))
    exact fun _ _ ⟨u, hurank, h⟩ => grows_binary hk hp hle hurank h

/-- So can the continuation by any number of them. -/
theorem viable_extended {level : Int} {s : Stratum} {left : Expr}
    (hrank : level < s.rank ∨ Precedence.unary ≤ s.rank)
    (hset : Settled s.rank before.advance.tokens) :
    Viable (before.tokens.take 1) (extended e level left).run before
      (Grows s fun t => level < t.rank ∨ Precedence.unary ≤ t.rank) := by
  have hacc := fun level => (he level).accounted
  induction hn : before.tokens.length using Nat.strong_induction_on
    generalizing before s left with
  | h n ih =>
    rw [extended_eq hacc]
    refine .upcoming ?_
    dsimp only
    split
    -- the operator binds more tightly than the level and less tightly than what stands before it,
    -- so that a derivation of the expression up to here can take it in
    · rename_i hgo
      have hk : before.advance.current.kind ∈ continuing := by
        rw [Cursor.current_advance, mem_continuing_iff]
        exact hgo.2.2
      have hle : before.advance.current.kind.precedence ≤ s.rank := by
        rw [Cursor.current_kind] at hk ⊢
        exact hset hk
      have hlevel : level < before.advance.current.kind.precedence := by
        rw [Cursor.current_advance]
        exact hgo.2.1
      refine .advance ?_
      refine .bind (extend_local he left) (fun r => (extended_local he level r).accounted)
        (List.nil_append _).symm ((viable_extend he hs hv hk hle).mono ?_)
        fun hread r middle hextend => ?_
      · intro tokens others h start hstart
        obtain ⟨t, ht, h⟩ := h start hstart
        exact ⟨t, .inl (ht ▸ hlevel), h⟩
      · obtain ⟨hexchanges, hset'⟩ := exchanges_of_extend he hs hk hle hread hextend
        obtain ⟨t, ht⟩ := exists_rank hk
        rw [← ht] at hset'
        refine ⟨_, hexchanges, (ih _ ?_ (.inl (ht ▸ hlevel)) hset' rfl).mono ?_⟩
        · have hle := (hextend.suffix (extend_local he left).accounted).length_le
          have hlen := length_advance before
          have hop := length_advance_lt (ne_eof_of_continuing hk)
          omega
        · intro tokens others h between hbetween start hstart
          obtain ⟨t', ht', hnext⟩ := hbetween start hstart
          obtain rfl : t' = t := Stratum.rank_injective (ht'.trans ht.symm)
          exact h start hnext
    · exact .pure

end Operators

/-- Expressions are completed as expressions of the level at which they are read. -/
theorem completes_expression (depth : Nat) : Completes (expression depth) := by
  induction depth with
  | zero => exact fun _ => .of_not fun _ h => finds_stop (finds_lift.mp h)
  | succ depth ih =>
    intro level before hlevel
    have he := expression_local depth
    have hs : SoundReader (expression depth) := soundReader_expression depth
    rw [expression_succ_eq]
    refine .bind (operand_local he) (fun left => (extended_local he level left).accounted)
      (List.nil_append _).symm ((viable_operand he hs ih).mono ?_) fun hread left middle hleft => ?_
    · exact fun tokens others ⟨s, hrank, h⟩ => ⟨s, .inr hrank, h⟩
    · obtain ⟨s, hrank, hexpr, hset⟩ := isExpr_of_operand (fun level => (he level).accounted) hs
        (.of_readable hread) hleft
      exact ⟨_, hexpr.exchanges, viable_extended he hs ih (.inr hrank) hset⟩

end Inkwell.Grammar
