import Inkwell.Proofs.Token.Cutting
import Mathlib.Data.List.Chain

/-!
# The one way to cut a text into tokens

A text is a row of tokens with runs of blanks before, between and behind them. Which runs of
characters are tokens is said by `Lexeme`, and which two tokens cannot stand side by side without a
blank by `Fuses`. Every text is such a row in exactly one way, and its tokens are those that
scanning finds. So no character but blanks is lost, and no token could have been longer.
-/

namespace Inkwell.Token

/-- The symbols of the language. -/
def symbols : List Token :=
  [⟨.eq, "=="⟩, ⟨.notEq, "!="⟩, ⟨.assign, "="⟩, ⟨.plus, "+"⟩, ⟨.minus, "-"⟩, ⟨.bang, "!"⟩,
    ⟨.asterisk, "*"⟩, ⟨.slash, "/"⟩, ⟨.lt, "<"⟩, ⟨.gt, ">"⟩, ⟨.comma, ","⟩, ⟨.semicolon, ";"⟩,
    ⟨.lparen, "("⟩, ⟨.rparen, ")"⟩, ⟨.lbrace, "\x7b"⟩, ⟨.rbrace, "\x7d"⟩]

/-- A character that is no blank and no token of another sort can be made of. -/
structure IsStray (c : Char) : Prop where
  not_blank : isBlank c = false
  not_letter : isLetter c = false
  not_digit : c.isDigit = false
  not_symbol : ∀ token ∈ symbols, token.literal ≠ String.singleton c

/-- A token and the text that stands for it. -/
inductive Lexeme : Token → Prop
  /-- A run of letters is a keyword, or else a name. -/
  | word {text : String} : IsWord text → Lexeme ⟨Kind.ofWord text, text⟩
  | numeral {text : String} : IsNumeral text → Lexeme ⟨.int, text⟩
  | symbol {token : Token} : token ∈ symbols → Lexeme token
  /-- Any other character alone. -/
  | stray {c : Char} : IsStray c → Lexeme ⟨.illegal, String.singleton c⟩

/-- Two tokens that are cut in another way if no blank stands between them. -/
def Fuses (first second : Token) : Prop :=
  (IsWord first.literal ∧ IsWord second.literal) ∨
    (IsNumeral first.literal ∧ IsNumeral second.literal) ∨
    (first.literal = "=" ∨ first.literal = "!") ∧ second.literal.toList.head? = some '='

/-- A run of blanks, which may be empty. -/
def IsGap (gap : List Char) : Prop := ∀ c ∈ gap, isBlank c = true

/-- A text is a run of blanks, followed by tokens that each have a run of blanks behind them. Where
that run is empty, the token does not fuse with the next one. -/
structure IsCut (text front : List Char) (pieces : List (Token × List Char)) : Prop where
  text_eq : text = front ++ pieces.flatMap fun piece => piece.1.literal.toList ++ piece.2
  front_gap : IsGap front
  gaps : ∀ piece ∈ pieces, IsGap piece.2
  lexemes : ∀ piece ∈ pieces, piece.1.Lexeme
  apart : pieces.IsChain fun first second => first.2 = [] → ¬ Fuses first.1 second.1

/-- The token would be longer, or another one, with this character behind it. -/
def Extends (token : Token) (c : Char) : Prop :=
  (IsWord token.literal ∧ isLetter c = true) ∨ (IsNumeral token.literal ∧ c.isDigit = true) ∨
    (token.literal = "=" ∨ token.literal = "!") ∧ c = '='

/-- The text behind a token does not start with a character that extends it. -/
def Ends (token : Token) (rest : List Char) : Prop := ∀ c ∈ rest.head?, ¬ token.Extends c

variable {text rest : List Char} {token : Token} {c : Char}

/-- No token goes on with a blank. -/
theorem not_extends_of_blank (h : isBlank c = true) : ¬ token.Extends c := by
  rintro (⟨-, hc⟩ | ⟨-, hc⟩ | ⟨-, rfl⟩)
  · rw [isBlank_eq_false (.inl hc)] at h
    cases h
  · rw [isBlank_eq_false (.inr hc)] at h
    cases h
  · exact absurd h (by decide)

/-- No symbol starts with a letter or a digit. -/
theorem head_of_mem_symbols (h : token ∈ symbols) :
    ∃ c tail, token.literal.toList = c :: tail ∧ isLetter c = false ∧ c.isDigit = false := by
  have hall : ∀ token ∈ symbols, (token.literal.toList.head?.any fun c =>
      !isLetter c && !c.isDigit) = true := by decide
  have hhead := hall token h
  cases ht : token.literal.toList with
  | nil => rw [ht] at hhead; cases hhead
  | cons c tail =>
    rw [ht] at hhead
    simp only [List.head?_cons, Option.any_some, Bool.and_eq_true, Bool.not_eq_true'] at hhead
    exact ⟨c, tail, rfl, hhead⟩

/-- The first character of a token tells whether it is a word or a numeral. -/
theorem Lexeme.head (h : Lexeme token) :
    ∃ c tail, token.literal.toList = c :: tail ∧
      (IsWord token.literal ↔ isLetter c = true) ∧
      (IsNumeral token.literal ↔ c.isDigit = true) := by
  have hfirst : ∀ {text : String} {c : Char} {tail : List Char}, text.toList = c :: tail →
      c ∈ text.toList := fun ht => ht ▸ List.mem_cons_self
  -- a character that is neither letter nor digit starts neither a word nor a numeral
  have hneither : ∀ {c : Char} {tail : List Char}, token.literal.toList = c :: tail →
      isLetter c = false → c.isDigit = false →
      (IsWord token.literal ↔ isLetter c = true) ∧
        (IsNumeral token.literal ↔ c.isDigit = true) := by
    intro c tail ht hl hd
    rw [hl, hd]
    refine ⟨⟨fun hw => ?_, nofun⟩, ⟨fun hn => ?_, nofun⟩⟩
    · rw [← hl, hw.2 c (hfirst ht)]
    · rw [← hd, hn.2 c (hfirst ht)]
  cases h with
  | @word text hw =>
    obtain ⟨c, tail, ht⟩ := List.exists_cons_of_ne_nil hw.1
    have hl := hw.2 c (hfirst ht)
    refine ⟨c, tail, ht, iff_of_true hw hl, ⟨fun hn => hn.2 c (hfirst ht), fun hd => ?_⟩⟩
    rw [isLetter_eq_false hd] at hl
    cases hl
  | @numeral text hn =>
    obtain ⟨c, tail, ht⟩ := List.exists_cons_of_ne_nil hn.1
    have hd := hn.2 c (hfirst ht)
    refine ⟨c, tail, ht, ⟨fun hw => hw.2 c (hfirst ht), fun hl => ?_⟩, iff_of_true hn hd⟩
    rw [isLetter_eq_false hd] at hl
    cases hl
  | symbol hs =>
    obtain ⟨c, tail, ht, hl, hd⟩ := head_of_mem_symbols hs
    exact ⟨c, tail, ht, hneither ht hl hd⟩
  | @stray c hc =>
    have ht : (String.singleton c).toList = [c] := String.toList_singleton c
    exact ⟨c, [], ht, hneither ht hc.not_letter hc.not_digit⟩

/-- Two tokens fuse if the first is extended by the first character of the second. -/
theorem Lexeme.ends_append_iff (h : Lexeme token) {first : Token} :
    first.Ends (token.literal.toList ++ rest) ↔ ¬ Fuses first token := by
  obtain ⟨c, tail, ht, hw, hn⟩ := h.head
  have hiff : first.Extends c ↔ Fuses first token := by
    unfold Extends Fuses
    rw [ht, List.head?_cons, Option.some.injEq, hw, hn]
  rw [← hiff, Ends, ht]
  simp

/-- A character that is taken for a symbol stands in the table of symbols. -/
theorem mem_symbols_of_ofSymbol? {kind : Kind} (h : Kind.ofSymbol? c = some kind) :
    ⟨kind, String.singleton c⟩ ∈ symbols := by
  unfold Kind.ofSymbol? at h
  split at h <;> cases h <;> decide

/-- A character that stands in the table of symbols is taken for one. -/
theorem ofSymbol?_of_mem_symbols (h : token ∈ symbols)
    (hc : token.literal = String.singleton c) : Kind.ofSymbol? c ≠ none := by
  have hall : ∀ token ∈ symbols, token.literal.length = 1 →
      token.literal.toList.all (fun c => (Kind.ofSymbol? c).isSome) = true := by decide
  have hsome := hall token h (by rw [hc, String.length_singleton])
  rw [hc, String.toList_singleton, List.all_eq_true] at hsome
  exact Option.isSome_iff_ne_none.mp (hsome c List.mem_cons_self)

/-- A token is cut off where the text behind it does not extend it. -/
theorem next?_append (h : Lexeme token) (hend : token.Ends rest) :
    next? (token.literal.toList ++ rest) = some (token, rest) := by
  cases h with
  | word hw =>
    refine next?_run (fun _ _ => next?_letter) hw fun c hc => Bool.eq_false_iff.mpr fun hl => ?_
    exact hend c hc (.inl ⟨hw, hl⟩)
  | numeral hn =>
    refine @next?_run _ _ _ (fun _ => .int) (fun _ _ => next?_digit) hn fun c hc =>
      Bool.eq_false_iff.mpr fun hd => ?_
    exact hend c hc (.inr (.inl ⟨hn, hd⟩))
  | symbol hs =>
    have hequals : token.literal = "=" ∨ token.literal = "!" → rest.head? ≠ some '=' :=
      fun ht heq => hend '=' heq (.inr (.inr ⟨ht, rfl⟩))
    simp only [symbols, List.mem_cons, List.not_mem_nil, or_false] at hs
    rcases hs with rfl | rfl | rfl | rfl | rfl | rfl | rfl | rfl | rfl | rfl | rfl | rfl | rfl |
      rfl | rfl | rfl
    all_goals first
      | rfl
      | exact congrArg some (symbol_of_ne (hequals (.inl rfl)))
      | exact congrArg some (symbol_of_ne (hequals (.inr rfl)))
  | @stray c hc =>
    have hnone : Kind.ofSymbol? c = none := by
      refine Option.eq_none_iff_forall_ne_some.mpr fun kind hk => ?_
      exact hc.not_symbol _ (mem_symbols_of_ofSymbol? hk) rfl
    have hsymbol : symbol c rest = (⟨.illegal, String.singleton c⟩, rest) := by
      unfold symbol
      split
      · cases hnone
      · cases hnone
      · rw [hnone]
        rfl
    rw [String.toList_singleton, List.singleton_append]
    unfold next?
    rw [List.dropWhile_cons_of_neg (by rw [hc.not_blank]; nofun)]
    dsimp only
    rw [hc.not_letter, if_neg Bool.false_ne_true, hc.not_digit, if_neg Bool.false_ne_true, hsymbol]

/-- A gap in front is left out. -/
theorem tokensOf_gap {gap : List Char} (h : IsGap gap) :
    tokensOf (gap ++ rest) = tokensOf rest := by
  induction gap with
  | nil => rfl
  | cons c gap ih =>
    obtain ⟨hc, hgap⟩ := List.forall_mem_cons.mp h
    rw [List.cons_append, tokensOf_blank hc, ih hgap]

/-- The tokens of a cut are those that scanning finds. -/
theorem IsCut.tokensOf_eq {front : List Char} {pieces : List (Token × List Char)}
    (h : IsCut text front pieces) : tokensOf text = pieces.map Prod.fst := by
  induction pieces generalizing text front with
  | nil =>
    rw [h.text_eq, tokensOf_gap h.front_gap]
    exact tokensOf_nil
  | cons piece pieces ih =>
    obtain ⟨token, gap⟩ := piece
    have hgap : IsGap gap := h.gaps _ List.mem_cons_self
    have hrest : IsCut (gap ++ pieces.flatMap fun piece => piece.1.literal.toList ++ piece.2) gap
        pieces :=
      { text_eq := rfl
        front_gap := hgap
        gaps := fun piece hp => h.gaps piece (List.mem_cons_of_mem _ hp)
        lexemes := fun piece hp => h.lexemes piece (List.mem_cons_of_mem _ hp)
        apart := h.apart.tail }
    have hend : token.Ends
        (gap ++ pieces.flatMap fun piece => piece.1.literal.toList ++ piece.2) := by
      cases gap with
      | cons c gap =>
        intro d hd
        cases hd
        exact not_extends_of_blank (hgap _ List.mem_cons_self)
      | nil =>
        cases pieces with
        | nil => nofun
        | cons next pieces =>
          have hfuses : ¬ Fuses token next.1 := (List.isChain_cons_cons.mp h.apart).1 rfl
          rw [List.nil_append, List.flatMap_cons, List.append_assoc]
          exact (hrest.lexemes _ List.mem_cons_self).ends_append_iff.mpr hfuses
    rw [h.text_eq, tokensOf_gap h.front_gap, List.flatMap_cons, List.append_assoc,
      tokensOf_of_some (next?_append (h.lexemes _ List.mem_cons_self) hend), ih hrest,
      List.map_cons]

/-- A run of characters of one sort, as long as possible. -/
theorem exists_run {p : Char → Bool} (tail : List Char) (hc : p c = true) :
    ∃ text rest, c :: tail = String.toList text ++ rest ∧
      (text.toList ≠ [] ∧ ∀ d ∈ text.toList, p d = true) ∧ ∀ d ∈ rest.head?, p d = false := by
  refine ⟨String.ofList (c :: tail.takeWhile p), tail.dropWhile p, ?_, run_spec hc, fun d hd => ?_⟩
  · rw [String.toList_ofList, List.cons_append, List.takeWhile_append_dropWhile]
  · have hnot := List.head?_dropWhile_not p tail
    rw [hd] at hnot
    exact hnot

/-- No word is a numeral. -/
theorem IsWord.not_isNumeral {text : String} (h : IsWord text) : ¬ IsNumeral text := by
  intro hn
  obtain ⟨c, tail, ht⟩ := List.exists_cons_of_ne_nil h.1
  have hc : c ∈ text.toList := ht ▸ List.mem_cons_self
  have hl := h.2 c hc
  rw [isLetter_eq_false (hn.2 c hc)] at hl
  cases hl

/-- A symbol of two characters is not extended, and one of a single character only by an equals
sign. -/
theorem ends_of_symbol (hw : ¬ IsWord token.literal) (hn : ¬ IsNumeral token.literal)
    (h : token.literal = "=" ∨ token.literal = "!" → rest.head? ≠ some '=') : token.Ends rest := by
  rintro d hd (⟨hword, -⟩ | ⟨hnumeral, -⟩ | ⟨heq, rfl⟩)
  · exact hw hword
  · exact hn hnumeral
  · exact h heq hd

/-- A character that starts nothing is a stray one. -/
theorem isStray_of_ofSymbol? (hb : isBlank c = false) (hl : isLetter c = false)
    (hd : c.isDigit = false) (h : Kind.ofSymbol? c = none) : IsStray c :=
  ⟨hb, hl, hd, fun _ hs ht => ofSymbol?_of_mem_symbols hs ht h⟩

/-- A symbol or a stray character stands at the start of a text that starts with neither a blank
nor a letter nor a digit. -/
theorem exists_symbol {tail : List Char} (hb : isBlank c = false) (hl : isLetter c = false)
    (hd : c.isDigit = false) :
    ∃ token rest, c :: tail = token.literal.toList ++ rest ∧ Lexeme token ∧ token.Ends rest := by
  by_cases htwo : (c = '=' ∨ c = '!') ∧ tail.head? = some '='
  · obtain ⟨hc, hhead⟩ := htwo
    obtain ⟨rest, rfl⟩ := List.head?_eq_some_iff.mp hhead
    rcases hc with rfl | rfl
    · exact ⟨⟨.eq, "=="⟩, rest, rfl, .symbol (by decide),
        ends_of_symbol (by decide) (by decide) fun h => absurd h (by decide)⟩
    · exact ⟨⟨.notEq, "!="⟩, rest, rfl, .symbol (by decide),
        ends_of_symbol (by decide) (by decide) fun h => absurd h (by decide)⟩
  · have hlist : (String.singleton c).toList = [c] := String.toList_singleton c
    have hmem : c ∈ (String.singleton c).toList := by rw [hlist]; exact List.mem_singleton_self c
    have hw : ¬ IsWord (String.singleton c) := fun h => nomatch hl.symm.trans (h.2 c hmem)
    have hn : ¬ IsNumeral (String.singleton c) := fun h => nomatch hd.symm.trans (h.2 c hmem)
    have hequals : String.singleton c = "=" ∨ String.singleton c = "!" →
        tail.head? ≠ some '=' := by
      refine fun h hhead => htwo ⟨?_, hhead⟩
      rcases h with h | h <;> rw [h] at hmem
      · exact .inl (List.mem_singleton.mp hmem)
      · exact .inr (List.mem_singleton.mp hmem)
    have hsplit : c :: tail = (String.singleton c).toList ++ tail := by rw [hlist]; rfl
    cases hk : Kind.ofSymbol? c with
    | some kind =>
      exact ⟨⟨kind, String.singleton c⟩, tail, hsplit, .symbol (mem_symbols_of_ofSymbol? hk),
        ends_of_symbol hw hn hequals⟩
    | none =>
      exact ⟨⟨.illegal, String.singleton c⟩, tail, hsplit,
        .stray (isStray_of_ofSymbol? hb hl hd hk), ends_of_symbol hw hn hequals⟩

/-- Some token stands at the start of a text that does not start with a blank. -/
theorem exists_lexeme (tail : List Char) (hb : isBlank c = false) :
    ∃ token rest, c :: tail = token.literal.toList ++ rest ∧ Lexeme token ∧ token.Ends rest := by
  by_cases hl : isLetter c = true
  · obtain ⟨word, rest, hsplit, hw, hend⟩ := exists_run tail hl
    refine ⟨⟨Kind.ofWord word, word⟩, rest, hsplit, .word hw, ?_⟩
    rintro d hd (⟨-, hletter⟩ | ⟨hn, -⟩ | ⟨rfl | rfl, -⟩)
    · exact nomatch (hend d hd).symm.trans hletter
    · exact IsWord.not_isNumeral hw hn
    · exact absurd (hw.2 '=' List.mem_cons_self) (by decide)
    · exact absurd (hw.2 '!' List.mem_cons_self) (by decide)
  · by_cases hdigit : c.isDigit = true
    · obtain ⟨numeral, rest, hsplit, hn, hend⟩ := exists_run tail hdigit
      refine ⟨⟨.int, numeral⟩, rest, hsplit, .numeral hn, ?_⟩
      rintro d hd (⟨hw, -⟩ | ⟨-, hdigit⟩ | ⟨rfl | rfl, -⟩)
      · exact hw.not_isNumeral hn
      · exact nomatch (hend d hd).symm.trans hdigit
      · exact absurd (hn.2 '=' List.mem_cons_self) (by decide)
      · exact absurd (hn.2 '!' List.mem_cons_self) (by decide)
    · exact exists_symbol hb (Bool.eq_false_iff.mpr hl) (Bool.eq_false_iff.mpr hdigit)

/-- A cut is put together from a gap, a token that ends there, and the cut of the rest. -/
theorem IsCut.cons {gap front : List Char} {pieces : List (Token × List Char)} (hgap : IsGap gap)
    (h : Lexeme token) (hend : token.Ends rest) (hrest : IsCut rest front pieces) :
    IsCut (gap ++ (token.literal.toList ++ rest)) gap ((token, front) :: pieces) where
  text_eq := by rw [hrest.text_eq, List.flatMap_cons, List.append_assoc]
  front_gap := hgap
  gaps := List.forall_mem_cons.mpr ⟨hrest.front_gap, hrest.gaps⟩
  lexemes := List.forall_mem_cons.mpr ⟨h, hrest.lexemes⟩
  apart := by
    cases pieces with
    | nil => exact List.isChain_singleton _
    | cons next pieces =>
      refine List.isChain_cons_cons.mpr ⟨?_, hrest.apart⟩
      rintro rfl
      have hnext := hrest.lexemes next List.mem_cons_self
      rw [hrest.text_eq, List.nil_append, List.flatMap_cons, List.append_assoc] at hend
      exact hnext.ends_append_iff.mp hend

/-- Every text can be cut. -/
theorem exists_isCut (text : List Char) : ∃ front pieces, IsCut text front pieces := by
  induction hn : text.length using Nat.strongRecOn generalizing text with
  | ind n ih =>
    subst hn
    have hgap : IsGap (text.takeWhile isBlank) := fun c hc =>
      List.all_eq_true.mp List.all_takeWhile c hc
    have hsplit := List.takeWhile_append_dropWhile (p := isBlank) (l := text)
    have hblank := List.head?_dropWhile_not isBlank text
    cases hdrop : text.dropWhile isBlank with
    | nil =>
      rw [hdrop, List.append_nil] at hsplit
      exact ⟨text, [], by simp, hsplit ▸ hgap, nofun, nofun, List.isChain_nil⟩
    | cons c tail =>
      rw [hdrop] at hsplit hblank
      obtain ⟨token, rest, hcut, htoken, hend⟩ := exists_lexeme tail hblank
      obtain ⟨d, literal, hliteral, -⟩ := htoken.head
      rw [hcut] at hsplit
      have hlt : rest.length < text.length := by
        rw [← hsplit, List.length_append, List.length_append, hliteral, List.length_cons]
        omega
      obtain ⟨front, pieces, hrest⟩ := ih _ hlt rest rfl
      exact ⟨_, _, hsplit ▸ hrest.cons hgap htoken hend⟩

/-- Scanning finds the tokens of the only cut. -/
theorem tokensOf_eq_iff {text : List Char} {tokens : List Token} :
    tokensOf text = tokens ↔ ∃ front pieces, IsCut text front pieces ∧
      pieces.map Prod.fst = tokens := by
  constructor
  · rintro rfl
    obtain ⟨front, pieces, h⟩ := exists_isCut text
    exact ⟨front, pieces, h, h.tokensOf_eq.symm⟩
  · rintro ⟨front, pieces, h, rfl⟩
    exact h.tokensOf_eq

/-- The next token and the text behind it. Where only blanks are left, this is the end of the
input. -/
def pull (text : List Char) : Token × List Char := (next? text).getD (Token.eof, [])

/-- The token that is pulled after some others. -/
def pulled : Nat → List Char → Token
  | 0, text => (pull text).1
  | n + 1, text => pulled n (pull text).2

/-- Pulling gives the tokens that scanning finds, and then the end of the input forever. -/
theorem pulled_eq (n : Nat) (text : List Char) :
    pulled n text = ((tokensOf text)[n]?).getD Token.eof := by
  induction n generalizing text with
  | zero =>
    cases h : next? text with
    | none => rw [pulled, pull, h, tokensOf_of_none h]; rfl
    | some cut => rw [pulled, pull, h, tokensOf_of_some h]; rfl
  | succ n ih =>
    rw [pulled, ih, pull]
    cases h : next? text with
    | none =>
      rw [tokensOf_of_none h]
      exact congrArg (fun tokens => (tokens[n]?).getD Token.eof) tokensOf_nil
    | some cut => rw [tokensOf_of_some h]; rfl

/-- Tokens are known from what is pulled, up to the first end of the input. -/
theorem eq_of_getD_eq {found tokens : List Token} (hf : ∀ token ∈ found, token.kind ≠ .eof)
    (ht : ∀ token ∈ tokens, token.kind ≠ .eof)
    (h : ∀ n : Nat, (found[n]?).getD Token.eof = (tokens[n]?).getD Token.eof) :
    found = tokens := by
  refine List.ext_getElem? fun n => ?_
  have hn := h n
  cases hfound : found[n]? with
  | none =>
    cases htokens : tokens[n]? with
    | none => rfl
    | some token =>
      rw [hfound, htokens] at hn
      exact absurd (congrArg Token.kind hn).symm (ht token (List.mem_of_getElem? htokens))
  | some token =>
    cases htokens : tokens[n]? with
    | none =>
      rw [hfound, htokens] at hn
      exact absurd (congrArg Token.kind hn) (hf token (List.mem_of_getElem? hfound))
    | some other =>
      rw [hfound, htokens] at hn
      exact congrArg some hn

/-- A text can be cut into these tokens. -/
def Cuts (source : String) (tokens : List Token) : Prop :=
  ∃ front pieces, IsCut source.toList front pieces ∧ pieces.map Prod.fst = tokens

/-- Scanning a text gives the tokens into which it can be cut. Pulled one after the other, they are
followed by the end of the input, as often as it is asked for. -/
theorem lexed_iff_cuts {source : String} {tokens : List Token} :
    (scan source = tokens ↔ Cuts source tokens) ∧
      ((∀ token ∈ tokens, token.kind ≠ .eof) ∧
          (∀ n, pulled n source.toList = (tokens[n]?).getD Token.eof) ↔ Cuts source tokens) := by
  have hcuts : scan source = tokens ↔ Cuts source tokens := tokensOf_eq_iff
  have hscan : ∀ token ∈ scan source, token.kind ≠ .eof := fun _ h =>
    (spelled_of_mem_scan h).ne_eof
  refine ⟨hcuts, ?_⟩
  rw [← hcuts]
  constructor
  · rintro ⟨ht, h⟩
    exact eq_of_getD_eq hscan ht fun n => by rw [← h n, pulled_eq, scan_eq]
  · rintro rfl
    exact ⟨hscan, fun n => pulled_eq n source.toList⟩

end Inkwell.Token
