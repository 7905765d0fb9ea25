import Inkwell.Token.Basic

/-!
# Cutting text into tokens

`Token.next?` skips blanks and cuts one token off the front of the text: the longest run of
letters, the longest run of digits, a symbol of two characters before one of a single character,
and any other character alone as an illegal token. Scanning therefore never fails; text that is
not part of the language shows up as illegal tokens for the reader to report. The end of the
input is not a member of the resulting list: it follows the list forever.
-/

namespace Inkwell.Token

/-- Blanks separate tokens and are otherwise ignored: space, tab, carriage return, line feed. -/
def isBlank (c : Char) : Bool := c == ' ' || c == '\t' || c == '\r' || c == '\n'

/-- Letters of names and keywords: the ASCII letters and the underscore. -/
def isLetter (c : Char) : Bool := c.isAlpha || c == '_'

/-- The token that starts with the symbol or stray character `c`, and the text behind it. -/
def symbol (c : Char) (rest : List Char) : Token × List Char :=
  match c, rest with
  | '=', '=' :: rest => (⟨.eq, "=="⟩, rest)
  | '!', '=' :: rest => (⟨.notEq, "!="⟩, rest)
  | c, rest => (⟨(Kind.ofSymbol? c).getD .illegal, String.singleton c⟩, rest)

/-- The first token of a text and the text behind it, or `none` if only blanks are left. -/
def next? (text : List Char) : Option (Token × List Char) :=
  match text.dropWhile isBlank with
  | [] => none
  | c :: rest =>
    if isLetter c then
      let word := String.ofList (c :: rest.takeWhile isLetter)
      some (⟨Kind.ofWord word, word⟩, rest.dropWhile isLetter)
    else if c.isDigit then
      some (⟨.int, String.ofList (c :: rest.takeWhile Char.isDigit)⟩, rest.dropWhile Char.isDigit)
    else some (symbol c rest)

/-- Dropping characters leaves no more than there were. -/
theorem length_dropWhile_le (p : Char → Bool) (text : List Char) :
    (text.dropWhile p).length ≤ text.length := by
  induction text with
  | nil => simp only [List.dropWhile_nil, Nat.le_refl]
  | cons c rest ih =>
    rw [List.dropWhile_cons]
    split
    · exact Nat.le_succ_of_le ih
    · exact Nat.le_refl _

/-- Scanning a symbol leaves no more than what follows its first character. -/
theorem length_symbol_le (c : Char) (rest : List Char) :
    (symbol c rest).2.length ≤ rest.length := by
  unfold symbol
  split <;> simp only [List.length_cons] <;> omega

/-- Every token takes at least one character, so cutting tokens off ends. -/
theorem length_next?_lt {text rest : List Char} {token : Token}
    (h : next? text = some (token, rest)) : rest.length < text.length := by
  have hblank := length_dropWhile_le isBlank text
  unfold next? at h
  split at h
  · contradiction
  · rename_i c tail htail
    rw [htail, List.length_cons] at hblank
    have hletter := length_dropWhile_le isLetter tail
    have hdigit := length_dropWhile_le Char.isDigit tail
    have hsymbol := length_symbol_le c tail
    split at h
    · simp only [Option.some.injEq, Prod.mk.injEq] at h
      obtain ⟨_, rfl⟩ := h
      omega
    · split at h
      · simp only [Option.some.injEq, Prod.mk.injEq] at h
        obtain ⟨_, rfl⟩ := h
        omega
      · simp only [Option.some.injEq] at h
        rw [h] at hsymbol
        simp only at hsymbol
        omega

/-- Appends the tokens of `text` to those already cut. -/
def scanOnto (found : Array Token) (text : List Char) : Array Token :=
  match _h : next? text with
  | none => found
  | some (token, rest) => scanOnto (found.push token) rest
termination_by text.length
decreasing_by exact length_next?_lt _h

/-- The tokens of a text, from first to last. -/
def scan (source : String) : List Token := (scanOnto #[] source.toList).toList

end Inkwell.Token
