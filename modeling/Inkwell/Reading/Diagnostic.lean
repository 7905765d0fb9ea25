import Inkwell.Limits
import Inkwell.Text.Quoted
import Inkwell.Token.Basic

/-!
# What reading a program can report

A diagnostic says why one statement was dropped; reading carries on behind it. A stop ends reading
altogether: the text nests too deeply, or an integer literal cannot be converted at all. A refusal
is either of them, seen by a caller who wants a program without diagnostics.
-/

namespace Inkwell

/-- Why a statement was dropped. -/
inductive Diagnostic where
  /-- The next token is not the one that the construct needs. -/
  | expected (wanted found : Token.Kind)
  /-- No expression starts with a token of this kind. -/
  | noOperand (found : Token.Kind)
  /-- The literal denotes a number above the largest integer of the language. -/
  | outOfRange (literal : String)
  deriving DecidableEq, Repr

/-- The text of a diagnostic. -/
def Diagnostic.message : Diagnostic → String
  | expected wanted found =>
    "expected next token to be " ++ wanted.display ++ ", but got " ++ found.display ++ " instead"
  | noOperand found => "no prefix parse function for " ++ found.display ++ " found"
  | outOfRange literal => "could not parse " ++ literal ++ " as integer"

/-- Why reading ended before the end of the text. -/
inductive Stop where
  /-- Expressions nest more deeply than the caller allows. -/
  | tooDeep
  /-- An integer literal has more digits than can be converted. -/
  | numeralTooLong (length : Nat)
  /-- A token was read as an integer literal whose text is no numeral. -/
  | notNumeral (literal : String)
  deriving DecidableEq, Repr

/-- The text of a stop. Nesting too deeply has none; the quoted text of a token that is no numeral
is cut after 200 characters. -/
def Stop.message? : Stop → Option String
  | tooDeep => none
  | numeralTooLong length => some <|
    "Exceeds the limit (" ++ toString maxNumeralLength ++
      " digits) for integer string conversion: value has " ++ toString length ++
      " digits; use sys.set_int_max_str_digits() to increase the limit"
  | notNumeral literal => some <|
    "invalid literal for int() with base 10: " ++
      String.ofList ((Text.Quoted.encode literal).toList.take 200)

/-- Why a text was not accepted as a program. -/
inductive Refusal where
  /-- Statements were dropped, for the reasons listed. -/
  | rejected (diagnostics : List Diagnostic)
  /-- Reading ended early. -/
  | stopped (cause : Stop)
  deriving DecidableEq, Repr

/-- The text of a list of diagnostics: their number and the messages in order. -/
def Diagnostic.summary (diagnostics : List Diagnostic) : String :=
  toString diagnostics.length ++ " parser error(s): " ++
    "; ".intercalate (diagnostics.map Diagnostic.message)

end Inkwell
