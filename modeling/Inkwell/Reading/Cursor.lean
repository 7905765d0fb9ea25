import Inkwell.Reading.Diagnostic

/-!
# The cursor of a reader

A reader looks at two tokens: the current one and the upcoming one. Its cursor holds the tokens
from the current one on; behind the last of them the end of the input repeats forever, so a cursor
can be advanced any number of times. Beside the tokens it keeps the diagnostics in the order of
their discovery.

A step that always succeeds is a `ReadM`; one that may give up the statement it belongs to is a
`ParseM`. Giving up keeps the cursor where it stands, and so does the stop at a numeral that cannot
be converted. A stop for want of depth ends reading for good: the limit that it stands for may be
hit in the middle of a move, so the cursor beside such a stop says nothing.
-/

namespace Inkwell

/-- Where a reader stands, and what it has found wrong so far. -/
structure Cursor where
  /-- The tokens from the current one on, without the end of the input. -/
  tokens : List Token
  /-- The diagnostics, from first to last. -/
  diagnostics : Array Diagnostic

namespace Cursor

/-- The cursor at the first of the given tokens. -/
def ofTokens (tokens : List Token) : Cursor := ⟨tokens, #[]⟩

/-- The token at the cursor. -/
def current (cursor : Cursor) : Token :=
  match cursor.tokens with
  | token :: _ => token
  | [] => Token.eof

/-- The token behind the one at the cursor. -/
def upcoming (cursor : Cursor) : Token :=
  match cursor.tokens with
  | _ :: token :: _ => token
  | _ => Token.eof

/-- Moves to the upcoming token. At the end of the input nothing changes. -/
def advance (cursor : Cursor) : Cursor := { cursor with tokens := cursor.tokens.tail }

/-- Adds a diagnostic behind the earlier ones. -/
def report (cursor : Cursor) (diagnostic : Diagnostic) : Cursor :=
  { cursor with diagnostics := cursor.diagnostics.push diagnostic }

end Cursor

/-- Steps of a reader that cannot be given up. -/
abbrev ReadM := EStateM Stop Cursor

/-- Steps of a reader that may give up the statement they belong to. -/
abbrev ParseM := OptionT ReadM

namespace Reading

/-- The token at the cursor. -/
def current : ReadM Token := return (← get).current

/-- The token behind the one at the cursor. -/
def upcoming : ReadM Token := return (← get).upcoming

/-- The tokens from the cursor on: an upper bound for the rounds of a loop whose every round
advances. -/
def remaining : ReadM (List Token) := return (← get).tokens

/-- Moves to the upcoming token. -/
def advance : ReadM Unit := modify Cursor.advance

/-- Gives up the statement that is being read, with a reason. -/
def reject {α : Type} (diagnostic : Diagnostic) : ParseM α := do
  modify fun cursor => cursor.report diagnostic
  failure

/-- Ends reading. -/
def stop {α : Type} (cause : Stop) : ReadM α := throw cause

/-- Moves to the upcoming token if it has the wanted kind, and gives up otherwise. -/
def expect (wanted : Token.Kind) : ParseM Unit := do
  let token ← upcoming
  if token.kind = wanted then advance
  else reject (.expected wanted token.kind)

/-- Moves to the upcoming token if it is a semicolon. -/
def skipSemicolon : ReadM Unit := do
  if (← upcoming).kind = .semicolon then advance

/-- Reads something and the semicolon behind it, if there is one. The semicolon is skipped also
when the reading was given up. -/
def terminated {α : Type} (reading : ParseM α) : ParseM α := OptionT.mk do
  let result ← reading.run
  skipSemicolon
  return result

end Reading

end Inkwell
