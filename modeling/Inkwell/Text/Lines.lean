/-!
# Lines of a text

A line ends at a line feed, at a carriage return, or at a carriage return followed by a line feed.
No other character ends a line. Text behind the last line end is a line of its own.
-/

namespace Inkwell.Text

/-- A text of which some characters were read. -/
structure LineSplit where
  /-- The lines that have ended. -/
  ended : Array String
  /-- The line being read. -/
  line : String
  /-- Whether the last character was a carriage return, which a line feed would belong to. -/
  afterReturn : Bool

/-- Reads one more character. -/
def LineSplit.read (split : LineSplit) (c : Char) : LineSplit :=
  if c = '\n' then
    if split.afterReturn then { split with afterReturn := false }
    else ⟨split.ended.push split.line, "", false⟩
  else if c = '\r' then ⟨split.ended.push split.line, "", true⟩
  else ⟨split.ended, split.line.push c, false⟩

/-- The lines of a text, without their ends. -/
def lines (text : String) : List String :=
  let split := text.toList.foldl LineSplit.read ⟨#[], "", false⟩
  if split.line.isEmpty then split.ended.toList else (split.ended.push split.line).toList

end Inkwell.Text
