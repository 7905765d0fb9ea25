import Inkwell.Text.Unprintable

/-!
# Quoted text

Text between quotes, in which every character is visible. Single quotes are used unless the text
holds a single quote and no double quote. The quote itself and the backslash are escaped by a
backslash, line feed, carriage return and tab have letters of their own, and any other character
without a visible form is written in lower-case hexadecimal with two, four or eight digits,
whichever suffices first.
-/

namespace Inkwell.Text.Quoted

/-- The hexadecimal digits of a number, padded with zeros on the left to the given width. -/
def hex (width number : Nat) : List Char :=
  let digits := Nat.toDigits 16 number
  List.replicate (width - digits.length) '0' ++ digits

/-- The written form of one character between the given quotes. -/
def escape (quote c : Char) : List Char :=
  if c = '\\' ∨ c = quote then ['\\', c]
  else if c = '\n' then ['\\', 'n']
  else if c = '\r' then ['\\', 'r']
  else if c = '\t' then ['\\', 't']
  else if isUnprintable c then
    if c.toNat < 0x100 then '\\' :: 'x' :: hex 2 c.toNat
    else if c.toNat < 0x10000 then '\\' :: 'u' :: hex 4 c.toNat
    else '\\' :: 'U' :: hex 8 c.toNat
  else [c]

/-- The quote that a text is written in. -/
def quoteFor (text : List Char) : Char :=
  if text.contains '\'' && !text.contains '"' then '"' else '\''

/-- The quoted form of a text. -/
def encode (text : String) : String :=
  let quote := quoteFor text.toList
  String.ofList (quote :: text.toList.flatMap (escape quote) ++ [quote])

end Inkwell.Text.Quoted
