/-!
# Decimal numerals

Reading and writing numbers in base ten. Writing uses the ASCII digits, a minus sign for negative
numbers and no leading zeros. Reading accepts the decimal digits of every script, leading zeros
included; nothing else may stand between, before or behind them.
-/

namespace Inkwell.Text.Decimal

/-- The code points of the digit zero in every script with decimal digits, in ascending order. The
digits one to nine follow their zero immediately. -/
def zeros : List Nat := [
  0x30, 0x660, 0x6f0, 0x7c0, 0x966, 0x9e6, 0xa66, 0xae6, 0xb66, 0xbe6, 0xc66, 0xce6, 0xd66,
  0xde6, 0xe50, 0xed0, 0xf20, 0x1040, 0x1090, 0x17e0, 0x1810, 0x1946, 0x19d0, 0x1a80, 0x1a90,
  0x1b50, 0x1bb0, 0x1c40, 0x1c50, 0xa620, 0xa8d0, 0xa900, 0xa9d0, 0xa9f0, 0xaa50, 0xabf0,
  0xff10, 0x104a0, 0x10d30, 0x11066, 0x110f0, 0x11136, 0x111d0, 0x112f0, 0x11450, 0x114d0,
  0x11650, 0x116c0, 0x11730, 0x118e0, 0x11950, 0x11c50, 0x11d50, 0x11da0, 0x16a60, 0x16ac0,
  0x16b50, 0x1d7ce, 0x1d7d8, 0x1d7e2, 0x1d7ec, 0x1d7f6, 0x1e140, 0x1e2f0, 0x1e950, 0x1fbf0]

/-- The value of a decimal digit. -/
def digit? (c : Char) : Option Nat :=
  zeros.findSome? fun first =>
    if first ≤ c.toNat ∧ c.toNat < first + 10 then some (c.toNat - first) else none

/-- The values of the digits of a numeral, or `none` if the text is not a nonempty run of decimal
digits. -/
def digits? : List Char → Option (List Nat)
  | [] => none
  | text => text.mapM digit?

/-- The number that a run of digits denotes, the most significant digit first. -/
def value (digits : List Nat) : Nat := digits.foldl (fun number digit => 10 * number + digit) 0

/-- The ASCII digit of a number below ten. -/
def digitChar (digit : Nat) : Char := Char.ofNat ('0'.toNat + digit)

/-- The numeral of a natural number, without leading zeros. -/
def ofNat (number : Nat) : List Char :=
  if number < 10 then [digitChar number]
  else ofNat (number / 10) ++ [digitChar (number % 10)]

/-- The text of an integer: its numeral, behind a minus sign if it is negative. -/
def ofInt : Int → String
  | .ofNat number => String.ofList (ofNat number)
  | .negSucc number => String.ofList ('-' :: ofNat (number + 1))

end Inkwell.Text.Decimal
