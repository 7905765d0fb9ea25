/-!
# Limits

The bounds that the language sets to programs. The depth is a parameter of everything that recurses
on a program or a run; `maxDepth` is the value that the command line uses.
-/

namespace Inkwell

/-- How deeply expressions, scopes and calls may nest. -/
def maxDepth : Nat := 1000

/-- The longest numeral that is converted to a number, leading zeros included. -/
def maxNumeralLength : Nat := 4300

/-- The largest integer of the language: one less than two to the power of 63. -/
def maxInteger : Nat := 0x7fffffffffffffff

end Inkwell
