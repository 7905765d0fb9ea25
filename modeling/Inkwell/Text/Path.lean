/-!
# The plain form of a path

A path is written with single slashes between its parts and without parts that stand for the place
where they occur. Exactly two slashes at the start are kept, more count as one, and a path without
parts is the current directory.
-/

namespace Inkwell.Text.Path

/-- The parts of a path that lead anywhere. -/
def parts (path : String) : List String :=
  (path.splitOn "/").filter fun part => part ≠ "" ∧ part ≠ "."

/-- The slashes that an absolute path starts with. -/
def root (path : String) : String :=
  match path.toList with
  | '/' :: '/' :: '/' :: _ => "/"
  | '/' :: '/' :: _ => "//"
  | '/' :: _ => "/"
  | _ => ""

/-- The plain form of a path. -/
def normalize (path : String) : String :=
  let plain := root path ++ "/".intercalate (parts path)
  if plain.isEmpty then "." else plain

end Inkwell.Text.Path
