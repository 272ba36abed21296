/-!
Names in file paths. A path ends in a name unless its last component is a way up or there is none;
empty components and single points do not count as components.
-/

set_option autoImplicit false
set_option relaxedAutoImplicit false

namespace ContentImport.PathName

def parts : List Char → List (List Char)
  | [] => [[]]
  | c :: rest =>
    if c = '/' then [] :: parts rest
    else
      match parts rest with
      | [] => [[c]]
      | first :: others => (c :: first) :: others

def last? (path : String) : Option (List Char) :=
  (((parts path.toList).filter fun part => part ≠ [] && part ≠ ['.']).getLast?).filter
    (· ≠ ['.', '.'])

/-- What follows the last point of the name that a path ends in, unless the name begins with that
point. -/
def extension? (path : String) : Option (List Char) := do
  let name ← last? path
  let reversed := name.reverse
  let extension := reversed.takeWhile (· ≠ '.')
  match reversed.drop extension.length with
  | [] | [_] => none
  | _ => some extension.reverse

example : extension? "data/notes.v1.owl/." = some ['o', 'w', 'l'] := by decide +kernel
example : extension? "data/.owl" = none := by decide +kernel
example : extension? "notes.owl/.." = none := by decide +kernel

end ContentImport.PathName
