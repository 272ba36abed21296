/-!
White space. Two classes are used: the four characters that separate words in markup, and the
white space of the Unicode character database, by which values are trimmed.
-/

set_option autoImplicit false
set_option relaxedAutoImplicit false

namespace ContentImport.Text

/-- The characters that separate words in markup: space, tab, line feed and carriage return. -/
def isMarkupBlank (c : Char) : Bool :=
  c = ' ' || c = '\t' || c = '\n' || c = '\r'

/-- The characters with the Unicode property White_Space. -/
def isSpace (c : Char) : Bool :=
  let n := c.toNat
  (0x9 ≤ n && n ≤ 0xD) || n = 0x20 || n = 0x85 || n = 0xA0 || n = 0x1680 ||
    (0x2000 ≤ n && n ≤ 0x200A) || n = 0x2028 || n = 0x2029 || n = 0x202F || n = 0x205F ||
    n = 0x3000

theorem isSpace_of_isMarkupBlank {c : Char} (blank : isMarkupBlank c = true) :
    isSpace c = true := by
  simp only [isMarkupBlank, Bool.or_eq_true, decide_eq_true_eq] at blank
  rcases blank with ((rfl | rfl) | rfl) | rfl <;> decide

def trimStartBy (drop : Char → Bool) (s : List Char) : List Char :=
  s.dropWhile drop

def trimEndBy (drop : Char → Bool) : List Char → List Char
  | [] => []
  | c :: s =>
    match trimEndBy drop s with
    | [] => if drop c then [] else [c]
    | kept => c :: kept

/-- Drop the leading and the trailing characters of a class. -/
def trimBy (drop : Char → Bool) (s : List Char) : List Char :=
  trimEndBy drop (trimStartBy drop s)

example : trimBy isSpace " a b\n".toList = ['a', ' ', 'b'] := by decide

theorem trimEndBy_append_kept (drop : Char → Bool) (s : List Char) (c : Char)
    (kept : drop c = false) : trimEndBy drop (s ++ [c]) = s ++ [c] := by
  induction s with
  | nil => simp [trimEndBy, kept]
  | cons d s ih =>
    simp only [List.cons_append, trimEndBy, ih]
    cases h : s ++ [c] with
    | nil => simp at h
    | cons e t => rfl

end ContentImport.Text
