/-!
YAML text with the place of each character. A line break of two characters counts as one, and a
text that holds a character which YAML does not allow is no text of it.
-/

set_option autoImplicit false
set_option relaxedAutoImplicit false

namespace ContentImport.Yaml

/-- A character and its place: how many characters come before it in the text and in its line, and
how many lines come before its own. -/
structure Glyph where
  char : Char
  index : Nat
  line : Nat
  column : Nat
  deriving DecidableEq, Repr

def isBreak (c : Char) : Bool :=
  c = '\n' || c = '\r' || c = '\u0085' || c = '\u2028' || c = '\u2029'

def isBlank (c : Char) : Bool :=
  c = ' ' || c = '\t'

def isAllowed (c : Char) : Bool :=
  let n := c.toNat
  n = 0x9 || n = 0xA || n = 0xD || (0x20 ≤ n && n ≤ 0x7E) || n = 0x85 ||
    (0xA0 ≤ n && n ≤ 0xFFFD) || 0x10000 ≤ n

/-- The characters of names: letters, digits, low line and hyphen. -/
def isNameChar (c : Char) : Bool :=
  c.isAlphanum || c = '_' || c = '-'

/-- What a line break stands for in a value: the breaks of ASCII and the next-line character are all
one line feed. -/
def breakValue (c : Char) : Char :=
  if c = '\u2028' || c = '\u2029' then c else '\n'

def placeFrom (index line column : Nat) : List Char → List Glyph
  | [] => []
  | '\r' :: '\n' :: rest => ⟨'\n', index, line, column⟩ :: placeFrom (index + 2) (line + 1) 0 rest
  | c :: rest =>
    ⟨c, index, line, column⟩ ::
      if isBreak c then placeFrom (index + 1) (line + 1) 0 rest
      else placeFrom (index + 1) line (column + 1) rest

def place (s : List Char) : List Glyph :=
  placeFrom 0 0 0 s

/-- Whether glyphs begin with a blank, a line break or the end. -/
def atBlankOrEnd : List Glyph → Bool
  | [] => true
  | g :: _ => isBlank g.char || isBreak g.char

/-- Whether glyphs begin a line with three of a character and a blank. -/
def startsMarker (mark : Char) : List Glyph → Bool
  | a :: b :: c :: rest =>
    a.column = 0 && a.char = mark && b.char = mark && c.char = mark && atBlankOrEnd rest
  | _ => false

def startsDocumentMarker (gs : List Glyph) : Bool :=
  startsMarker '-' gs || startsMarker '.' gs

def startsWithOneOf (choices : List Char) : List Glyph → Bool
  | g :: _ => choices.contains g.char
  | [] => false

end ContentImport.Yaml
