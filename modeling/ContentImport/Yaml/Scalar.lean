import ContentImport.Text.Digit
import ContentImport.Yaml.Glyph

/-!
YAML scalars: plain, quoted and block. Lines of a plain or a quoted scalar are folded: a single
break is a space, and of several breaks the first one is dropped.
-/

set_option autoImplicit false
set_option relaxedAutoImplicit false

namespace ContentImport.Yaml

/-- How a scalar is written, as far as its meaning depends on it. -/
inductive ScalarStyle where
  | plain
  | quoted
  | literal
  | folded
  deriving DecidableEq, Repr

/-- Blanks and breaks between the words of a scalar. -/
inductive Gap where
  /-- No gap. -/
  | none
  /-- Blanks within a line, in reverse. -/
  | blanks (read : List Char)
  /-- The first break, where it counts, and the breaks after it in reverse. -/
  | breaks (first : List Char) (more : List Char)
  deriving DecidableEq, Repr

namespace Gap

def text : Gap → List Char
  | .none => []
  | .blanks read => read.reverse
  | .breaks ['\n'] [] => [' ']
  | .breaks ['\n'] more => more.reverse
  | .breaks first more => first ++ more.reverse

def addBlank (gap : Gap) (c : Char) : Gap :=
  match gap with
  | .none => .blanks [c]
  | .blanks read => .blanks (c :: read)
  | .breaks first more => .breaks first more

def addBreak (gap : Gap) (c : Char) : Gap :=
  match gap with
  | .breaks first more => .breaks first (breakValue c :: more)
  | _ => .breaks [breakValue c] []

def hasBreak : Gap → Bool
  | .breaks _ _ => true
  | _ => false

end Gap

/-- What is being read of a quoted scalar. -/
inductive QuotedMode where
  | body (gap : Gap)
  | escape
  /-- A character by its number: how many digits are to come, and the number so far. -/
  | hex (owed : Nat) (value : Nat)
  deriving Repr

def simpleEscape? : Char → Option Char
  | '0' => some '\x00'
  | 'a' => some '\x07'
  | 'b' => some '\x08'
  | 't' => some '\t'
  | '\t' => some '\t'
  | 'n' => some '\n'
  | 'v' => some '\x0b'
  | 'f' => some '\x0c'
  | 'r' => some '\r'
  | 'e' => some '\x1b'
  | ' ' => some ' '
  | '"' => some '"'
  | '/' => some '/'
  | '\\' => some '\\'
  | 'N' => some '\u0085'
  | '_' => some '\u00A0'
  | 'L' => some '\u2028'
  | 'P' => some '\u2029'
  | _ => none

/-- How many digits follow the letter of an escape by number. -/
def hexEscapeLength? : Char → Option Nat
  | 'x' => some 2
  | 'u' => some 4
  | 'U' => some 8
  | _ => none

/-- Read a quoted scalar after its opening mark: its text, which stands in reverse while it is read,
and what follows its closing mark. -/
def readQuoted? (single : Bool) : QuotedMode → List Char → List Glyph →
    Option (List Char × List Glyph)
  | _, _, [] => none
  | .body gap, read, g :: rest =>
    let c := g.char
    if isBlank c then readQuoted? single (.body (gap.addBlank c)) read rest
    else if isBreak c then readQuoted? single (.body (gap.addBreak c)) read rest
    else if startsDocumentMarker (g :: rest) then none
    else
      let read := gap.text.reverse ++ read
      if single then
        if c = '\'' then
          match rest with
          | next :: after =>
            if next.char = '\'' then readQuoted? single (.body .none) ('\'' :: read) after
            else some (read.reverse, rest)
          | [] => some (read.reverse, rest)
        else readQuoted? single (.body .none) (c :: read) rest
      else if c = '"' then some (read.reverse, rest)
      else if c = '\\' then readQuoted? single .escape read rest
      else readQuoted? single (.body .none) (c :: read) rest
  | .escape, read, g :: rest =>
    if isBreak g.char then readQuoted? single (.body (.breaks [] [])) read rest
    else
      match simpleEscape? g.char, hexEscapeLength? g.char with
      | some c, _ => readQuoted? single (.body .none) (c :: read) rest
      | none, some owed => readQuoted? single (.hex owed 0) read rest
      | none, none => none
  | .hex owed value, read, g :: rest =>
    if Text.isHexDigit g.char then
      let value := value * 16 + Text.digitValue g.char
      if owed ≤ 1 then
        if value.isValidChar then
          readQuoted? single (.body .none) (Char.ofNat value :: read) rest
        else none
      else readQuoted? single (.hex (owed - 1) value) read rest
    else none

/-- A plain scalar and what follows it; and whether line breaks were passed at its end. -/
structure PlainScalar where
  text : List Char
  brokeLine : Bool
  rest : List Glyph

/-- The characters that structure flow collections. -/
def flowIndicators : List Char := [',', '[', ']', '\x7b', '\x7d']

/-- Read a plain scalar whose later lines have to be indented so far; its text stands in reverse
while it is read. -/
def readPlain? (inFlow : Bool) (indent : Int) (gap : Gap) (read : List Char) :
    List Glyph → Option PlainScalar
  | [] => some ⟨read.reverse, gap.hasBreak, []⟩
  | g :: rest =>
    let c := g.char
    let done : Option PlainScalar := some ⟨read.reverse, gap.hasBreak, g :: rest⟩
    if isBlank c then
      if gap.hasBreak && g.column < indent && c = '\t' then none
      else readPlain? inFlow indent (gap.addBlank c) read rest
    else if isBreak c then readPlain? inFlow indent (gap.addBreak c) read rest
    else if gap ≠ .none &&
        ((!inFlow && g.column < indent) || startsDocumentMarker (g :: rest) || c = '#') then done
    else if inFlow && c = ':' && startsWithOneOf ('?' :: flowIndicators) rest then none
    else if (c = ':' && atBlankOrEnd rest) || (inFlow && flowIndicators.contains c) then done
    else readPlain? inFlow indent .none (c :: (gap.text.reverse ++ read)) rest

/-- Empty lines of a block scalar: the deepest indentation in them, their breaks, and what follows
with the column it stands in. -/
structure BlockBreaks where
  deepest : Nat
  breaks : List Char
  column : Nat
  rest : List Glyph

/-- Read the indentation and the empty lines before a line of a block scalar, from a column on. An
indentation of zero is one that is still to be found. -/
def readBreaks? (indent : Nat) (deepest : Nat) (breaks : List Char) (column : Nat) :
    List Glyph → Option BlockBreaks
  | [] => some ⟨max deepest column, breaks.reverse, column, []⟩
  | g :: rest =>
    let within := indent = 0 || column < indent
    if within && g.char = ' ' then readBreaks? indent deepest breaks (column + 1) rest
    else
      let deepest := max deepest column
      if within && g.char = '\t' then none
      else if isBreak g.char then readBreaks? indent deepest (breakValue g.char :: breaks) 0 rest
      else some ⟨deepest, breaks.reverse, column, g :: rest⟩

/-- What happens to the breaks at the end of a block scalar. -/
inductive Chomping where
  | strip
  | clip
  | keep
  deriving DecidableEq, Repr

/-- The header of a block scalar: how its end is chomped, and how far it is indented beyond what is
around it, where that is said. -/
structure BlockHeader where
  chomping : Chomping
  increment : Option Nat

def readChomping : List Glyph → Chomping × List Glyph
  | g :: rest =>
    if g.char = '+' then (.keep, rest) else if g.char = '-' then (.strip, rest)
    else (.clip, g :: rest)
  | [] => (.clip, [])

/-- Read an indentation indicator, which cannot be zero. -/
def readIncrement? : List Glyph → Option (Option Nat × List Glyph)
  | g :: rest =>
    if g.char = '0' then none
    else if g.char.isDigit then some (some (Text.digitValue g.char), rest)
    else some (none, g :: rest)
  | [] => some (none, [])

/-- Read the indicators of a block scalar, in either order. -/
def readHeader? (gs : List Glyph) : Option (BlockHeader × List Glyph) := do
  match readChomping gs with
  | (.clip, _) =>
    let (increment, gs) ← readIncrement? gs
    match increment with
    | some n =>
      let (chomping, gs) := readChomping gs
      pure (⟨chomping, some n⟩, gs)
    | none => pure (⟨.clip, none⟩, gs)
  | (chomping, gs) =>
    let (increment, gs) ← readIncrement? gs
    pure (⟨chomping, increment⟩, gs)

/-- Drop the blanks and the comment that end a line, and its break; nothing else may be left. -/
def endLine? (gs : List Glyph) : Option (List Glyph) :=
  let gs := gs.dropWhile fun g => isBlank g.char
  let gs := if startsWithOneOf ['#'] gs then gs.dropWhile fun g => !isBreak g.char else gs
  match gs with
  | [] => some []
  | g :: rest => if isBreak g.char then some rest else none

/-- The lines of a block scalar that were read so far. -/
structure BlockLines where
  /-- The text, in reverse. -/
  read : List Char
  /-- The break of the line read last. -/
  lineBreak : List Char
  /-- The breaks of the empty lines after it. -/
  emptyBreaks : List Char
  /-- Whether the line read last begins with a blank. -/
  indented : Bool

def joinLines (literal : Bool) (lines : BlockLines) (nextIndented : Bool) : List Char :=
  if !literal && lines.lineBreak = ['\n'] && !lines.indented && !nextIndented then
    if lines.emptyBreaks.isEmpty then [' '] else lines.emptyBreaks
  else lines.lineBreak ++ lines.emptyBreaks

def readLines? (literal : Bool) (indent : Nat) :
    (fuel : Nat) → BlockLines → (column : Nat) → List Glyph → Option (BlockLines × List Glyph)
  | 0, lines, _, gs => some (lines, gs)
  | _ + 1, lines, _, [] => some (lines, [])
  | fuel + 1, lines, column, g :: rest =>
    if column = indent then
      let nextIndented := isBlank g.char
      let line := (g :: rest).takeWhile fun g => !isBreak g.char
      let after := (g :: rest).dropWhile fun g => !isBreak g.char
      let read := (line.map (·.char)).reverse ++
        ((joinLines literal lines nextIndented).reverse ++ lines.read)
      let (lineBreak, after) := match after with
        | b :: after => ([breakValue b.char], after)
        | [] => ([], [])
      match readBreaks? indent 0 [] 0 after with
      | none => none
      | some found =>
        readLines? literal indent fuel ⟨read, lineBreak, found.breaks, nextIndented⟩ found.column
          found.rest
    else some (lines, g :: rest)

/-- Read a block scalar after its first indicator, within an indentation. -/
def readBlock? (literal : Bool) (around : Int) (gs : List Glyph) :
    Option (List Char × List Glyph) := do
  let (header, gs) ← readHeader? gs
  let gs ← endLine? gs
  let least := (max (around + 1) 1).toNat
  let given := (header.increment.map fun n => (max around 0).toNat + n).getD 0
  let first ← readBreaks? given 0 [] 0 gs
  let indent := if given = 0 then max first.deepest least else given
  let start : BlockLines := ⟨[], [], first.breaks, false⟩
  let (lines, rest) ← readLines? literal indent (first.rest.length + 1) start first.column first.rest
  let tail := match header.chomping with
    | .strip => []
    | .clip => lines.lineBreak
    | .keep => lines.lineBreak ++ lines.emptyBreaks
  pure (lines.read.reverse ++ tail, rest)

end ContentImport.Yaml
