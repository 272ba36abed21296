import ContentImport.Yaml.Scalar

/-!
The tokens of YAML text. Blocks are found by indentation: a token that stands further to the left
ends the blocks in between. A key that no mark announces is known only at the colon behind it, so
the reading keeps where such a key may have begun and puts its tokens there afterwards.
-/

set_option autoImplicit false
set_option relaxedAutoImplicit false

namespace ContentImport.Yaml

/-- The tokens that YAML text is made of. -/
inductive Token where
  | version (major minor : Nat)
  | tagHandle (handle start : List Char)
  | documentStart
  | documentEnd
  | blockListStart
  | blockMappingStart
  | blockEnd
  | flowListStart
  | flowListEnd
  | flowMappingStart
  | flowMappingEnd
  | blockEntry
  | flowEntry
  | key
  | value
  | alias (name : List Char)
  | anchor (name : List Char)
  | tag (handle suffix : List Char)
  | scalar (text : List Char) (style : ScalarStyle)
  deriving DecidableEq, Repr

/-- A place where a key may have begun: how many tokens come before it, whether it has to be a key,
and its first character. -/
structure PossibleKey where
  position : Nat
  isRequired : Bool
  start : Glyph

/-- What was read of a text. -/
structure Scan where
  /-- The tokens, in reverse. -/
  tokens : List Token
  /-- Whether a key may begin here. -/
  keyAllowed : Bool
  /-- The key that may have begun in the innermost collection. -/
  possibleKey : Option PossibleKey
  /-- The same for the collections around the flow collections that are open. -/
  outerKeys : List (Option PossibleKey)
  /-- The columns of the blocks that are open, the innermost first. -/
  blocks : List Nat

namespace Scan

def start : Scan :=
  ⟨[], true, none, [], []⟩

def inFlow (scan : Scan) : Bool :=
  !scan.outerKeys.isEmpty

/-- The column of the innermost block, or one that is left of all. -/
def indent (scan : Scan) : Int :=
  match scan.blocks with
  | [] => -1
  | column :: _ => column

def push (scan : Scan) (token : Token) : Scan :=
  { scan with tokens := token :: scan.tokens }

/-- Put a token behind so many of those that were read. -/
def insert (scan : Scan) (position : Nat) (token : Token) : Scan :=
  let later := scan.tokens.take (scan.tokens.length - position)
  let earlier := scan.tokens.drop (scan.tokens.length - position)
  { scan with tokens := later ++ token :: earlier }

/-- Open a block at a column that is right of the innermost block, with its token at a position. -/
def openBlock (scan : Scan) (column position : Nat) (token : Token) : Scan :=
  if scan.inFlow || column ≤ scan.indent then scan
  else { scan.insert position token with blocks := column :: scan.blocks }

def endBlocks (scan : Scan) (column : Int) : Scan :=
  if scan.inFlow then scan
  else
    let ended := scan.blocks.takeWhile fun (c : Nat) => column < c
    { scan with
      tokens := List.replicate ended.length .blockEnd ++ scan.tokens
      blocks := scan.blocks.drop ended.length }

/-- Give up the key that may have begun, unless it has to be one. -/
def dropKey? (scan : Scan) : Option Scan :=
  match scan.possibleKey with
  | some ⟨_, true, _⟩ => none
  | _ => some { scan with possibleKey := none }

def noteKey? (scan : Scan) (g : Glyph) : Option Scan :=
  if scan.keyAllowed then do
    let isRequired := !scan.inFlow && scan.indent = g.column
    let scan ← scan.dropKey?
    some { scan with possibleKey := some ⟨scan.tokens.length, isRequired, g⟩ }
  else some scan

/-- A possible key seen from a character behind it: keys stand on one line and are not long. -/
def keepKey? (g : Glyph) : Option PossibleKey → Option (Option PossibleKey)
  | none => some none
  | some key =>
    if key.start.line < g.line || key.start.index + 1024 < g.index then
      if key.isRequired then none else some none
    else some (some key)

/-- Give up the possible keys that can be none, seen from a character. -/
def keepKeys? (scan : Scan) (g : Glyph) : Option Scan := do
  let possibleKey ← keepKey? g scan.possibleKey
  let outerKeys ← scan.outerKeys.mapM (keepKey? g)
  pure { scan with possibleKey, outerKeys }

def allowKey (scan : Scan) (keyAllowed : Bool) : Scan :=
  { scan with keyAllowed }

end Scan

/-- Pass what stands between tokens: blanks, breaks and comments. A byte order mark may begin a
line. -/
def skipToToken (scan : Scan) (inComment : Bool) : List Glyph → Scan × List Glyph
  | [] => (scan, [])
  | g :: rest =>
    if isBreak g.char then skipToToken (if scan.inFlow then scan else scan.allowKey true) false rest
    else if inComment || g.char = ' ' || (g.char = '\uFEFF' && g.column = 0) ||
        (g.char = '\t' && (scan.inFlow || !scan.keyAllowed)) then
      skipToToken scan inComment rest
    else if g.char = '#' then skipToToken scan true rest
    else (scan, g :: rest)

/-- The name in front of glyphs, which is not empty, and what follows it. -/
def readName? (gs : List Glyph) : Option (List Char × List Glyph) :=
  let name := gs.takeWhile fun g => isNameChar g.char
  if name.isEmpty then none else some (name.map (·.char), gs.drop name.length)

/-- The characters of tags besides letters and digits; some more in a tag that is written out. -/
def isTagChar (writtenOut : Bool) (c : Char) : Bool :=
  isNameChar c || ";/?:@&=+$.!~*'()".toList.contains c || (writtenOut && [',', '[', ']'].contains c)

/-- Read a byte that is written as a per cent sign and two digits of base sixteen. -/
def readEscapedByte? : List Glyph → Option (Nat × List Glyph)
  | a :: b :: c :: rest =>
    if a.char = '%' && Text.isHexDigit b.char && Text.isHexDigit c.char then
      some (Text.digitValue b.char * 16 + Text.digitValue c.char, rest)
    else none
  | _ => none

def readContinuation? : (owed : Nat) → (value : Nat) → List Glyph → Option (Nat × List Glyph)
  | 0, value, gs => some (value, gs)
  | owed + 1, value, gs => do
    let (byte, gs) ← readEscapedByte? gs
    if byte / 64 = 2 then readContinuation? owed (value * 64 + byte % 64) gs else none

/-- Read a character that is written byte by byte. One that is written in more bytes than it needs
counts as the replacement character. -/
def readEscapedChar? (gs : List Glyph) : Option (Char × List Glyph) := do
  let (byte, gs) ← readEscapedByte? gs
  let (owed, first) ←
    if byte < 0x80 then some (0, byte)
    else if byte / 32 = 6 then some (1, byte % 32)
    else if byte / 16 = 14 then some (2, byte % 16)
    else if byte / 8 = 30 then some (3, byte % 8)
    else none
  let (value, gs) ← readContinuation? owed first gs
  pure (if owed > 0 && value < 0x80 then '\uFFFD' else Char.ofNat value, gs)

/-- Read the characters of a tag, which stand in reverse while they are read. -/
def readTagChars? (writtenOut : Bool) :
    (fuel : Nat) → List Char → List Glyph → Option (List Char × List Glyph)
  | fuel + 1, read, g :: rest =>
    if g.char = '%' then do
      let (c, rest) ← readEscapedChar? (g :: rest)
      readTagChars? writtenOut fuel (c :: read) rest
    else if isTagChar writtenOut g.char then readTagChars? writtenOut fuel (g.char :: read) rest
    else some (read.reverse, g :: rest)
  | _, read, gs => some (read.reverse, gs)

/-- Read the characters of a tag behind those that were read of it already; there has to be one. -/
def readTagText? (writtenOut : Bool) (read : List Char) (gs : List Glyph) :
    Option (List Char × List Glyph) := do
  let (text, rest) ← readTagChars? writtenOut (gs.length + 1) read.reverse gs
  if text.isEmpty then none else some (text, rest)

/-- Read what may be a tag handle: an exclamation mark, a name and whether a second mark closes
it. -/
def readHandle? : List Glyph → Option (List Char × Bool × List Glyph)
  | g :: rest =>
    if g.char = '!' then
      let name := rest.takeWhile fun g => isNameChar g.char
      let text := '!' :: name.map (·.char)
      match rest.drop name.length with
      | mark :: after =>
        if mark.char = '!' then some (text ++ ['!'], true, after) else some (text, false, mark :: after)
      | [] => some (text, false, [])
    else none
  | [] => none

/-- Read a tag: one that is written out, one with a handle, or a local one, whose handle is one
mark. A mark alone has no handle. -/
def readTag? (inFlow : Bool) (gs : List Glyph) : Option (Token × List Glyph) := do
  let (token, rest) ← match gs with
    | _ :: second :: rest =>
      if second.char = '<' then do
        let (text, rest) ← readTagText? true [] rest
        match rest with
        | close :: rest => if close.char = '>' then some (Token.tag [] text, rest) else none
        | [] => none
      else namedTag
    | _ => namedTag
  if atBlankOrEnd rest || (inFlow && startsWithOneOf [','] rest) then some (token, rest) else none
where
  /-- Read a tag that is not written out. -/
  namedTag : Option (Token × List Glyph) := do
    let (handle, isClosed, rest) ← readHandle? gs
    if isClosed then
      let (suffix, rest) ← readTagText? false [] rest
      pure (.tag handle suffix, rest)
    else
      let (suffix, rest) ← readTagChars? false (rest.length + 1) handle.tail.reverse rest
      pure (if suffix.isEmpty then .tag [] ['!'] else .tag ['!'] suffix, rest)

def readVersionNumber? (gs : List Glyph) : Option (Nat × List Glyph) :=
  let digits := (gs.takeWhile fun g => g.char.isDigit).map (·.char)
  if digits.isEmpty || 9 < digits.length then none
  else some (Text.digitsValue 10 digits, gs.drop digits.length)

def dropBlanks (gs : List Glyph) : List Glyph :=
  gs.dropWhile fun g => isBlank g.char

/-- Read the line of a directive after its mark: the version of the text, or a tag handle. -/
def readDirective? (gs : List Glyph) : Option (Token × List Glyph) := do
  let (name, gs) ← readName? gs
  if !atBlankOrEnd gs then none
  else
    let gs := dropBlanks gs
    let (token, gs) ←
      if name = ['Y', 'A', 'M', 'L'] then do
        let (major, gs) ← readVersionNumber? gs
        if !startsWithOneOf ['.'] gs then none
        else
          let (minor, gs) ← readVersionNumber? gs.tail
          some (Token.version major minor, gs)
      else if name = ['T', 'A', 'G'] then do
        let (handle, isClosed, gs) ← readHandle? gs
        if (!isClosed && handle ≠ ['!']) || gs.isEmpty || !startsWithOneOf [' ', '\t'] gs then none
        else
          let (start, gs) ← readTagText? true [] (dropBlanks gs)
          if atBlankOrEnd gs then some (Token.tagHandle handle start, gs) else none
      else none
    let gs ← endLine? gs
    pure (token, gs)

def readAnchorName? (gs : List Glyph) : Option (List Char × List Glyph) := do
  let (name, gs) ← readName? gs
  if atBlankOrEnd gs || startsWithOneOf ['?', ':', ',', ']', '\x7d', '%', '@', '`'] gs then
    some (name, gs)
  else none

def startsPlain (inFlow : Bool) : List Glyph → Bool
  | [] => false
  | g :: rest =>
    if g.char = '-' then !startsWithOneOf [' ', '\t'] rest
    else if g.char = '?' || g.char = ':' then !inFlow && !atBlankOrEnd rest
    else
      !isBlank g.char && !isBreak g.char && !"#&*!|>'\"%@`".toList.contains g.char &&
        !flowIndicators.contains g.char

namespace Scan

/-- Read the colon behind a key. The key is the possible one, whose tokens are put in front of it,
or else an empty or an announced one. -/
def value? (scan : Scan) (g : Glyph) : Option Scan :=
  match scan.possibleKey with
  | some key =>
    let scan := (scan.insert key.position .key).openBlock key.start.column key.position
      .blockMappingStart
    some ({ scan with possibleKey := none, keyAllowed := false }.push .value)
  | none =>
    if scan.inFlow then some ((scan.allowKey false).push .value)
    else if scan.keyAllowed then
      some (((scan.openBlock g.column scan.tokens.length .blockMappingStart).allowKey true).push
        .value)
    else none

/-- Read the mark of an announced key or of a list entry, which opens a block where none is. -/
def announced? (scan : Scan) (g : Glyph) (opening token : Token) (keyAllowed : Bool) :
    Option Scan := do
  if !scan.inFlow && !scan.keyAllowed then none
  else
    let scan ← (scan.openBlock g.column scan.tokens.length opening).dropKey?
    some ((scan.allowKey keyAllowed).push token)

def enterFlow? (scan : Scan) (g : Glyph) (token : Token) : Option Scan := do
  let scan ← scan.noteKey? g
  some ({ scan with
    possibleKey := none, outerKeys := scan.possibleKey :: scan.outerKeys, keyAllowed := true }.push
      token)

def leaveFlow? (scan : Scan) (token : Token) : Option Scan := do
  let scan ← scan.dropKey?
  let scan := match scan.outerKeys with
    | key :: outerKeys => { scan with possibleKey := key, outerKeys }
    | [] => scan
  some ((scan.allowKey false).push token)

/-- Read the mark between documents or a directive, before which all blocks end. -/
def endDocument? (scan : Scan) (token : Token) : Option Scan := do
  let scan ← (scan.endBlocks (-1)).dropKey?
  some ((scan.allowKey false).push token)

/-- Read one token at its first character. -/
def token? (scan : Scan) (g : Glyph) (rest : List Glyph) : Option (Scan × List Glyph) :=
  let c := g.char
  let gs := g :: rest
  if g.column = 0 && c = '%' then do
    let (token, rest) ← readDirective? rest
    return (← scan.endDocument? token, rest)
  else if startsMarker '-' gs then do
    return (← scan.endDocument? .documentStart, rest.drop 2)
  else if startsMarker '.' gs then do
    return (← scan.endDocument? .documentEnd, rest.drop 2)
  else if c = '[' then do return (← scan.enterFlow? g .flowListStart, rest)
  else if c = '\x7b' then do return (← scan.enterFlow? g .flowMappingStart, rest)
  else if c = ']' then do return (← scan.leaveFlow? .flowListEnd, rest)
  else if c = '\x7d' then do return (← scan.leaveFlow? .flowMappingEnd, rest)
  else if c = ',' then do
    return (((← scan.dropKey?).allowKey true).push .flowEntry, rest)
  else if c = '-' && atBlankOrEnd rest then do
    return (← scan.announced? g .blockListStart .blockEntry true, rest)
  else if c = '?' && (scan.inFlow || atBlankOrEnd rest) then do
    return (← scan.announced? g .blockMappingStart .key (!scan.inFlow), rest)
  else if c = ':' && (scan.inFlow || atBlankOrEnd rest) then do
    return (← scan.value? g, rest)
  else if c = '*' then do
    let (name, rest) ← readAnchorName? rest
    return (((← scan.noteKey? g).allowKey false).push (.alias name), rest)
  else if c = '&' then do
    let (name, rest) ← readAnchorName? rest
    return (((← scan.noteKey? g).allowKey false).push (.anchor name), rest)
  else if c = '!' then do
    let (token, rest) ← readTag? scan.inFlow gs
    return (((← scan.noteKey? g).allowKey false).push token, rest)
  else if (c = '|' || c = '>') && !scan.inFlow then do
    let literal := c = '|'
    let (text, rest) ← readBlock? literal scan.indent rest
    let style := if literal then ScalarStyle.literal else .folded
    return (((← scan.dropKey?).allowKey true).push (.scalar text style), rest)
  else if c = '\'' || c = '"' then do
    let (text, rest) ← readQuoted? (c = '\'') (.body .none) [] rest
    return (((← scan.noteKey? g).allowKey false).push (.scalar text .quoted), rest)
  else if startsPlain scan.inFlow gs then do
    let scalar ← readPlain? scan.inFlow (scan.indent + 1) .none [] gs
    let scan ← scan.noteKey? g
    return ((scan.allowKey scalar.brokeLine).push (.scalar scalar.text .plain), scalar.rest)
  else none

/-- Read the tokens of glyphs. Every token takes a glyph at least, so that there are enough rounds
for all. -/
def tokens? : (rounds : Nat) → Scan → List Glyph → Option (List Token)
  | 0, _, _ => none
  | rounds + 1, scan, gs =>
    match skipToToken scan false gs with
    | (scan, []) => do
      let scan ← (scan.endBlocks (-1)).dropKey?
      pure scan.tokens.reverse
    | (scan, g :: rest) => do
      let scan ← scan.keepKeys? g
      let (scan, rest) ← (scan.endBlocks g.column).token? g rest
      tokens? rounds scan rest

end Scan

/-- The tokens of a text, or nothing if it is not made of tokens. -/
def Token.ofText? (s : List Char) : Option (List Token) :=
  if s.all isAllowed then
    let gs := place s
    Scan.start.tokens? (gs.length + 1) gs
  else none

example : Token.ofText? "a: [1, b]\n".toList = some
    [.blockMappingStart, .key, .scalar ['a'] .plain, .value, .flowListStart, .scalar ['1'] .plain,
      .flowEntry, .scalar ['b'] .plain, .flowListEnd, .blockEnd] := by
  decide +kernel

/-- A key cannot go over lines. -/
example : Token.ofText? "\"a\n b\": c".toList = none := by
  decide +kernel

end ContentImport.Yaml
