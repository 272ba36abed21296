import ContentImport.Text.Utf8

/-!
The tokens of markup: tags, text, and the sections between angle brackets that are neither. The
bytes are read one at a time. Text between tokens loses the white space on both sides, and text
that is white space alone is no token.
-/

set_option autoImplicit false
set_option relaxedAutoImplicit false

namespace ContentImport.Markup

abbrev Bytes := List UInt8

def byte (c : Char) : UInt8 :=
  c.val.toUInt8

def ascii (s : String) : Bytes :=
  s.toList.map byte

/-- The bytes that separate words: space, tab, line feed and carriage return. -/
def isBlank (b : UInt8) : Bool :=
  b = byte ' ' || b = byte '\t' || b = byte '\n' || b = byte '\r'

/-- Why markup cannot be read. -/
inductive Fault where
  /-- The document ends within a tag or a section. -/
  | unclosed
  /-- A section begins that is neither comment, character data nor document type. -/
  | unknownSection
  /-- A document type has no name. -/
  | unnamedDoctype
  /-- An end tag closes no element. -/
  | unmatchedEnd
  /-- An end tag has another name than the element it would close. -/
  | mismatchedEnd
  /-- A reserved prefix or namespace is bound. -/
  | reservedBinding
  /-- An attribute is not a name, an equals sign and a quoted value. -/
  | malformedAttribute
  /-- A tag has two attributes of one name. -/
  | repeatedAttribute
  /-- A text is not UTF-8. -/
  | undecodable
  /-- An ampersand begins no reference. -/
  | malformedReference
  /-- A reference names no character and no entity that was declared. -/
  | unknownReference
  deriving DecidableEq, Repr

/-- A token; each holds the bytes within its delimiters. -/
inductive Token where
  | startTag (content : Bytes)
  | endTag (content : Bytes)
  | text (content : Bytes)
  | characterData (content : Bytes)
  | comment (content : Bytes)
  | instruction (content : Bytes)
  | doctype (content : Bytes)
  deriving DecidableEq, Repr

namespace Token

/-- What is being read. The bytes of a token stand in reverse. -/
inductive Mode where
  /-- White space between tokens. -/
  | between
  | text (read : Bytes)
  /-- What follows an opening bracket. -/
  | opened
  /-- A start tag, and the quotation mark that is open in it. -/
  | startTag (read : Bytes) (quote : Option UInt8)
  /-- An end tag, and the quotation mark that is open in it. -/
  | endTag (read : Bytes) (quote : Option UInt8)
  | instruction (read : Bytes)
  /-- What follows an opening bracket with an exclamation mark. -/
  | declared
  | characterData (read : Bytes)
  | comment (read : Bytes)
  /-- A document type, and how many brackets are open in it. -/
  | doctype (read : Bytes) (depth : Nat)
  deriving Repr

def endsWith (read : Bytes) (s : String) : Bool :=
  (ascii s).reverse.isPrefixOf read

def after? (s : String) (bytes : Bytes) : Option Bytes :=
  let front := ascii s
  if front.isPrefixOf bytes then some (bytes.drop front.length) else none

def upper (b : UInt8) : UInt8 :=
  if byte 'a' ≤ b ∧ b ≤ byte 'z' then b - 32 else b

def trimEnd (read : Bytes) : Bytes :=
  (read.dropWhile isBlank).reverse

/-- The quotation mark that is open after a byte of a tag. -/
def nextQuote (quote : Option UInt8) (b : UInt8) : Option UInt8 :=
  match quote with
  | some q => if b = q then none else some q
  | none => if b = byte '"' ∨ b = byte '\'' then some b else none

/-- The character data section with the given bytes after its exclamation mark. -/
def characterData? (content : Bytes) : Except Fault Token :=
  match after? "[CDATA[" content with
  | some content => .ok (.characterData (content.take (content.length - 2)))
  | none => .error .unknownSection

/-- The comment with the given bytes after its exclamation mark. -/
def comment? (content : Bytes) : Except Fault Token :=
  match after? "--" content with
  | some content => .ok (.comment (content.take (content.length - 2)))
  | none => .error .unknownSection

/-- The document type with the given bytes after its exclamation mark; its keyword may be in either
case. -/
def doctype? (content : Bytes) : Except Fault Token :=
  if (content.take 7).map upper = ascii "DOCTYPE" then
    match (content.drop 7).dropWhile isBlank with
    | [] => .error .unnamedDoctype
    | content => .ok (.doctype content)
  else .error .unknownSection

/-- Read one byte; where a token ends, it is given. -/
def step (mode : Mode) (b : UInt8) : Except Fault (Option Token × Mode) :=
  match mode with
  | .between =>
    if isBlank b then .ok (none, .between)
    else if b = byte '<' then .ok (none, .opened)
    else .ok (none, .text [b])
  | .text read =>
    if b = byte '<' then .ok (some (.text (trimEnd read)), .opened)
    else .ok (none, .text (b :: read))
  | .opened =>
    if b = byte '!' then .ok (none, .declared)
    else if b = byte '/' then .ok (none, .endTag [] none)
    else if b = byte '?' then .ok (none, .instruction [])
    else if b = byte '>' then .ok (some (.startTag []), .between)
    else .ok (none, .startTag [b] (nextQuote none b))
  | .startTag read quote =>
    if b = byte '>' ∧ quote = none then .ok (some (.startTag read.reverse), .between)
    else .ok (none, .startTag (b :: read) (nextQuote quote b))
  | .endTag read quote =>
    if b = byte '>' ∧ quote = none then .ok (some (.endTag read.reverse), .between)
    else .ok (none, .endTag (b :: read) (nextQuote quote b))
  | .instruction read =>
    if b = byte '>' then
      match read with
      | [] => .error .unclosed
      | last :: front =>
        if last = byte '?' then .ok (some (.instruction front.reverse), .between)
        else .ok (none, .instruction (b :: read))
    else .ok (none, .instruction (b :: read))
  | .declared =>
    if b = byte '[' then .ok (none, .characterData [b])
    else if b = byte '-' then .ok (none, .comment [b])
    else if upper b = byte 'D' then .ok (none, .doctype [b] 0)
    else .error .unknownSection
  | .characterData read =>
    if b = byte '>' ∧ endsWith read "]]" then do
      let token ← characterData? read.reverse
      pure (some token, .between)
    else .ok (none, .characterData (b :: read))
  | .comment read =>
    if b = byte '>' ∧ endsWith read "--" ∧ 4 ≤ read.length then do
      let token ← comment? read.reverse
      pure (some token, .between)
    else .ok (none, .comment (b :: read))
  | .doctype read depth =>
    if b = byte '<' then .ok (none, .doctype (b :: read) (depth + 1))
    else if b = byte '>' then
      match depth with
      | 0 => do
        let token ← doctype? read.reverse
        pure (some token, .between)
      | depth + 1 => .ok (none, .doctype (b :: read) depth)
    else .ok (none, .doctype (b :: read) depth)

/-- What the end of the document makes of the bytes read last. -/
def finish : Mode → Except Fault (Option Token)
  | .between => .ok none
  | .text read => .ok (some (.text (trimEnd read)))
  | _ => .error .unclosed

end Token

/-- Things read in order, and the fault that ended the reading where one did. -/
structure Sequence (α : Type) where
  items : List α
  fault : Option Fault
  deriving DecidableEq, Repr

def Sequence.put? {α : Type} (item : Option α) (s : Sequence α) : Sequence α :=
  match item with
  | some a => ⟨a :: s.items, s.fault⟩
  | none => s

def Token.scanFrom : Token.Mode → Bytes → Sequence Token
  | mode, [] =>
    match Token.finish mode with
    | .ok token => ⟨token.toList, none⟩
    | .error fault => ⟨[], some fault⟩
  | mode, b :: rest =>
    match Token.step mode b with
    | .ok (token, mode) => (Token.scanFrom mode rest).put? token
    | .error fault => ⟨[], some fault⟩

def dropByteOrderMark (bytes : Bytes) : Bytes :=
  match bytes with
  | 0xEF :: 0xBB :: 0xBF :: rest => rest
  | _ => bytes

def Token.scan (bytes : Bytes) : Sequence Token :=
  Token.scanFrom .between (dropByteOrderMark bytes)

example : (Token.scan (ascii " a <b c='>'/><!----> ")).items =
    [.text (ascii "a"), .startTag (ascii "b c='>'/"), .comment []] := by decide +kernel
example : (Token.scan (ascii "<!--->")).fault = some .unclosed := by decide +kernel

end ContentImport.Markup
