import ContentImport.Markup.Token
import ContentImport.Text.Blank
import ContentImport.Text.Digit
import ContentImport.Text.WordChar

/-!
References in text: an ampersand, a name and a semicolon stand for a character or for the text of
an entity. Entities are declared in the document type.
-/

set_option autoImplicit false
set_option relaxedAutoImplicit false

namespace ContentImport.Markup

/-- The entities that are declared, the one declared last in front. -/
abbrev Entities := List (List Char × List Char)

namespace Reference

/-- The number that digits of a base give, up to 32 bits. -/
def number? (isDigit : Char → Bool) (base : Nat) (ds : List Char) : Option Nat :=
  let n := Text.digitsValue base ds
  if !ds.isEmpty && ds.all isDigit && n < Nat.pow 2 32 then some n else none

/-- The character of a character reference, by its number in base ten, or sixteen after an x. -/
def character? (ds : List Char) : Option Char :=
  let n := match ds with
    | 'x' :: ds => number? Text.isHexDigit 16 ds
    | ds => number? Char.isDigit 10 ds
  n.bind fun n => if n ≠ 0 ∧ n.isValidChar then some (Char.ofNat n) else none

/-- The text of the entities that need no declaration. -/
def predefined? (name : List Char) : Option (List Char) :=
  match String.ofList name with
  | "lt" => some ['<']
  | "gt" => some ['>']
  | "amp" => some ['&']
  | "apos" => some ['\'']
  | "quot" => some ['"']
  | _ => none

def entity? (entities : Entities) (name : List Char) : Option (List Char) :=
  (predefined? name).or ((entities.find? (·.1 = name)).map (·.2))

def text? (entities : Entities) : List Char → Option (List Char)
  | '#' :: ds => (character? ds).map ([·])
  | name => entity? entities name

/-- Put their texts in place of references; the name of an open reference stands in reverse. -/
def expandFrom (entities : Entities) : Option (List Char) → List Char → Except Fault (List Char)
  | none, [] => .ok []
  | some _, [] => .error .malformedReference
  | none, c :: rest =>
    if c = '&' then expandFrom entities (some []) rest
    else (expandFrom entities none rest).map (c :: ·)
  | some name, c :: rest =>
    if c = ';' then
      match text? entities name.reverse with
      | none => .error .unknownReference
      | some text => (expandFrom entities none rest).map (text ++ ·)
    else if c = '&' then .error .malformedReference
    else expandFrom entities (some (c :: name)) rest

/-- Put their texts in place of references. What an entity stands for is not looked at again. -/
def expand (entities : Entities) (s : List Char) : Except Fault (List Char) :=
  expandFrom entities none s

/-- The text of bytes, with the texts of references in their places. -/
def decode (entities : Entities) (bytes : Bytes) : Except Fault (List Char) :=
  match Text.Utf8.decode? bytes with
  | none => .error .undecodable
  | some s => expand entities s

end Reference

namespace Entities

def after? (expected : List Char) (s : List Char) : Option (List Char) :=
  if expected.isPrefixOf s then some (s.drop expected.length) else none

/-- The text after at least one white space character. -/
def afterSpace? (s : List Char) : Option (List Char) :=
  let rest := s.dropWhile Text.isSpace
  if rest.length < s.length then some rest else none

def name? : List Char → Option (List Char × List Char)
  | c :: rest =>
    let isNameChar := fun c => Text.isWordChar c || c == '.' || c == '-'
    if c.isAlpha || c == '_' then
      some (c :: rest.takeWhile isNameChar, rest.dropWhile isNameChar)
    else none
  | [] => none

def quoted? : List Char → Option (List Char × List Char)
  | q :: rest =>
    if q = '"' ∨ q = '\'' then
      match rest.dropWhile (· ≠ q) with
      | _ :: after => some (rest.takeWhile (· ≠ q), after)
      | [] => none
    else none
  | [] => none

/-- Read the declaration of an entity, and what follows it. -/
def declaration? (s : List Char) : Option ((List Char × List Char) × List Char) := do
  let s ← after? "<!ENTITY".toList s
  let s ← afterSpace? s
  let (name, s) ← name? s
  let s ← afterSpace? s
  let (text, s) ← quoted? s
  let s ← after? ['>'] (s.dropWhile Text.isSpace)
  pure ((name, text), s)

/-- The declarations in a document type, of which some characters are to be passed over. -/
def declarationsFrom : (passed : Nat) → List Char → List (List Char × List Char)
  | _, [] => []
  | passed + 1, _ :: rest => declarationsFrom passed rest
  | 0, c :: rest =>
    match declaration? (c :: rest) with
    | some (found, after) => found :: declarationsFrom (rest.length - after.length) rest
    | none => declarationsFrom 0 rest

/-- The declarations in a document type, wherever they stand. -/
def declarations (s : List Char) : List (List Char × List Char) :=
  declarationsFrom 0 s

/-- The entities after the declarations of a document type. -/
def declare (entities : Entities) (doctype : Bytes) : Entities :=
  (declarations (Text.Utf8.decodeLenient doctype)).reverse ++ entities

example : declarations "<!ENTITY a 'x'><!ENTITY  b.1\n\"y'\" >".toList =
    [("a".toList, "x".toList), ("b.1".toList, "y'".toList)] := by decide +kernel
example : (Reference.expand [("a".toList, "<&>".toList)] "1&a;&#x41;&amp;".toList).toOption =
    some "1<&>A&".toList := by decide +kernel

end Entities

end ContentImport.Markup
