import ContentImport.Markup.Scope

/-!
The events of a markup document: tokens with each end tag held against the element it closes and
each start tag in the scope of its namespaces. An event can be written as markup again.
-/

set_option autoImplicit false
set_option relaxedAutoImplicit false

namespace ContentImport.Markup

/-- A start tag: its name and attributes as written, and the bindings within it. -/
structure Tag where
  content : Bytes
  scope : Scope
  deriving DecidableEq, Repr

namespace Tag

def name (tag : Tag) : Bytes :=
  tag.content.takeWhile (!isBlank ·)

def rest (tag : Tag) : Bytes :=
  tag.content.dropWhile (!isBlank ·)

end Tag

/-- What happens in a document, in the order in which it is written. -/
inductive Event where
  /-- An element begins. -/
  | opened (tag : Tag)
  /-- An element without content. -/
  | whole (tag : Tag)
  /-- An element of a name ends. -/
  | closed (name : Bytes)
  | text (content : Bytes)
  | characterData (content : Bytes)
  | comment (content : Bytes)
  | instruction (content : Bytes)
  | doctype (content : Bytes)
  deriving DecidableEq, Repr

namespace Event

def written : Event → Bytes
  | .opened tag => ascii "<" ++ tag.content ++ ascii ">"
  | .whole tag => ascii "<" ++ tag.content ++ ascii "/>"
  | .closed name => ascii "</" ++ name ++ ascii ">"
  | .text content => content
  | .characterData content => ascii "<![CDATA[" ++ content ++ ascii "]]>"
  | .comment content => ascii "<!--" ++ content ++ ascii "-->"
  | .instruction content => ascii "<?" ++ content ++ ascii "?>"
  | .doctype content => ascii "<!DOCTYPE " ++ content ++ ascii ">"

def withoutSlash? (content : Bytes) : Option Bytes :=
  if content.getLast? = some (byte '/') then some content.dropLast else none

/-- The name in an end tag, without the blanks after it. A name of blanks alone is kept. -/
def endName (content : Bytes) : Bytes :=
  match content.reverse.dropWhile isBlank with
  | [] => content
  | read => read.reverse

abbrev OpenElement := Tag

/-- The bindings that hold within open elements, the innermost in front. -/
def scopeOf : List OpenElement → Scope
  | [] => Scope.outermost
  | element :: _ => element.scope

def enterTag (around : List OpenElement) (content : Bytes) : Except Fault Tag :=
  let tag : Tag := ⟨content, scopeOf around⟩
  (tag.scope.enter tag.rest).map fun scope => { tag with scope }

/-- The event of a token within open elements, and the elements open after it. -/
def ofToken (around : List OpenElement) : Token → Except Fault (Event × List OpenElement)
  | .startTag content =>
    match withoutSlash? content with
    | some content => (enterTag around content).map fun tag => (.whole tag, around)
    | none => (enterTag around content).map fun tag => (.opened tag, tag :: around)
  | .endTag content =>
    match around with
    | [] => .error .unmatchedEnd
    | element :: around =>
      if endName content = element.name then .ok (.closed (endName content), around)
      else .error .mismatchedEnd
  | .text content => .ok (.text content, around)
  | .characterData content => .ok (.characterData content, around)
  | .comment content => .ok (.comment content, around)
  | .instruction content => .ok (.instruction content, around)
  | .doctype content => .ok (.doctype content, around)

def ofTokens (fault : Option Fault) : List OpenElement → List Token → Sequence Event
  | _, [] => ⟨[], fault⟩
  | around, token :: rest =>
    match ofToken around token with
    | .ok (event, around) => (ofTokens fault around rest).put? (some event)
    | .error fault => ⟨[], some fault⟩

def scan (bytes : Bytes) : Sequence Event :=
  let tokens := Token.scan bytes
  ofTokens tokens.fault [] tokens.items

example : (scan (ascii "<a x='1'><b/></a >")).items.map written =
    [ascii "<a x='1'>", ascii "<b/>", ascii "</a>"] := by decide +kernel
example : (scan (ascii "<a></b>")).fault = some .mismatchedEnd := by decide +kernel

end Event

end ContentImport.Markup
