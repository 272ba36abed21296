import ContentImport.Markup.Event
import ContentImport.Markup.Reference
import ContentImport.Ontology.Element

/-!
Reading RDF/XML. The reader takes the events of a document one at a time and gives one element for
each description below the root. Where it stands is a `Place`; what an event means depends on the
place alone, and so does what the end of the document means. A statement whose content is nested
markup is left out, and a notice about it is kept.
-/

set_option autoImplicit false
set_option relaxedAutoImplicit false

namespace ContentImport.Ontology

open ContentImport.Markup (Entities Event)

/-- Why a document cannot be read. -/
inductive ReadFault where
  /-- The document ends within an element. -/
  | unexpectedEnd
  /-- A name or a reference is no IRI. -/
  | invalidIri (e : InvalidIri)
  /-- The document is no well-formed markup. -/
  | malformed (fault : Markup.Fault)
  /-- There is no document but a directory. -/
  | directory
  deriving DecidableEq, Repr

/-- A start tag with its names resolved and its values decoded. -/
structure OpenTag where
  name : String
  attributes : List (String × String)
  deriving DecidableEq

namespace OpenTag

def attribute? (tag : OpenTag) (name : String) : Option String :=
  (tag.attributes.find? (·.1 = name)).map (·.2)

/-- The resolved name of an attribute: one with the `xml` prefix stays as it is written. -/
def attributeName (scope : Markup.Scope) (key : Markup.Bytes) : String :=
  String.ofList <|
    if (Markup.Token.after? "xml:" key).isSome then Text.Utf8.decodeLenient key
    else scope.qualify false key

/-- Resolve the names and decode the values of attributes; those that bind prefixes are dropped. -/
def decodeAttributes (entities : Entities) (scope : Markup.Scope) :
    List Markup.Attribute → Except Markup.Fault (List (String × String))
  | [] => .ok []
  | a :: rest =>
    if (Markup.Token.after? "xmlns" a.key).isSome then decodeAttributes entities scope rest
    else do
      let value ← Markup.Reference.decode entities a.value
      let decoded ← decodeAttributes entities scope rest
      pure ((attributeName scope a.key, String.ofList value) :: decoded)

/-- Resolve the names and decode the values of a tag. -/
def ofTag (entities : Entities) (tag : Markup.Tag) : Except Markup.Fault OpenTag := do
  let attributes ← Markup.Attribute.all tag.rest
  let decoded ← decodeAttributes entities tag.scope attributes
  pure ⟨String.ofList (tag.scope.qualify true tag.name), decoded⟩

end OpenTag

/-- What an event means for the statements of a document. -/
inductive Signal where
  | opened (tag : OpenTag)
  | whole (tag : OpenTag)
  | closed
  | text (s : List Char)
  | nothing

/-- Decode an event. References are replaced in text, and character data is taken as it stands. -/
def Signal.ofEvent (entities : Entities) : Event → Except Markup.Fault Signal
  | .opened tag => (OpenTag.ofTag entities tag).map .opened
  | .whole tag => (OpenTag.ofTag entities tag).map .whole
  | .closed _ => .ok .closed
  | .text content => (Markup.Reference.decode entities content).map .text
  | .characterData content => .ok (.text (Text.Utf8.decodeLenient content))
  | _ => .ok .nothing

namespace Reference

/-- Whether a reference begins with something like a scheme. -/
def hasScheme (reference : List Char) : Bool :=
  let scheme := reference.takeWhile (· ≠ ':')
  scheme.length < reference.length && !scheme.isEmpty &&
    scheme.all fun c => c.isAlphanum || c ∈ ['+', '-', '.']

/-- The part of a base up to its last slash; the whole base when it has none. -/
def directory (base : List Char) : List Char :=
  match base.reverse.dropWhile (· ≠ '/') with
  | [] => base
  | read => read.reverse

/-- A reference put behind its base. A fragment takes the place of the fragment of the base, and a
reference without a scheme stands in the directory of the base. -/
def absolute (base : Option (List Char)) (reference : List Char) : List Char :=
  match base with
  | none => reference
  | some base =>
    if reference.head? = some '#' then base.takeWhile (· ≠ '#') ++ reference
    else if hasScheme reference then reference
    else directory base ++ reference

/-- The IRI that a reference with white space around it stands for. -/
def resolve (base : Option String) (reference : String) : Except ReadFault Iri :=
  let text := absolute (base.map String.toList) (Text.trimBy Text.isSpace reference.toList)
  (Iri.ofText (String.ofList text)).mapError .invalidIri

end Reference

/-- A property whose end tag is still to come. -/
structure OpenProperty where
  predicate : Iri
  tag : OpenTag

/-- Where a reader stands. -/
inductive Place where
  /-- Before the root. -/
  | prolog
  /-- Between descriptions. -/
  | root
  /-- Between the properties of a description. -/
  | description (e : Element)
  /-- In a property; text so far, and whether markup was nested in it. -/
  | property (e : Element) (p : OpenProperty) (text : List Char) (nested : Bool)
  /-- In markup nested in a property, at a depth. -/
  | nested (e : Element) (p : OpenProperty) (text : List Char) (depth : Nat)
  /-- In the content of a property whose value is known, at a depth. -/
  | passed (e : Element) (depth : Nat)
  /-- In markup that is a value, at a depth. -/
  | markup (e : Element) (predicate : Iri) (written : Markup.Bytes) (depth : Nat)
  /-- After the root, or the description that stands in its place. -/
  | finished

/-- A reader of a document. -/
structure Reader where
  place : Place
  /-- What references are relative to. -/
  base : Option String
  /-- Whether a single description stands in the place of the root. -/
  bare : Bool
  entities : Entities
  /-- A notice for each statement left out. -/
  notices : List String

namespace Reader

def rootName : String := rdf ++ "RDF"

def start : Reader :=
  ⟨.prolog, none, false, [], []⟩

def nameIri (name : String) : Except ReadFault Iri :=
  (Iri.ofText name).mapError .invalidIri

/-- The resource that a tag describes, or `none` for a blank node. -/
def subject (base : Option String) (tag : OpenTag) : Except ReadFault (Option Iri) :=
  match tag.attribute? (rdf ++ "about"), tag.attribute? (rdf ++ "ID") with
  | some about, _ => (Reference.resolve base about).map some
  | none, some name => (Reference.resolve base ("#" ++ name)).map some
  | none, none => .ok none

/-- Whether an attribute of a description states something. -/
def isStatement (key : String) : Bool :=
  let cs := key.toList
  !"xml:".toList.isPrefixOf cs &&
    (!rdf.toList.isPrefixOf cs || key == rdfType.text) && cs.contains ':'

/-- State what an attribute of a description states. -/
def pushAttribute (base : Option String) (e : Element) (given : String × String) :
    Except ReadFault Element :=
  let (key, value) := given
  if isStatement key then do
    let predicate ← nameIri key
    if key = rdfType.text then
      let object ← Reference.resolve base value
      pure (e.push predicate (.resource object))
    else pure (e.push predicate (.literal (.plain value)))
  else .ok e

def beginElement (base : Option String) (tag : OpenTag) : Except ReadFault Element := do
  let about ← subject base tag
  let e := Element.empty about
  let e ← if tag.name = rdf ++ "Description" then pure e else (nameIri tag.name).map e.declare
  tag.attributes.foldlM (pushAttribute base) e

def notice (e : Element) (predicate : Iri) : String :=
  let about := match e.iri with
    | some iri => "'" ++ iri.localName ++ "'"
    | none => "a blank node"
  "Statement '" ++ predicate.localName ++ "' of " ++ about ++
    " has nested content and was skipped."

def literalOf (base : Option String) (tag : OpenTag) (text : List Char) :
    Except ReadFault Literal := do
  let datatype ← match tag.attribute? (rdf ++ "datatype") with
    | some name => (Reference.resolve base name).map some
    | none => pure none
  pure ⟨String.ofList text, datatype, tag.attribute? "xml:lang"⟩

def endProperty (r : Reader) (e : Element) (p : OpenProperty) (text : List Char) (nested : Bool) :
    Except ReadFault Reader :=
  if nested || (p.tag.attribute? (rdf ++ "parseType")).isSome then
    .ok { r with
      place := .description e
      notices := Distinct.add r.notices (notice e p.predicate) }
  else
    (literalOf r.base p.tag text).map fun l =>
      { r with place := .description (e.push p.predicate (.literal l)) }

/-- The reader after the start tag of a property; `whole` where the tag is also its end. -/
def beginProperty (r : Reader) (e : Element) (tag : OpenTag) (whole : Bool) :
    Except ReadFault Reader := do
  let predicate ← nameIri tag.name
  let pass := fun e : Element =>
    { r with place := if whole then .description e else .passed e 0 }
  match tag.attribute? (rdf ++ "resource") with
  | some name => (Reference.resolve r.base name).map fun iri => pass (e.push predicate (.resource iri))
  | none =>
    if (tag.attribute? (rdf ++ "nodeID")).isSome then pure (pass e)
    else if tag.attribute? (rdf ++ "parseType") = some "Literal" then
      if whole then
        let l : Literal := ⟨"", some rdfXmlLiteral, none⟩
        pure { r with place := .description (e.push predicate (.literal l)) }
      else pure { r with place := .markup e predicate [] 0 }
    else if whole then r.endProperty e ⟨predicate, tag⟩ [] false
    else pure { r with place := .property e ⟨predicate, tag⟩ [] false }

def afterDescription (r : Reader) : Place :=
  if r.bare then .finished else .root

/-- The reader after the start tag of a description, and the element where the tag is also its
end. -/
def beginDescription (r : Reader) (tag : OpenTag) (whole : Bool) :
    Except ReadFault (Option Element × Reader) :=
  (beginElement r.base tag).map fun e =>
    if whole then (some e, { r with place := r.afterDescription })
    else (none, { r with place := .description e })

def beginRoot (r : Reader) (tag : OpenTag) (whole : Bool) :
    Except ReadFault (Option Element × Reader) :=
  if tag.name = rootName then
    .ok (none, { r with
      base := tag.attribute? "xml:base"
      place := if whole then .finished else .root })
  else beginDescription { r with bare := true } tag whole

/-- Take what an event means, at any place but in markup that is a value. -/
def take (r : Reader) (signal : Signal) : Except ReadFault (Option Element × Reader) :=
  match r.place, signal with
  | .prolog, .opened tag => r.beginRoot tag false
  | .prolog, .whole tag => r.beginRoot tag true
  | .root, .opened tag => r.beginDescription tag false
  | .root, .whole tag => r.beginDescription tag true
  | .root, .closed => .ok (none, { r with place := .finished })
  | .description e, .opened tag => (r.beginProperty e tag false).map (none, ·)
  | .description e, .whole tag => (r.beginProperty e tag true).map (none, ·)
  | .description e, .closed => .ok (some e, { r with place := r.afterDescription })
  | .property e p text nested, .text s =>
    .ok (none, { r with place := .property e p (text ++ s) nested })
  | .property e p text _, .opened _ => .ok (none, { r with place := .nested e p text 0 })
  | .property e p text _, .whole _ => .ok (none, { r with place := .property e p text true })
  | .property e p text nested, .closed => (r.endProperty e p text nested).map (none, ·)
  | .nested e p text depth, .opened _ =>
    .ok (none, { r with place := .nested e p text (depth + 1) })
  | .nested e p text 0, .closed => .ok (none, { r with place := .property e p text true })
  | .nested e p text (depth + 1), .closed => .ok (none, { r with place := .nested e p text depth })
  | .passed e depth, .opened _ => .ok (none, { r with place := .passed e (depth + 1) })
  | .passed e 0, .closed => .ok (none, { r with place := .description e })
  | .passed e (depth + 1), .closed => .ok (none, { r with place := .passed e depth })
  | _, _ => .ok (none, r)

def takeMarkup (r : Reader) (e : Element) (predicate : Iri) (written : Markup.Bytes) (depth : Nat)
    (event : Event) : Reader :=
  let more := written ++ event.written
  match event, depth with
  | .opened _, depth => { r with place := .markup e predicate more (depth + 1) }
  | .closed _, 0 =>
    let l : Literal :=
      ⟨String.ofList (Text.Utf8.decodeLenient written), some rdfXmlLiteral, none⟩
    { r with place := .description (e.push predicate (.literal l)) }
  | .closed _, depth + 1 => { r with place := .markup e predicate more depth }
  | _, depth => { r with place := .markup e predicate more depth }

def entitiesAfter (r : Reader) : Event → Entities
  | .doctype content => r.entities.declare content
  | _ => r.entities

/-- Take an event; where it ends a description, the element is given. -/
def step (r : Reader) (event : Event) : Except ReadFault (Option Element × Reader) :=
  match r.place with
  | .finished => .ok (none, r)
  | .markup e predicate written depth => .ok (none, r.takeMarkup e predicate written depth event)
  | _ =>
    match Signal.ofEvent r.entities event with
    | .error fault => .error (.malformed fault)
    | .ok signal => { r with entities := r.entitiesAfter event }.take signal

/-- Why the end of the events is no end of the document, where it is none. -/
def faultAtEnd (r : Reader) (fault : Option Markup.Fault) : Option ReadFault :=
  match r.place, fault with
  | .finished, _ => none
  | _, some fault => some (.malformed fault)
  | .prolog, none => none
  | _, none => some .unexpectedEnd

end Reader

/-- What the reading of a document gave: the elements before its end or its first fault, the
notices about statements left out, and the fault. -/
structure Reading where
  elements : List Element
  notices : List String
  fault : Option ReadFault

namespace Reading

def put? (element : Option Element) (reading : Reading) : Reading :=
  { reading with elements := element.toList ++ reading.elements }

def ofEvents (fault : Option Markup.Fault) : Reader → List Event → Reading
  | r, [] => ⟨[], r.notices, r.faultAtEnd fault⟩
  | r, event :: rest =>
    match r.step event with
    | .ok (element, r) => (ofEvents fault r rest).put? element
    | .error fault => ⟨[], r.notices, some fault⟩

def ofBytes (bytes : Markup.Bytes) : Reading :=
  let events := Event.scan bytes
  ofEvents events.fault Reader.start events.items

def whole (bytes : Markup.Bytes) : Except ReadFault Reading :=
  let reading := ofBytes bytes
  match reading.fault with
  | some fault => .error fault
  | none => .ok reading

end Reading

end ContentImport.Ontology
