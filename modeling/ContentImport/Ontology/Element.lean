import ContentImport.Distinct
import ContentImport.Ontology.Term

/-!
Elements: the descriptions of resources in an ontology. An element lists how it declares its
resource and what it states about it; several elements about one resource merge into one.
-/

set_option autoImplicit false
set_option relaxedAutoImplicit false

namespace ContentImport.Ontology

/-- A property of a resource and its value. -/
structure Statement where
  predicate : Iri
  object : Term
  deriving DecidableEq

/-- What an element may declare its resource to be. -/
inductive ElementKind where
  | owlClass
  | namedIndividual
  | annotationProperty
  | datatypeProperty
  | objectProperty
  | annotatedAxiom
  deriving DecidableEq, Repr

namespace ElementKind

def all : List ElementKind :=
  [.owlClass, .namedIndividual, .annotationProperty, .datatypeProperty, .objectProperty,
    .annotatedAxiom]

def name : ElementKind → String
  | .owlClass => "Class"
  | .namedIndividual => "NamedIndividual"
  | .annotationProperty => "AnnotationProperty"
  | .datatypeProperty => "DatatypeProperty"
  | .objectProperty => "ObjectProperty"
  | .annotatedAxiom => "Axiom"

def isDeclaredBy (kind : ElementKind) (iri : Iri) : Bool :=
  iri.text = owl ++ kind.name

end ElementKind

/-- A description of a resource; one without an IRI is about a blank node. -/
structure Element where
  iri : Option Iri
  /-- The classes by which the resource is declared, without repetition. -/
  declared : List Iri
  statements : List Statement
  deriving DecidableEq

namespace Element

/-- A description that says nothing. -/
def empty (iri : Option Iri) : Element :=
  ⟨iri, [], []⟩

def declare (e : Element) (tag : Iri) : Element :=
  { e with declared := Distinct.add e.declared tag }

def push (e : Element) (predicate : Iri) (object : Term) : Element :=
  { e with statements := e.statements ++ [⟨predicate, object⟩] }

/-- What two descriptions of one resource say together. -/
def merge (e other : Element) : Element :=
  { e with
    declared := Distinct.addAll e.declared other.declared
    statements := e.statements ++ other.statements }

/-- The values of a property, in document order. -/
def values (e : Element) (predicate : Iri) : List Term :=
  (e.statements.filter (·.predicate = predicate)).map (·.object)

def hasValue (e : Element) (predicate : Iri) : Bool :=
  !(e.values predicate).isEmpty

/-- The resources among the values of a property, without repetition. -/
def resources (e : Element) (predicate : Iri) : List Iri :=
  Distinct.ofList ((e.values predicate).filterMap Term.resource?)

def firstLiteral? (e : Element) (predicate : Iri) : Option Literal :=
  (e.values predicate).findSome? Term.literal?

/-- Whether the resource is of a kind, by declaration or by a type that is stated. -/
def hasKind (e : Element) (kind : ElementKind) : Bool :=
  e.declared.any kind.isDeclaredBy ||
    ((e.values rdfType).filterMap Term.resource?).any kind.isDeclaredBy

/-- The classes of the resource, except those of the vocabularies themselves. -/
def types (e : Element) : List Iri :=
  Distinct.ofList ((e.declared ++ e.resources rdfType).filter (!isBuiltin ·))

def superclasses (e : Element) : List Iri :=
  e.resources rdfsSubClassOf

def label? (e : Element) : Option String :=
  ((e.firstLiteral? rdfsLabel).map Literal.value).filter (· ≠ "")

/-- The text after the last number sign or slash. -/
def fieldLocalPart (field : List Char) : List Char :=
  (field.reverse.takeWhile fun c => !(c == '#' || c == '/')).reverse

/-- The value of the first statement whose predicate has the given IRI, else of the first one whose
predicate has the local name after the last number sign or slash of that text. -/
def valueOfField? (e : Element) (field : String) : Option Term :=
  let name := String.ofList (fieldLocalPart field.toList)
  let byIri := e.statements.find? (·.predicate.text = field)
  let byName := e.statements.find? (·.predicate.localName = name)
  (byIri.or byName).map (·.object)

end Element

end ContentImport.Ontology
