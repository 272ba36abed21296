import ContentImport.Ontology.Annotation
import ContentImport.Ontology.FieldProperty

/-!
What can be asked of an ontology. Lists are in document order and without repetition. How the
answers are found is the matter of the modules below this one.
-/

set_option autoImplicit false
set_option relaxedAutoImplicit false

namespace ContentImport

open ContentImport.Ontology

/-- How the answers about an ontology are found. -/
inductive AccessStrategy where
  /-- From indexes that are built once. -/
  | inMemory
  /-- By a pass over the document for each question. -/
  | streaming
  deriving DecidableEq, Repr

namespace AccessStrategy

/-- Documents larger than the threshold are streamed. -/
def forSize (size threshold : Nat) : AccessStrategy :=
  if size > threshold then .streaming else .inMemory

def displayName : AccessStrategy → String
  | .inMemory => "in-memory"
  | .streaming => "streaming"

def tag : AccessStrategy → String
  | .inMemory => "in_memory"
  | .streaming => "streaming"

end AccessStrategy

/-- The answers about an ontology. -/
structure Graph where
  strategy : AccessStrategy
  /-- All that is said of a resource, merged over its descriptions. -/
  element? : Iri → Option Element
  /-- The classes put below a class. -/
  directSubclasses : Iri → List Iri
  /-- The resources declared to be of a kind. -/
  ofKind : ElementKind → List Iri
  /-- The named individuals of a class. -/
  instances : Iri → List Iri
  /-- The axioms about a source, in the order in which they were found. -/
  axiomsOf : Iri → List AnnotatedAxiom
  /-- The field properties, by category. -/
  fieldProperties : List FieldProperty
  /-- The resources on either side of a subclass statement. -/
  linked : List Iri
  /-- The notices about statements that were left out. -/
  notices : List String

namespace Graph

def directSuperclasses (g : Graph) (iri : Iri) : List Iri :=
  ((g.element? iri).map Element.superclasses).getD []

def types (g : Graph) (iri : Iri) : List Iri :=
  ((g.element? iri).map Element.types).getD []

def displayName (g : Graph) (iri : Iri) : String :=
  ((g.element? iri).bind Element.label?).getD iri.localName

end Graph

/-- The resources that an element puts on either side of a subclass statement. -/
def Ontology.Element.linked (e : Element) : List Iri :=
  match e.iri, e.superclasses with
  | some iri, c :: cs => iri :: c :: cs
  | _, _ => []

end ContentImport
