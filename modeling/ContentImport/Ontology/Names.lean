import ContentImport.Iri

/-!
The fixed names of an ontology: those of the RDF, RDFS, OWL and XSD vocabularies, and the anchors
under which an ontology puts what is to be imported.
-/

set_option autoImplicit false
set_option relaxedAutoImplicit false

namespace ContentImport.Ontology

def rdf : String := "http://www.w3.org/1999/02/22-rdf-syntax-ns#"

def rdfs : String := "http://www.w3.org/2000/01/rdf-schema#"

def owl : String := "http://www.w3.org/2002/07/owl#"

def xsd : String := "http://www.w3.org/2001/XMLSchema#"

/-- Whether a name belongs to one of the four vocabularies. -/
def isBuiltin (iri : Iri) : Bool :=
  [rdf, rdfs, owl, xsd].any fun ns => ns.toList.isPrefixOf iri.text.toList

def rdfType : Iri :=
  ⟨"http://www.w3.org/1999/02/22-rdf-syntax-ns#type", by decide +kernel⟩

def rdfXmlLiteral : Iri :=
  ⟨"http://www.w3.org/1999/02/22-rdf-syntax-ns#XMLLiteral", by decide +kernel⟩

def rdfsSubClassOf : Iri :=
  ⟨"http://www.w3.org/2000/01/rdf-schema#subClassOf", by decide +kernel⟩

def rdfsSubPropertyOf : Iri :=
  ⟨"http://www.w3.org/2000/01/rdf-schema#subPropertyOf", by decide +kernel⟩

/-- The property that gives a resource its name for readers. -/
def rdfsLabel : Iri :=
  ⟨"http://www.w3.org/2000/01/rdf-schema#label", by decide +kernel⟩

/-- The property that names the subject of an annotated statement. -/
def owlAnnotatedSource : Iri :=
  ⟨"http://www.w3.org/2002/07/owl#annotatedSource", by decide +kernel⟩

/-- The property that names the predicate of an annotated statement. -/
def owlAnnotatedProperty : Iri :=
  ⟨"http://www.w3.org/2002/07/owl#annotatedProperty", by decide +kernel⟩

/-- The property that names the object of an annotated statement. -/
def owlAnnotatedTarget : Iri :=
  ⟨"http://www.w3.org/2002/07/owl#annotatedTarget", by decide +kernel⟩

def xsdDateTime : Iri :=
  ⟨"http://www.w3.org/2001/XMLSchema#dateTime", by decide +kernel⟩

/-- The namespace in which anchors are looked for unless another one is chosen. -/
def anchorNamespace : String := "http://www.lha.org/duo#"

/-- The anchor classes and marker properties of an ontology. What lies below `node` becomes
content, what lies below `vocabulary` becomes taxonomy. -/
structure Anchors where
  node : Iri
  vocabulary : Iri
  file : Iri
  entity : Iri
  title : Iri
  pathAlias : Iri
  content : Iri
  summary : Iri
  refNum : Iri
  uri : Iri
  /-- The marker of annotation fields, which also names the property of a target on an axiom. -/
  annotationField : Iri
  datatypeField : Iri
  objectField : Iri
  deriving DecidableEq

def Anchors.inNamespace (ns : String) : Except InvalidIri Anchors := do
  let name := Iri.inNamespace ns
  pure {
    node := ← name "Node"
    vocabulary := ← name "Vocabulary"
    file := ← name "File"
    entity := ← name "Entity"
    title := ← name "title"
    pathAlias := ← name "alias"
    content := ← name "content"
    summary := ← name "summary"
    refNum := ← name "ref_num"
    uri := ← name "uri"
    annotationField := ← name "field"
    datatypeField := ← name "literal_field"
    objectField := ← name "reference_field" }

end ContentImport.Ontology
