import ContentImport.Graph
import ContentImport.Table

/-!
Answers from indexes. Each element is put into the indexes when it is read, before it is merged with
the other descriptions of its resource, so that lists follow the document.
-/

set_option autoImplicit false
set_option relaxedAutoImplicit false

namespace ContentImport.Graph

open ContentImport.Ontology

/-- What was indexed so far. -/
structure Index where
  merged : Table Iri Element
  subclasses : Table Iri (List Iri)
  typed : Table Iri (List Iri)
  kinds : List (ElementKind × List Iri)
  axiomsBySource : Table Iri (List AnnotatedAxiom)
  candidates : List Iri
  linked : List Iri

namespace Index

def empty : Index :=
  ⟨[], [], [], ElementKind.all.map (·, []), [], [], []⟩

/-- Put a resource into the lists of several keys. -/
def listUnder (t : Table Iri (List Iri)) (keys : List Iri) (iri : Iri) : Table Iri (List Iri) :=
  keys.foldl (fun t key => Table.alter t key fun listed => Distinct.add (listed.getD []) iri) t

/-- Index the axiom that an element describes, where it describes one. -/
def insertAxiom (anchors : Anchors) (index : Index) (e : Element) : Index :=
  match AnnotatedAxiom.ofElement? anchors e with
  | none => index
  | some a =>
    { index with
      axiomsBySource :=
        Table.alter index.axiomsBySource a.source fun listed => listed.getD [] ++ [a] }

def insertNamed (index : Index) (iri : Iri) (e : Element) : Index :=
  { index with
    merged := Table.alter index.merged iri fun found => (found.map (·.merge e)).getD e
    subclasses := listUnder index.subclasses e.superclasses iri
    typed := listUnder index.typed e.types iri
    kinds := index.kinds.map fun (kind, listed) =>
      (kind, if e.hasKind kind then Distinct.add listed iri else listed)
    candidates := if FieldProperty.isPartOf e then Distinct.add index.candidates iri
      else index.candidates
    linked := Distinct.addAll index.linked e.linked }

def insert (anchors : Anchors) (index : Index) (e : Element) : Index :=
  let index := insertAxiom anchors index e
  match e.iri with
  | none => index
  | some iri => insertNamed index iri e

def ofElements (anchors : Anchors) (elements : List Element) : Index :=
  elements.foldl (insert anchors) empty

def listed (t : Table Iri (List Iri)) (key : Iri) : List Iri :=
  (Table.get? t key).getD []

def fieldProperties (anchors : Anchors) (index : Index) : List FieldProperty :=
  FieldCategory.all.flatMap fun category =>
    index.candidates.filterMap fun iri =>
      (Table.get? index.merged iri).bind (FieldProperty.ofElement? anchors category)

end Index

def indexed (anchors : Anchors) (notices : List String) (elements : List Element) : Graph :=
  let index := Index.ofElements anchors elements
  { strategy := .inMemory
    element? := Table.get? index.merged
    directSubclasses := Index.listed index.subclasses
    ofKind := fun kind => ((index.kinds.find? (·.1 = kind)).map (·.2)).getD []
    instances := fun c => (Index.listed index.typed c).filter fun iri =>
      (Table.get? index.merged iri).any (·.hasKind .namedIndividual)
    axiomsOf := fun source => (Table.get? index.axiomsBySource source).getD []
    fieldProperties := index.fieldProperties anchors
    linked := index.linked
    notices }

end ContentImport.Graph
