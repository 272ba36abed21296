import ContentImport.Graph
import ContentImport.Table

/-!
Answers by passes over the elements. A question keeps nothing but the answer being collected; one
that needs merged elements makes a second pass for the resources that the first one chose.
-/

set_option autoImplicit false
set_option relaxedAutoImplicit false

namespace ContentImport.Graph

open ContentImport.Ontology

namespace Scan

/-- The named resources whose element meets a condition. -/
def select (elements : List Element) (wanted : Element → Bool) : List Iri :=
  elements.foldl (fun seen e =>
    match e.iri with
    | some iri => if wanted e then Distinct.add seen iri else seen
    | none => seen) []

def element? (elements : List Element) (iri : Iri) : Option Element :=
  elements.foldl (fun found e =>
    if e.iri = some iri then some ((found.map (·.merge e)).getD e) else found) none

def merged (elements : List Element) (wanted : List Iri) : Table Iri Element :=
  elements.foldl (fun t e =>
    match e.iri with
    | some iri =>
      if iri ∈ wanted then Table.alter t iri fun found => (found.map (·.merge e)).getD e else t
    | none => t) []

def instances (elements : List Element) (c : Iri) : List Iri :=
  let candidates := select elements fun e => e.types.contains c
  let found := merged elements candidates
  candidates.filter fun iri => (Table.get? found iri).any (·.hasKind .namedIndividual)

def fieldProperties (anchors : Anchors) (elements : List Element) : List FieldProperty :=
  let candidates := select elements FieldProperty.isPartOf
  let found := merged elements candidates
  FieldCategory.all.flatMap fun category =>
    candidates.filterMap fun iri =>
      (Table.get? found iri).bind (FieldProperty.ofElement? anchors category)

end Scan

/-- The answers about elements by passes over them. -/
def scanned (anchors : Anchors) (notices : List String) (elements : List Element) : Graph where
  strategy := .streaming
  element? := Scan.element? elements
  directSubclasses c := Scan.select elements fun e => e.superclasses.contains c
  ofKind kind := Scan.select elements fun e => e.hasKind kind
  instances := Scan.instances elements
  axiomsOf source :=
    (elements.filterMap (AnnotatedAxiom.ofElement? anchors)).filter (·.source = source)
  fieldProperties := Scan.fieldProperties anchors elements
  linked := Distinct.ofList (elements.flatMap Element.linked)
  notices

end ContentImport.Graph
