import ContentImport.Ontology.Element

/-!
Field properties: the properties whose values become fields of a node. A declared property is one
when it is put below the marker of its category.
-/

set_option autoImplicit false
set_option relaxedAutoImplicit false

namespace ContentImport.Ontology

/-- The kinds of properties that give fields. -/
inductive FieldCategory where
  | annotating
  | datatype
  | object
  deriving DecidableEq, Repr

namespace FieldCategory

def all : List FieldCategory := [.annotating, .datatype, .object]

def declaringKind : FieldCategory → ElementKind
  | .annotating => .annotationProperty
  | .datatype => .datatypeProperty
  | .object => .objectProperty

/-- The property that the properties of the category are put below. -/
def marker (anchors : Anchors) : FieldCategory → Iri
  | .annotating => anchors.annotationField
  | .datatype => anchors.datatypeField
  | .object => anchors.objectField

end FieldCategory

/-- A property whose values become a field. -/
structure FieldProperty where
  iri : Iri
  category : FieldCategory
  deriving DecidableEq

namespace FieldProperty

def ofElement? (anchors : Anchors) (category : FieldCategory) (e : Element) :
    Option FieldProperty :=
  e.iri.bind fun iri =>
    if e.hasKind category.declaringKind &&
        (e.resources rdfsSubPropertyOf).contains (category.marker anchors) then
      some ⟨iri, category⟩
    else none

def isPartOf (e : Element) : Bool :=
  e.hasValue rdfsSubPropertyOf || FieldCategory.all.any fun c => e.hasKind c.declaringKind

end FieldProperty

end ContentImport.Ontology
