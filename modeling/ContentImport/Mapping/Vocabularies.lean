import ContentImport.Mapping.Source
import ContentImport.Record

/-!
Vocabularies of an ontology: the classes directly below the vocabulary anchor, with the classes
below each of them as its tags.
-/

set_option autoImplicit false
set_option relaxedAutoImplicit false

namespace ContentImport.Mapping.Source

open ContentImport.Ontology

def vocabularyClasses (s : Source) : List Iri :=
  s.graph.directSubclasses s.anchors.vocabulary

/-- The first vocabulary class that a class lies below. -/
def vocabularyForTag? (s : Source) (tag : Iri) : Option Iri :=
  s.vocabularyClasses.find? fun vocabulary => tag ∈ s.graph.allSubclasses vocabulary

/-- The names of the classes that a tag is put below, except the anchor and those directly below
it. -/
def parentTagNames (s : Source) (tag : Iri) : List String :=
  let root := s.anchors.vocabulary
  ((s.graph.directSuperclasses tag).filter fun parent =>
    parent ≠ root && !s.graph.isDirectlyBelow parent root).map s.graph.displayName

def tagRecord (s : Source) (vocabularyId : String) (tag : Iri) : TagRecord :=
  ⟨vocabularyId, s.graph.displayName tag, s.parentTagNames tag⟩

def vocabularyRecord (s : Source) (c : Iri) : VocabularyRecord :=
  ⟨c.localName, c.localName, (s.graph.allSubclasses c).map (s.tagRecord c.localName)⟩

def vocabularyRecords (s : Source) : List VocabularyRecord :=
  s.vocabularyClasses.map s.vocabularyRecord

end ContentImport.Mapping.Source
