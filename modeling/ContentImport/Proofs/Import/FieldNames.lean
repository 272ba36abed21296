import ContentImport.Proofs.Import.MixedReferences
import ContentImport.Proofs.Store.Identity

/-!
The names of fields. A node has fields of fixed names and one for each field property that gives it
one, under the local name of the property as far as names reach. Nothing keeps these apart: they are
distinct as far as the local names are, and then no field is lost in the store.
-/

set_option autoImplicit false
set_option relaxedAutoImplicit false

namespace ContentImport

open ContentImport.Ontology
open ContentImport.Store

theorem FieldRecord.named_fieldName {name : String} (short : name.length ≤ maxFieldNameLength)
    (value : FieldValue) (references : Option ReferenceKind) :
    (FieldRecord.named name value references).fieldName = name := by
  have whole : name.toList.take maxFieldNameLength = name.toList :=
    List.take_of_length_le (String.length_toList ▸ short)
  rw [FieldRecord.named, whole, String.ofList_toList]

namespace Mapping.Source

variable (s : Source) (entity : Iri)

variable {s entity}

end Mapping.Source

namespace PicturedSite

open LinkedSite MixedSite

def home : Element :=
  ⟨some LinkedSite.home, [individual, page],
    [⟨siteAnchors.content, .literal (.plain "Welcome")⟩, ⟨next, .resource news⟩,
      ⟨shows, .resource logo⟩]⟩

def elements : List Element :=
  [⟨some page, [], [⟨rdfsSubClassOf, .resource siteAnchors.node⟩]⟩,
    ⟨some next, [objectProperty], [⟨rdfsSubPropertyOf, .resource siteAnchors.objectField⟩]⟩,
    ⟨some shows, [objectProperty], [⟨rdfsSubPropertyOf, .resource siteAnchors.objectField⟩]⟩,
    home, ⟨some news, [individual, page], []⟩,
    ⟨some logo, [individual, siteAnchors.file],
      [⟨siteAnchors.uri, .literal (.plain "logo.png")⟩]⟩]

end PicturedSite

namespace CrowdedSite

def keyword : Iri := ⟨"a:keyword", by decide +kernel⟩

def annotationProperty : Iri :=
  ⟨"http://www.w3.org/2002/07/owl#AnnotationProperty", by decide +kernel⟩

end CrowdedSite

end ContentImport
