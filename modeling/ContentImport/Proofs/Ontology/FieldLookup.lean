import ContentImport.Ontology.Element
import ContentImport.Proofs.Iri.LocalName

/-!
Fields named by an IRI. The value of such a field is that of the first property of the IRI, else of
the first property whose local name is the last segment of the IRI. Main statement: this is the first
property with the local name of the IRI, in every element, exactly where the IRI is not miscut.
-/

set_option autoImplicit false
set_option relaxedAutoImplicit false

namespace ContentImport.Ontology.Element

open ContentImport.Iri (IsLastSegment Miscut isLastSegment_iff isLastSegment_localPart_iff
  colon_mem_of_isAbsolute exists_same_localName)

/-- The values of the properties of a local name, in document order. -/
def valuesNamed (e : Element) (name : String) : List Term :=
  (e.statements.filter (·.predicate.localName = name)).map (·.object)

private theorem isLastSegment_fieldLocalPart (s : List Char) : IsLastSegment s (fieldLocalPart s) :=
  isLastSegment_iff.mpr rfl

private theorem exists_lastSegment (text : String) :
    ∃ segment : String, IsLastSegment text.toList segment.toList := by
  refine ⟨String.ofList (fieldLocalPart text.toList), ?_⟩
  rw [String.toList_ofList]
  exact isLastSegment_fieldLocalPart text.toList

private theorem valueOfField?_eq (e : Element) {f : Iri} {segment : String}
    (last : IsLastSegment f.text.toList segment.toList) :
    e.valueOfField? f.text = (e.values f ++ e.valuesNamed segment).head? := by
  have name : String.ofList (fieldLocalPart f.text.toList) = segment := by
    rw [(isLastSegment_fieldLocalPart _).unique last, String.ofList_toList]
  have same : (fun s : Statement => decide (s.predicate.text = f.text)) =
      fun s => decide (s.predicate = f) := by
    funext s
    exact decide_eq_decide.mpr ⟨Iri.eq_of_text, congrArg Iri.text⟩
  rw [valueOfField?, name, same, List.head?_append, values, valuesNamed, List.head?_map,
    List.head?_map, List.head?_filter, List.head?_filter, Option.map_or]

private theorem exists_lost_of_miscut {f : Iri} (miscut : Miscut f.text.toList) :
    ∃ e : Element, e.valueOfField? f.text = none ∧ e.valuesNamed f.localName ≠ [] := by
  obtain ⟨other, differs, named⟩ := exists_same_localName miscut
  obtain ⟨segment, last⟩ := exists_lastSegment f.text
  have unnamed : other.localName ≠ segment := by
    rintro rfl
    refine miscut.not_isLastSegment (colon_mem_of_isAbsolute f.absolute) ?_
    rwa [named, Iri.localName, String.toList_ofList] at last
  refine ⟨⟨none, [], [⟨other, .literal (.plain "")⟩]⟩, ?_, ?_⟩
  · rw [valueOfField?_eq _ last]
    simp [values, valuesNamed, differs, unnamed]
  · simp [valuesNamed, named]

/-- A field named by an IRI has the value of the first property of the IRI, else of the first one
whose local name is the last segment of the IRI. This is the first one with the local name of the
IRI, in every element, exactly where the IRI is not miscut. -/
theorem valueOfField?_by_last_segment (f : Iri) :
    (∃ segment : String, IsLastSegment f.text.toList segment.toList ∧
        ∀ e : Element, e.valueOfField? f.text = (e.values f ++ e.valuesNamed segment).head?) ∧
      ((∀ e : Element, e.valueOfField? f.text =
          (e.values f ++ e.valuesNamed f.localName).head?) ↔ ¬ Miscut f.text.toList) := by
  obtain ⟨segment, last⟩ := exists_lastSegment f.text
  refine ⟨⟨segment, last, fun e => valueOfField?_eq e last⟩, ?_, ?_⟩
  · intro agrees miscut
    obtain ⟨e, lost, held⟩ := exists_lost_of_miscut miscut
    rw [agrees e, List.head?_eq_none_iff, List.append_eq_nil_iff] at lost
    exact held lost.2
  · intro fits e
    have colon := colon_mem_of_isAbsolute f.absolute
    refine valueOfField?_eq e ?_
    rw [Iri.localName, String.toList_ofList]
    exact (isLastSegment_localPart_iff colon).mpr fits

namespace Person

def shortName : Iri := ⟨"ex:name", by decide +kernel⟩

def fullName : Iri := ⟨"http://example.org/p#full/name", by decide +kernel⟩

def text (t : String) : Term := .literal (.plain t)

/-- A person with two names, each under another IRI of the same local name. -/
def ada : Element where
  iri := none
  declared := []
  statements :=
    [⟨⟨"http://www.lha.org/duo#name", by decide +kernel⟩, text "Ada"⟩,
      ⟨⟨"http://example.org/q#full/name", by decide +kernel⟩, text "Ada Lovelace"⟩]

end Person

open Person in
/-- One name is not found by its local name, and in place of the other the first one is. -/
theorem valueOfField?_by_last_segment_ada :
    (ada.values shortName ++ ada.valuesNamed shortName.localName).head? = some (text "Ada") ∧
      ada.valueOfField? shortName.text = none ∧ Miscut shortName.text.toList ∧
      (ada.values fullName ++ ada.valuesNamed fullName.localName).head? =
        some (text "Ada Lovelace") ∧
      ada.valueOfField? fullName.text = some (text "Ada") ∧ Miscut fullName.text.toList := by
  have miscut (f : Iri) (differs : ada.valueOfField? f.text ≠
      (ada.values f ++ ada.valuesNamed f.localName).head?) : Miscut f.text.toList := by
    by_contra fits
    exact differs ((valueOfField?_by_last_segment f).2.mpr fits ada)
  exact ⟨by decide +kernel, by decide +kernel, miscut shortName (by decide +kernel),
    by decide +kernel, by decide +kernel, miscut fullName (by decide +kernel)⟩

end ContentImport.Ontology.Element
