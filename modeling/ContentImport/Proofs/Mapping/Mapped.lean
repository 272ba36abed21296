import ContentImport.Proofs.Mapping.ReferenceKinds
import ContentImport.Proofs.Record.Reread

/-!
The records that an ontology is mapped to. A field of references has a kind unless all of them are
literals, and no field but the body can be unset, which is the first one of each node.
-/

set_option autoImplicit false
set_option relaxedAutoImplicit false

namespace ContentImport.Mapping

open ContentImport.Ontology

namespace Source

variable {s : Source} {entity : Iri}

private theorem mapped_of_nodeField? {e : Element} {property : Iri} {axioms : AxiomIndex}
    {f : FieldRecord} (field : (s.nodeField? entity e property axioms).value = some f) :
    f.Mapped ∧ f.isUnset = false := by
  rcases nodeField?_cases field with ⟨texts, rfl⟩ | ⟨items, -, -, rfl⟩
  · exact ⟨.literals _ _, rfl⟩
  · refine ⟨?_, rfl⟩
    cases last : (items.filterMap FieldItem.kind?).getLast? with
    | some kind => exact .references _ _ kind
    | none =>
      have plain := List.filterMap_eq_nil_iff.mp (List.getLast?_eq_none_iff.mp last)
      refine .texts _ _ fun item listed => ?_
      have none := plain item listed
      cases item with
      | literal text => exact ⟨text, rfl⟩
      | _ => cases none

private theorem mapped_of_mem_nodeFields (s : Source) (entity : Iri) (e : Element) :
    ∃ others, (s.nodeFields entity e).value = s.bodyField e :: others ∧
      ∀ f ∈ others, f.Mapped ∧ f.isUnset = false := by
  have referring : ∀ (name : String) (items : List FieldItem) (kind : ReferenceKind),
      (FieldRecord.named name (.references items) (some kind)).Mapped ∧
        (FieldRecord.named name (.references items) (some kind)).isUnset = false :=
    fun name items kind => ⟨.references name items kind, rfl⟩
  obtain ⟨others, fields, origin⟩ := nodeFields_cases s entity e
  refine ⟨others, fields, fun f member => ?_⟩
  rcases (origin f).mp member with ⟨-, rfl | ⟨-, rfl⟩⟩ | ⟨-, rfl⟩ | ⟨p, -, -, field⟩
  · exact referring _ _ _
  · exact referring _ _ _
  · exact referring _ _ _
  · exact mapped_of_nodeField? field

theorem mapped_of_nodeRecord? {n : NodeRecord} (record : (s.nodeRecord? entity).value = some n) :
    n.Mapped := by
  obtain ⟨others, fields, set⟩ := s.mapped_of_mem_nodeFields entity (s.described entity)
  have parts : n.fields = s.bodyField (s.described entity) :: others :=
    (fields_of_nodeRecord? record).trans fields
  refine ⟨?_, ?_, ?_, ?_⟩
  · rw [parts]
    exact List.forall_mem_cons.mpr ⟨.body _ _, fun f held => (set f held).1⟩
  · rw [parts]
    exact fun f held => (set f held).2
  · obtain ⟨_, -, rfl⟩ := nodeRecord?_eq_some_iff.mp record
    intro empty
    have kept := (Option.filter_eq_some_iff.mp empty).2
    exact of_decide_eq_true kept rfl
  · rw [uuid_of_nodeRecord? record]
    exact entity.text_ne_empty

end Source

end ContentImport.Mapping
