import ContentImport.Ontology.FieldProperty

/-!
What two descriptions of a resource say together. Each question that is put to a description has one
answer for both of them, found from the answers of the two: values follow each other, and lists
without repetition are joined.
-/

set_option autoImplicit false
set_option relaxedAutoImplicit false

namespace ContentImport.Ontology.Element

variable (e other : Element)

theorem merge_assoc (last : Element) : (e.merge other).merge last = e.merge (other.merge last) := by
  simp only [merge, Distinct.addAll_addAll, List.append_assoc]

theorem values_merge (p : Iri) : (e.merge other).values p = e.values p ++ other.values p := by
  simp only [values, merge, List.filter_append, List.map_append]

private theorem hasValue_merge (p : Iri) :
    (e.merge other).hasValue p = (e.hasValue p || other.hasValue p) := by
  rw [hasValue, values_merge, hasValue, hasValue]
  cases e.values p <;> rfl

private theorem resources_merge (p : Iri) :
    (e.merge other).resources p = Distinct.addAll (e.resources p) (other.resources p) := by
  rw [resources, values_merge, List.filterMap_append, Distinct.ofList_append]
  exact (Distinct.addAll_addAll _ [] _).symm

theorem superclasses_merge :
    (e.merge other).superclasses = Distinct.addAll e.superclasses other.superclasses :=
  resources_merge e other rdfsSubClassOf

theorem mem_types_merge (c : Iri) :
    c ∈ (e.merge other).types ↔ c ∈ e.types ∨ c ∈ other.types := by
  simp only [types, resources_merge, Distinct.mem_ofList, List.mem_filter, List.mem_append,
    Distinct.mem_addAll, or_and_right]
  simp only [merge, Distinct.mem_addAll, or_and_right]
  exact or_or_or_comm

theorem hasKind_merge (kind : ElementKind) :
    (e.merge other).hasKind kind = (e.hasKind kind || other.hasKind kind) := by
  have declared : (e.merge other).declared.any kind.isDeclaredBy =
      (e.declared.any kind.isDeclaredBy || other.declared.any kind.isDeclaredBy) :=
    Distinct.any_addAll kind.isDeclaredBy e.declared other.declared
  rw [hasKind, declared, values_merge, List.filterMap_append, List.any_append, hasKind, hasKind]
  ac_rfl

theorem isPartOf_merge : FieldProperty.isPartOf (e.merge other) =
    (FieldProperty.isPartOf e || FieldProperty.isPartOf other) := by
  simp only [FieldProperty.isPartOf, FieldCategory.all, List.any_cons, List.any_nil, hasKind_merge,
    hasValue_merge]
  ac_rfl

end ContentImport.Ontology.Element
