import ContentImport.Proofs.Import.TagReferences

/-!
Records that a store can take. A store refuses a node without a title and passes over a tag without a
name. No ontology leads to such records: where what it says gives no text, the local name of a resource
takes its place, and every resource has one.
-/

set_option autoImplicit false
set_option relaxedAutoImplicit false

namespace ContentImport

open ContentImport.Ontology
open ContentImport.Store

/-- A node that lacks none of its names, with fields whose names are no longer than a repository
allows. -/
structure NodeRecord.Acceptable (n : NodeRecord) : Prop where
  titled : n.title ≠ ""
  identified : n.uuid ≠ ""
  typed : n.bundle ≠ ""
  named : ∀ f ∈ n.fields, f.fieldName ≠ "" ∧ f.fieldName.length ≤ 32

/-- A vocabulary that lacks no name, neither its own nor one of its tags. -/
structure VocabularyRecord.Acceptable (v : VocabularyRecord) : Prop where
  identified : v.vocabularyId ≠ ""
  named : ∀ tag ∈ v.tags, tag.name ≠ ""

/-! ## Records of an ontology -/

private theorem FieldRecord.named_acceptable {name : String} (given : name ≠ "")
    (value : FieldValue)
    (references : Option ReferenceKind) :
    let f := FieldRecord.named name value references
    f.fieldName ≠ "" ∧ f.fieldName.length ≤ 32 := by
  constructor
  · have characters : name.toList ≠ [] := fun none => given (String.toList_eq_nil_iff.mp none)
    intro empty
    rw [FieldRecord.named, String.ofList_eq_empty_iff, List.take_eq_nil_iff] at empty
    exact empty.elim (by decide) characters
  · rw [FieldRecord.named, String.length_ofList]
    exact List.length_take_le _ _

namespace Mapping

private theorem bundleName_ne_empty {name : String} (given : name ≠ "") : bundleName name ≠ "" := by
  intro empty
  rw [bundleName, String.ofList_eq_empty_iff, List.map_eq_nil_iff] at empty
  exact given (String.toList_eq_nil_iff.mp empty)

namespace Source

variable {s : Source} {entity : Iri}

private theorem bundleOf?_ne_empty {bundle : String} (typed : s.bundleOf? entity = some bundle) :
    bundle ≠ "" := by
  obtain ⟨c, -, rfl⟩ := Option.map_eq_some_iff.mp typed
  exact bundleName_ne_empty c.localName_ne_empty

private theorem acceptable_of_mem_nodeFields {e : Element} {f : FieldRecord}
    (member : f ∈ (s.nodeFields entity e).value) :
    f.fieldName ≠ "" ∧ f.fieldName.length ≤ 32 := by
  obtain ⟨others, fields, origin⟩ := nodeFields_cases s entity e
  rw [fields] at member
  rcases List.mem_cons.mp member with rfl | other
  · exact FieldRecord.named_acceptable (by decide) _ _
  rcases (origin f).mp other with ⟨-, rfl | ⟨-, rfl⟩⟩ | ⟨-, rfl⟩ | ⟨p, -, -, field⟩
  · exact FieldRecord.named_acceptable (by decide) _ _
  · exact FieldRecord.named_acceptable (by decide) _ _
  · exact FieldRecord.named_acceptable (by decide) _ _
  · rcases nodeField?_cases field with ⟨texts, rfl⟩ | ⟨items, -, -, rfl⟩
    · exact FieldRecord.named_acceptable p.iri.localName_ne_empty _ _
    · exact FieldRecord.named_acceptable p.iri.localName_ne_empty _ _

private theorem acceptable_of_nodeRecord? {n : NodeRecord}
    (record : (s.nodeRecord? entity).value = some n) : n.Acceptable where
  titled := title_ne_empty_of_nodeRecord? record
  identified := uuid_of_nodeRecord? record ▸ entity.text_ne_empty
  typed := by
    obtain ⟨bundle, typed, rfl⟩ := nodeRecord?_eq_some_iff.mp record
    exact bundleOf?_ne_empty typed
  named := by
    rw [fields_of_nodeRecord? record]
    exact fun f member => acceptable_of_mem_nodeFields member

private theorem acceptable_of_mem_vocabularyRecords {v : VocabularyRecord}
    (listed : v ∈ s.vocabularyRecords) : v.Acceptable where
  identified := by
    obtain ⟨c, -, rfl⟩ := List.mem_map.mp listed
    exact c.localName_ne_empty
  named := fun _ => tag_name_ne_empty listed

end Source

end Mapping

/-! ## What a store does with them -/

namespace Store

variable {s t : Store}

private theorem createNode_error_of_titled {n : NodeRecord} (titled : n.title ≠ "") {e : StoreError}
    (refused : s.createNode n = (.error e, t)) :
    e = .duplicateNode n.uuid ∨ e = .unknownBundle n.bundle := by
  rw [createNode_eq, if_neg titled] at refused
  split at refused
  · exact .inl (Except.error.inj (Prod.mk.inj refused).1).symm
  · split at refused
    · next unknown =>
      obtain ⟨same, -⟩ := Prod.mk.inj refused
      exact .inr (Except.error.inj same ▸ bundleFields_error unknown)
    · cases refused

private theorem createTag_of_named (s : Store) (vocabularyId : String) {name : String}
    (named : name ≠ "") :
    (Table.holds s.repository.vocabularies vocabularyId = false ∧
        s.createTag vocabularyId name = .error (.unknownVocabulary vocabularyId)) ∨
      ∃ t, s.createTag vocabularyId name = .ok t ∧ t.lastId = s.lastId + 1 ∧
        Table.get? t.repository.tags t.lastId = some ⟨vocabularyId, name, []⟩ := by
  cases housed : Table.holds s.repository.vocabularies vocabularyId with
  | false => exact .inl ⟨rfl, by simp [createTag, named, housed]⟩
  | true =>
    refine .inr ⟨s.putTag vocabularyId name, ?_, rfl, ?_⟩
    · rw [createTag_eq name housed, addTag, if_neg named]
      rfl
    · exact (Table.get?_put _ _ _ _).trans (if_pos rfl)

private theorem WellFormed.name_mem_importVocabulary (wf : s.WellFormed) {v : VocabularyRecord}
    {tag : TagRecord} (listed : tag ∈ v.tags) (named : tag.name ≠ "") :
    tag.name ∈ (s.importVocabulary v).repository.tagNames v.vocabularyId := by
  rw [wf.tagNames_importVocabulary]
  refine Distinct.mem_addAll.mpr (.inr (List.mem_filter.mpr ⟨List.mem_map_of_mem listed, ?_⟩))
  simpa using named

end Store

/-- Whatever an ontology says and whichever resources become nodes, its records lack no name and its
field names are short enough. So no store refuses one of its nodes for want of a title, and none
passes over one of its tags: a tag is created, or its vocabulary is missing and the store says so. An
import, which creates the vocabulary first, leaves each tag of the record in it. -/
theorem Mapping.Source.records_acceptable (s : Source) :
    (∀ entity n, (s.nodeRecord? entity).value = some n → n.Acceptable) ∧
      (∀ n ∈ s.nodeRecords.value, n.Acceptable ∧ ∀ (store after : Store) (e : StoreError),
        store.createNode n = (.error e, after) →
          e = .duplicateNode n.uuid ∨ e = .unknownBundle n.bundle) ∧
      ∀ v ∈ s.vocabularyRecords, v.Acceptable ∧ ∀ tag ∈ v.tags, ∀ store : Store,
        ((Table.holds store.repository.vocabularies v.vocabularyId = false ∧
            store.createTag v.vocabularyId tag.name =
              .error (.unknownVocabulary v.vocabularyId)) ∨
          ∃ after, store.createTag v.vocabularyId tag.name = .ok after ∧
            after.lastId = store.lastId + 1 ∧
            Table.get? after.repository.tags after.lastId =
              some ⟨v.vocabularyId, tag.name, []⟩) ∧
        (Reachable store →
          tag.name ∈ (store.importVocabulary v).repository.tagNames v.vocabularyId) := by
  refine ⟨fun entity n => acceptable_of_nodeRecord?, ?_, ?_⟩
  · intro n listed
    obtain ⟨entity, -, record⟩ := mem_nodeRecords_iff.mp listed
    have acceptable := acceptable_of_nodeRecord? record
    exact ⟨acceptable, fun store after e => createNode_error_of_titled acceptable.titled⟩
  · intro v listed
    have acceptable := acceptable_of_mem_vocabularyRecords listed
    refine ⟨acceptable, fun tag among store => ?_⟩
    have named := acceptable.named tag among
    refine ⟨store.createTag_of_named v.vocabularyId named, fun reachable => ?_⟩
    exact reachable.sound.wellFormed.name_mem_importVocabulary among named

end ContentImport
