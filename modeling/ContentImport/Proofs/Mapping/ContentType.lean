import ContentImport.Proofs.Hierarchy.Subclass
import ContentImport.Proofs.Mapping.Messages

/-!
Content types. Whatever is selected to become a node lies below a class directly below the node
anchor: the last step of a path up to the anchor leaves from one. So each selected entity has a
content type and becomes one record, and no node is left out for want of one.
-/

set_option autoImplicit false
set_option relaxedAutoImplicit false

namespace ContentImport

open ContentImport.Ontology
open Relation

namespace Mapping

namespace Source

variable {s : Source} {entity : Iri}

private theorem bundleOf?_isSome {c : Iri} (below : c ∈ s.graph.directSubclasses s.anchors.node)
    (descends : s.graph.descendsFrom entity c = true) : (s.bundleOf? entity).isSome = true := by
  rw [bundleOf?, Option.isSome_map]
  exact List.find?_isSome.mpr ⟨c, below, descends⟩

private theorem bundleOf?_class (coherent : s.graph.Coherent) (selected : entity ∈ s.classEntities) :
    (s.bundleOf? entity).isSome = true := by
  unfold classEntities at selected
  split at selected
  · obtain ⟨c, below, chosen⟩ := List.mem_flatMap.mp selected
    have found : entity ∈ s.graph.allSubclasses c := by
      split at chosen
      · exact (List.mem_filter.mp chosen).1
      · exact chosen
    obtain ⟨differs, path⟩ := coherent.mem_allSubclasses_iff.mp found
    refine bundleOf?_isSome below ?_
    rw [Graph.descendsFrom, coherent.isBelow_iff.mpr ⟨Ne.symm differs, path⟩, Bool.or_true]
  · cases selected

private theorem bundleOf?_individual (coherent : s.graph.Coherent)
    (selected : entity ∈ s.individualEntities) : (s.bundleOf? entity).isSome = true := by
  obtain ⟨-, chosen⟩ := List.mem_filter.mp selected
  simp only [Bool.and_eq_true, Bool.not_eq_true', List.contains_eq_mem, decide_eq_false_iff_not]
    at chosen
  obtain ⟨isInstance, indirect⟩ := chosen
  obtain ⟨type, typed, related⟩ := coherent.isInstance_iff.mp isInstance
  have differs : type ≠ s.anchors.node := fun same => indirect (same ▸ typed)
  -- The class that the last step up to the anchor leaves from is the type or above it.
  obtain ⟨c, path, last⟩ := TransGen.tail'_iff.mp (related.resolve_left differs)
  refine bundleOf?_isSome ((coherent.converse _ _).mpr last) ?_
  have covered : type = c ∨ s.graph.LeadsUp type c := by
    rcases reflTransGen_iff_eq_or_transGen.mp path with same | above
    · exact .inl same.symm
    · exact .inr above
  rw [Graph.descendsFrom, coherent.isInstance_iff.mpr ⟨type, typed, covered⟩, Bool.true_or]

private theorem bundleOf?_isSome_of_mem (coherent : s.graph.Coherent)
    (selected : entity ∈ s.nodeEntities) :
    (s.bundleOf? entity).isSome = true := by
  rcases List.mem_append.mp (Distinct.mem_ofList.mp selected) with ofClass | ofIndividual
  · exact bundleOf?_class coherent ofClass
  · exact bundleOf?_individual coherent ofIndividual

private theorem nodeRecord?_typed (typed : (s.bundleOf? entity).isSome = true) :
    (∃ n, (s.nodeRecord? entity).value = some n ∧ n.uuid = entity.text) ∧
      ∀ m ∈ (s.nodeRecord? entity).messages, ValueNotice m := by
  obtain ⟨bundle, found⟩ := Option.isSome_iff_exists.mp typed
  have record : (s.nodeRecord? entity).value = some (s.recordOf entity bundle) :=
    nodeRecord?_eq_some_iff.mpr ⟨bundle, found, rfl⟩
  refine ⟨⟨_, record, uuid_of_nodeRecord? record⟩, fun m raised => ?_⟩
  rw [nodeRecord?_of_bundle found] at raised
  exact s.valueNotice_of_mem_nodeFields entity raised

/-- Every entity that is selected to become a node has a record. -/
theorem exists_nodeRecord?_of_mem (coherent : s.graph.Coherent)
    (selected : entity ∈ s.nodeEntities) : ∃ n, (s.nodeRecord? entity).value = some n := by
  obtain ⟨⟨n, present, -⟩, -⟩ := nodeRecord?_typed (bundleOf?_isSome_of_mem coherent selected)
  exact ⟨n, present⟩

theorem nodup_uuids (s : Source) :
    (((s.nodeEntities.map s.nodeRecord?).filterMap (·.value)).map (·.uuid)).Nodup := by
  rw [List.filterMap_map, List.map_filterMap]
  refine (Distinct.nodup_ofList _).filterMap ?_
  intro a b uuid first second
  obtain ⟨n, present, named⟩ := Option.map_eq_some_iff.mp first
  obtain ⟨m, present', named'⟩ := Option.map_eq_some_iff.mp second
  apply Iri.eq_of_text
  rw [← uuid_of_nodeRecord? present, ← uuid_of_nodeRecord? present', named, named']

end Source

open Source

private theorem head?_unresolvedTypeMessage (entity : Iri) :
    (unresolvedTypeMessage entity).toList.head? = some 'C' := by
  have first : "Content type of '".toList.head? = some 'C' := by decide
  unfold unresolvedTypeMessage
  simp only [String.toList_append, List.head?_append, first, Option.some_or]

private theorem ne_unresolvedTypeMessage {m : String} {c : Char} (begins : m.toList.head? = some c)
    (differs : c ≠ 'C') (entity : Iri) : m ≠ unresolvedTypeMessage entity := by
  rintro rfl
  rw [head?_unresolvedTypeMessage] at begins
  exact differs (Option.some.inj begins).symm

private theorem ValueNotice.ne_unresolvedType {m : String} (notice : ValueNotice m) (entity : Iri) :
    m ≠ unresolvedTypeMessage entity := by
  have value : "Entity '".toList.head? = some 'E' := by decide
  have file : "File '".toList.head? = some 'F' := by decide
  have target : "Nonexistent entity '".toList.head? = some 'N' := by decide
  cases notice with
  | unnamed =>
    refine ne_unresolvedTypeMessage (c := 'E') ?_ (by decide) entity
    unfold unnamedValueMessage
    simp only [String.toList_append, List.head?_append, value, Option.some_or]
  | missing =>
    refine ne_unresolvedTypeMessage (c := 'E') ?_ (by decide) entity
    unfold missingValueMessage
    simp only [String.toList_append, List.head?_append, value, Option.some_or]
  | missingUri =>
    refine ne_unresolvedTypeMessage (c := 'F') ?_ (by decide) entity
    unfold missingUriMessage
    simp only [String.toList_append, List.head?_append, file, Option.some_or]
  | nonexistent =>
    refine ne_unresolvedTypeMessage (c := 'N') ?_ (by decide) entity
    unfold nonexistentMessage
    simp only [String.toList_append, List.head?_append, target, Option.some_or]

private theorem StoreNotice.ne_unresolvedType {m : String} (notice : StoreNotice m) (entity : Iri) :
    m ≠ unresolvedTypeMessage entity := by
  intro same
  have small := notice.isOfStore
  rw [same, (SourceNotice.unresolvedType entity).isOfStore] at small
  cases small

/-- In every ontology and for every choice of what becomes a node, each selected entity has a
content type and gives one record, in order and under its IRI, no two under one; and neither mapping
the nodes nor writing them says of any entity that it has no content type. -/
theorem nodeRecords_complete (strategy : AccessStrategy) (anchors : Anchors) (notices : List String)
    (elements : List Element) (options : NodeOptions) :
    let s : Source := ⟨.ofElements strategy anchors notices elements, anchors, options⟩
    (∀ entity ∈ s.nodeEntities, (s.bundleOf? entity).isSome = true) ∧
      s.nodeRecords.value.map (·.uuid) = s.nodeEntities.map (·.text) ∧
      (s.nodeRecords.value.map (·.uuid)).Nodup ∧
      (∀ entity, unresolvedTypeMessage entity ∉ s.nodeRecords.messages) ∧
      ∀ (p : Progress) (entity : Iri),
        unresolvedTypeMessage entity ∈ (p.writeNodes (.ontology s)).2.warnings.messages →
          unresolvedTypeMessage entity ∈ p.warnings.messages := by
  intro s
  have coherent : s.graph.Coherent := Graph.ofElements_coherent strategy anchors notices elements
  have typed : ∀ entity ∈ s.nodeEntities, (s.bundleOf? entity).isSome = true :=
    fun entity selected => bundleOf?_isSome_of_mem coherent selected
  have records : s.nodeRecords.value.map (·.uuid) = s.nodeEntities.map (·.text) := by
    have each : ∀ entity ∈ s.nodeEntities,
        (s.nodeRecord? entity).value.map (·.uuid) = some entity.text := by
      intro entity selected
      obtain ⟨⟨n, present, uuid⟩, -⟩ := nodeRecord?_typed (typed entity selected)
      rw [present, Option.map_some, uuid]
    calc s.nodeRecords.value.map (·.uuid)
        = s.nodeEntities.filterMap fun e => (s.nodeRecord? e).value.map (·.uuid) := by
          simp only [nodeRecords, Noted.value_bind, Noted.value_mapM, Noted.value_pure,
            List.filterMap_map, List.map_filterMap, Function.comp_apply, id]
      _ = s.nodeEntities.filterMap fun e => some e.text := List.filterMap_congr each
      _ = s.nodeEntities.map (·.text) := congrFun List.filterMap_eq_map' _
  have distinct : (s.nodeRecords.value.map (·.uuid)).Nodup := by
    rw [records]
    refine (List.nodup_map_iff_inj_on (Distinct.nodup_ofList _)).mpr ?_
    exact fun a _ b _ same => Iri.eq_of_text same
  have silent : ∀ other ∈ s.nodeEntities, ∀ entity,
      unresolvedTypeMessage entity ∉ (s.nodeRecord? other).messages := by
    intro other selected entity raised
    have notice := (nodeRecord?_typed (typed other selected)).2 _ raised
    exact notice.ne_unresolvedType entity rfl
  refine ⟨typed, records, distinct, ?_, ?_⟩
  · intro entity raised
    unfold nodeRecords at raised
    simp only [Noted.messages_bind, Noted.messages_mapM, Noted.messages_pure, List.append_nil,
      List.mem_flatMap] at raised
    obtain ⟨other, selected, said⟩ := raised
    exact silent other selected entity said
  · intro p entity raised
    rcases Progress.mem_warnings_writeNodes raised with before | ⟨entry, listed, said⟩ | stores
    · exact before
    · obtain ⟨other, selected, rfl⟩ := List.mem_map.mp listed
      exact absurd said (silent other selected entity)
    · exact absurd rfl (StoreNotice.ne_unresolvedType stores entity)

end Mapping

end ContentImport
