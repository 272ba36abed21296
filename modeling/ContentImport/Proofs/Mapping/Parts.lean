import ContentImport.Mapping.Nodes

/-!
What records are made of. A computation with messages has the value of its last part and the messages
of all of its parts. So the record of an entity and what is said of it are put together from its
fields, one after the other.
-/

set_option autoImplicit false
set_option relaxedAutoImplicit false

namespace ContentImport

open ContentImport.Ontology

namespace Noted

variable {α β : Type}

@[simp] theorem value_pure (a : α) : (pure a : Noted α).value = a := rfl

@[simp] theorem messages_pure (a : α) : (pure a : Noted α).messages = [] := rfl

@[simp] theorem value_bind (a : Noted α) (f : α → Noted β) :
    (a >>= f).value = (f a.value).value := rfl

@[simp] theorem messages_bind (a : Noted α) (f : α → Noted β) :
    (a >>= f).messages = a.messages ++ (f a.value).messages := rfl

@[simp] theorem value_map (f : α → β) (a : Noted α) : (f <$> a).value = f a.value := rfl

@[simp] theorem messages_map (f : α → β) (a : Noted α) : (f <$> a).messages = a.messages :=
  List.append_nil _

@[simp] theorem messages_warn (message : String) : (warn message).messages = [message] := rfl

@[simp] theorem value_mapM (f : α → Noted β) (xs : List α) :
    (xs.mapM f).value = xs.map fun x => (f x).value := by
  induction xs with
  | nil => rfl
  | cons x xs ih => simp [List.mapM_cons, ih]

@[simp] theorem messages_mapM (f : α → Noted β) (xs : List α) :
    (xs.mapM f).messages = xs.flatMap fun x => (f x).messages := by
  induction xs with
  | nil => rfl
  | cons x xs ih => simp [List.mapM_cons, ih]

end Noted

namespace Mapping.Source

variable (s : Source) (entity : Iri)

/-! ## Fields -/

def treeFields (e : Element) : List FieldRecord :=
  if s.options.linksClassTree then
    s.parentField entity e :: if e.hasKind .owlClass then [s.childField entity] else []
  else []

/-- The field of the tags of an entity, where it is among the vocabularies. -/
def tagFields : List FieldRecord :=
  if s.graph.descendsFrom entity s.anchors.vocabulary then
    [.named "field_tags" (.references (s.tagItems entity)) (some .taxonomyTerm)]
  else []

theorem value_nodeFields (e : Element) :
    (s.nodeFields entity e).value =
      s.bodyField e :: (s.treeFields entity e ++ s.tagFields entity ++
        (s.graph.fieldProperties.filter fun p => e.hasValue p.iri).filterMap fun p =>
          (s.nodeField? entity e p.iri ⟨s.graph.axiomsOf entity⟩).value) := by
  rw [nodeFields]
  simp only [Noted.value_bind, Noted.value_mapM, Noted.value_pure, List.filterMap_map]
  rfl

theorem messages_nodeFields (e : Element) :
    (s.nodeFields entity e).messages =
      (s.graph.fieldProperties.filter fun p => e.hasValue p.iri).flatMap fun p =>
        (s.nodeField? entity e p.iri ⟨s.graph.axiomsOf entity⟩).messages := by
  rw [nodeFields]
  simp only [Noted.messages_bind, Noted.messages_mapM, Noted.messages_pure, List.append_nil]

/-! ## Records -/

/-- All that is said of an entity. -/
def described : Element :=
  (s.graph.element? entity).getD (.empty (some entity))

def recordOf (bundle : String) : NodeRecord :=
  ((NodeRecord.titled ((firstText? (s.described entity) s.anchors.title).getD entity.localName)
    bundle (some entity.text)).withAlias
      (firstText? (s.described entity) s.anchors.pathAlias)).withFields
        (s.nodeFields entity (s.described entity)).value

variable {s entity}

theorem nodeRecord?_of_none (untyped : s.bundleOf? entity = none) :
    s.nodeRecord? entity = ⟨none, [unresolvedTypeMessage entity]⟩ := by
  rw [nodeRecord?, untyped]
  rfl

theorem nodeRecord?_of_bundle {bundle : String} (typed : s.bundleOf? entity = some bundle) :
    s.nodeRecord? entity =
      ⟨some (s.recordOf entity bundle), (s.nodeFields entity (s.described entity)).messages⟩ := by
  rw [nodeRecord?, typed]
  exact congrArg (Noted.mk _) (List.append_nil _)

theorem nodeRecord?_eq_some_iff {n : NodeRecord} : (s.nodeRecord? entity).value = some n ↔
    ∃ bundle, s.bundleOf? entity = some bundle ∧ s.recordOf entity bundle = n := by
  cases typed : s.bundleOf? entity with
  | none => simp [nodeRecord?_of_none typed]
  | some bundle => simp [nodeRecord?_of_bundle typed]

theorem fields_of_nodeRecord? {n : NodeRecord} (record : (s.nodeRecord? entity).value = some n) :
    n.fields = (s.nodeFields entity (s.described entity)).value := by
  obtain ⟨_, -, rfl⟩ := nodeRecord?_eq_some_iff.mp record
  rfl

theorem uuid_of_nodeRecord? {n : NodeRecord} (record : (s.nodeRecord? entity).value = some n) :
    n.uuid = entity.text := by
  obtain ⟨_, -, rfl⟩ := nodeRecord?_eq_some_iff.mp record
  rw [recordOf, NodeRecord.withFields, NodeRecord.withAlias, NodeRecord.titled, Option.filter_some,
    if_pos (decide_eq_true entity.text_ne_empty), Option.getD_some]

theorem title_ne_empty_of_nodeRecord? {n : NodeRecord}
    (record : (s.nodeRecord? entity).value = some n) : n.title ≠ "" := by
  obtain ⟨_, -, rfl⟩ := nodeRecord?_eq_some_iff.mp record
  change (firstText? (s.described entity) s.anchors.title).getD entity.localName ≠ ""
  cases titled : firstText? (s.described entity) s.anchors.title with
  | none => exact entity.localName_ne_empty
  | some title => exact of_decide_eq_true (Option.filter_eq_some_iff.mp titled).2

theorem value_nodeRecords (s : Source) :
    s.nodeRecords.value = (s.nodeEntities.map s.nodeRecord?).filterMap (·.value) := by
  simp only [nodeRecords, Noted.value_bind, Noted.value_mapM, Noted.value_pure, List.filterMap_map]
  rfl

theorem mem_nodeRecords_iff {n : NodeRecord} :
    n ∈ s.nodeRecords.value ↔ ∃ entity ∈ s.nodeEntities, (s.nodeRecord? entity).value = some n := by
  rw [value_nodeRecords, List.filterMap_map, List.mem_filterMap]
  rfl

end Mapping.Source

end ContentImport
