import ContentImport.Proofs.Import.TagReferences
import ContentImport.Proofs.Import.Unmodelled
import ContentImport.Proofs.Mapping.TreeLinks

/-!
References to parents. A class that is kept as a parent lies below the node anchor, but not directly.
The last step of a path from it up to the anchor leaves from a class directly below the anchor, so the
class is found from there again and becomes a node itself. A store without a content model takes all
nodes, and each parent then has the number of a stored one.
-/

set_option autoImplicit false
set_option relaxedAutoImplicit false

namespace ContentImport

open ContentImport.Ontology
open ContentImport.Store
open Relation

/-- An entry of a reference field is the number of a stored node, where the target is the node. -/
def NodeFound (r : Repository) (item : FieldItem) (entry : Option EntityId) : Prop :=
  ∃ id node, entry = some id ∧ Table.get? r.nodes id = some node ∧ item = .node node.uuid

namespace Mapping.Source

variable {s : Source} {entity : Iri}

/-! ## Parents -/

private theorem mem_nodeEntities_of_isInside (coherent : s.graph.Coherent)
    (classes : s.options.classesAsNodes = true) (whole : s.options.onlyLeafClasses = false)
    {c : Iri} (inside : s.IsInside c) : c ∈ s.nodeEntities := by
  obtain ⟨below, indirect⟩ := inside
  obtain ⟨-, path⟩ := coherent.isBelow_iff.mp below
  -- The class that the last step up to the anchor leaves from gives a content type.
  obtain ⟨top, upward, last⟩ := TransGen.tail'_iff.mp path
  have differs : c ≠ top := by
    rintro rfl
    rw [Graph.isDirectlyBelow, decide_eq_false_iff_not] at indirect
    exact indirect last
  have leads : s.graph.LeadsUp c top :=
    (reflTransGen_iff_eq_or_transGen.mp upward).resolve_left (Ne.symm differs)
  have found : c ∈ s.graph.allSubclasses top := coherent.mem_allSubclasses_iff.mpr ⟨differs, leads⟩
  have selected : c ∈ s.classEntities := by
    rw [classEntities, if_pos classes, whole]
    exact List.mem_flatMap.mpr ⟨top, (coherent.converse _ _).mpr last, found⟩
  exact Distinct.mem_ofList.mpr (List.mem_append_left _ selected)

private theorem parents_selected (coherent : s.graph.Coherent)
    (classes : s.options.classesAsNodes = true)
    (whole : s.options.onlyLeafClasses = false) {items : List FieldItem}
    (refers : (s.parentField entity (s.described entity)).value = .references items) :
    ∀ item ∈ items, ∃ p ∈ s.nodeEntities, item = .node p.text := by
  obtain rfl := FieldValue.references.inj refers
  intro item listed
  obtain ⟨p, kept, rfl⟩ := List.mem_map.mp listed
  have inside := (List.mem_filter.mp kept).2
  rw [Bool.and_eq_true, Bool.not_eq_true'] at inside
  exact ⟨p, mem_nodeEntities_of_isInside coherent classes whole inside, rfl⟩

private theorem fields_eq_of_linked (linked : s.options.linksClassTree = true) {n : NodeRecord}
    (record : (s.nodeRecord? entity).value = some n) :
    ∃ others, n.fields =
        [s.bodyField (s.described entity)] ++ s.parentField entity (s.described entity) :: others ∧
      ∀ f ∈ others, f.fieldName = "field_parent" → f ∈ s.propertyFields entity := by
  have child : (s.childField entity).fieldName = "field_child" :=
    FieldRecord.named_fieldName (by decide) _ _
  have tags : ∀ value kind, (FieldRecord.named "field_tags" value kind).fieldName = "field_tags" :=
    FieldRecord.named_fieldName (by decide)
  rw [fields_of_nodeRecord? record]
  refine ⟨(if (s.described entity).hasKind .owlClass then [s.childField entity] else []) ++
    s.tagFields entity ++ s.propertyFields entity, ?_, ?_⟩
  · rw [value_nodeFields, treeFields, if_pos linked]
    rfl
  · intro f member named
    rcases List.mem_append.mp member with fixed | property
    · rcases List.mem_append.mp fixed with ofClass | tagged
      · split at ofClass
        · rw [List.mem_singleton.mp ofClass, child] at named
          exact absurd named (by decide)
        · cases ofClass
      · rw [tagFields] at tagged
        split at tagged
        · rw [List.mem_singleton.mp tagged, tags] at named
          exact absurd named (by decide)
        · cases tagged
    · exact property

/-! ## Runs -/

section

variable {settings : ImportSettings} {store : Store}

private theorem found_of_unmodelled (coherent : s.graph.Coherent)
    (nodes : settings.importNodes = true)
    (reachable : Reachable store) (free : store.contentModel = [])
    (passed : ((ImportSource.ontology s).unresolved settings store).1 = none)
    (selected : entity ∈ s.nodeEntities) :
    let source := ImportSource.ontology s
    ∃ n created node, (s.nodeRecord? entity).value = some n ∧
      (n, created) ∈ (source.tagged settings store).store.accepted (source.recordsFor settings) ∧
      created.skippedFields = [] ∧
      (created.id, node) ∈ (source.unresolved settings store).2.store.repository.nodes ∧
      node.uuid = entity.text ∧
      (source.unresolved settings store).2.store.createdNodeId? entity.text = some created.id := by
  intro source
  have wf := reachable.sound.wellFormed
  obtain ⟨mark, journal⟩ := reachable.sound.journal
  have tagged := source.tagged_edits settings store
  have stored : (source.tagged settings store).storeNodes (source.entriesFor settings) =
      (none, (source.unresolved settings store).2) := Prod.ext passed rfl
  have records : source.recordsFor settings = s.nodeRecords.value := recordsFor_ontology s nodes
  have titled : ∀ n ∈ source.recordsFor settings, n.title ≠ "" := by
    intro n listed
    rw [records] at listed
    obtain ⟨other, -, record⟩ := mem_nodeRecords_iff.mp listed
    exact title_ne_empty_of_nodeRecord? record
  have distinct : ((source.recordsFor settings).map (·.uuid)).Nodup := by
    rw [records, value_nodeRecords]
    exact s.nodup_uuids
  obtain ⟨n, record⟩ := exists_nodeRecord?_of_mem coherent selected
  have listed : n ∈ source.recordsFor settings :=
    records ▸ mem_nodeRecords_iff.mpr ⟨entity, selected, record⟩
  obtain ⟨created, node, accepted, whole, live, uuid⟩ :=
    Progress.storeNodes_unmodelled (wf.edits tagged)
      ((wf.grows tagged).contentModel.trans free) titled distinct stored n listed
  rw [uuid_of_nodeRecord? record] at uuid
  refine ⟨n, created, node, record, accepted, whole, live, uuid, ?_⟩
  have steps := source.unresolved_edits wf settings
  have newer := ((wf.edits tagged).accepted_ascending _).1 _ accepted
  have behind : mark < created.id :=
    Nat.lt_of_le_of_lt (Nat.le_trans journal.marked (wf.grows tagged).lastId) newer
  exact ((journal.edits wf steps).createdNodeId?_eq_some_iff (wf.edits steps)).mpr
    ⟨behind, node, live, uuid⟩

end

/-- Where all classes become nodes, the parents that an entity lists are entities that become nodes
themselves. So every run that succeeds in a store without a content model stores a node for each
entity and writes its parents with the numbers of the nodes that they became, none of them missing;
the node keeps them unless a property that is named like the field gives other references. -/
theorem parents_found (strategy : AccessStrategy) (anchors : Anchors) (notices : List String)
    (elements : List Element) :
    let s : Source := ⟨.ofElements strategy anchors notices elements, anchors, ⟨true, false⟩⟩
    (∀ entity ∈ s.nodeEntities, ∀ items,
      (s.parentField entity (s.described entity)).value = .references items →
        ∀ item ∈ items, ∃ p ∈ s.nodeEntities, item = .node p.text) ∧
    ∀ (settings : ImportSettings) (store : Store), settings.importNodes = true →
      Reachable store → store.contentModel = [] →
      let source := ImportSource.ontology s
      (runSource settings source store).1.isOk = true →
      let final := (runSource settings source store).2.repository
      ∀ entity ∈ s.nodeEntities, ∃ items id node kind entries,
        (s.parentField entity (s.described entity)).value = .references items ∧
        Table.get? final.nodes id = some node ∧ node.uuid = entity.text ∧
        ⟨id, "field_parent", kind, entries⟩ ∈ source.references settings store ∧
        List.Forall₂ (NodeFound final) items entries ∧
        ((∀ f ∈ s.propertyFields entity, f.fieldName = "field_parent" →
            f.deferredTargets? = none) →
          Table.get? node.fields "field_parent" = some (referenceValue entries)) := by
  intro s
  have coherent : s.graph.Coherent := Graph.ofElements_coherent strategy anchors notices elements
  refine ⟨fun entity selected items refers => parents_selected coherent rfl rfl refers, ?_⟩
  intro settings store nodes reachable free source ran final entity selected
  have wf := reachable.sound.wellFormed
  have passed : (source.unresolved settings store).1 = none := by
    rwa [runSource_isOk_eq, Option.isNone_iff_eq_none] at ran
  have final_eq : final = (source.written settings store).repository := by
    simp only [final, ImportSource.runSource_of_passed passed]
  rw [final_eq]
  obtain ⟨n, created, node, record, accepted, whole, live, uuid, -⟩ :=
    found_of_unmodelled coherent nodes reachable free passed selected
  obtain ⟨others, fields, properties⟩ := fields_eq_of_linked rfl record
  have named : (s.parentField entity (s.described entity)).fieldName = "field_parent" :=
    FieldRecord.named_fieldName (by decide) _ _
  obtain ⟨items, refers, waits⟩ : ∃ items,
      (s.parentField entity (s.described entity)).value = .references items ∧
      (s.parentField entity (s.described entity)).deferredTargets? = some items := ⟨_, rfl, rfl⟩
  obtain ⟨kind, written, last⟩ := ImportSource.references_of_accepted wf passed accepted fields waits
    (whole ▸ List.not_mem_nil)
  rw [named] at written last
  refine ⟨items, created.id, _, kind, _, refers, ImportSource.get?_written wf live, uuid, written,
    ?_, fun waiting => last ?_ _⟩
  · refine List.forall₂_map_right_iff.mpr (List.forall₂_same.mpr fun item listed => ?_)
    obtain ⟨p, chosen, rfl⟩ := parents_selected coherent rfl rfl refers item listed
    obtain ⟨-, parent, found, -, -, -, stored, name, resolved⟩ :=
      found_of_unmodelled coherent nodes reachable free passed chosen
    exact ⟨parent.id, _, resolved, ImportSource.get?_written wf stored, by rw [name]⟩
  · exact fun f member same => waiting f (properties f member same) same

open TreeSite in
/-- The home page holds the number of the reports. -/
theorem parents_found_treeSite :
    let final := (runSource .standard (.ontology treeSite) (Store.empty true [])).2.repository
    ∃ id home parent reports, Table.get? final.nodes id = some home ∧ home.uuid = "e:home" ∧
      Table.get? final.nodes parent = some reports ∧ reports.uuid = "e:Report" ∧
      Table.get? home.fields "field_parent" = some (referenceValue [some parent]) := by
  intro final
  have parents : (if (treeSite.described LinkedSite.home).hasKind .owlClass then
        treeSite.graph.directSuperclasses LinkedSite.home
      else treeSite.graph.types LinkedSite.home).filter (fun c =>
        treeSite.graph.isBelow c treeSite.anchors.node &&
          !treeSite.graph.isDirectlyBelow c treeSite.anchors.node) = [report] := by
    simp only [Graph.isBelow, Graph.allSuperclasses_eq_ascendWithin]
    decide +kernel
  have field : (treeSite.parentField LinkedSite.home (treeSite.described LinkedSite.home)).value =
      .references [.node "e:Report"] := by
    simp only [parentField, parents]
    rfl
  have selected : LinkedSite.home ∈ treeSite.nodeEntities := by
    rw [treeSite_entities]
    decide +kernel
  have ran : (runSource .standard (.ontology treeSite) (Store.empty true [])).1.isOk = true := by
    rw [runSource_isOk_eq, ImportSource.unresolved_passes .standard _
      (Reachable.empty true []).sound.wellFormed rfl]
    rfl
  obtain ⟨-, found⟩ := parents_found .inMemory siteAnchors [] TreeSite.elements
  obtain ⟨items, id, home, kind, entries, refers, live, uuid, -, each, last⟩ :=
    found .standard (Store.empty true []) rfl (.empty true []) rfl ran LinkedSite.home selected
  obtain rfl := FieldValue.references.inj (field.symm.trans refers)
  obtain ⟨entry, rest, ⟨parent, reports, rfl, stored, same⟩, none, rfl⟩ :=
    List.forall₂_cons_left_iff.mp each
  obtain rfl := List.forall₂_nil_left_iff.mp none
  have value := last fun f member => by
    have empty := treeSite_propertyFields LinkedSite.home
    exact absurd (empty ▸ member) List.not_mem_nil
  exact ⟨id, home, parent, reports, live, uuid, stored, (FieldItem.node.inj same).symm, value⟩

end Mapping.Source

end ContentImport
