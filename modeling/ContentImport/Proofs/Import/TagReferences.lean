import ContentImport.Proofs.Import.FieldNames
import ContentImport.Proofs.Import.Repetition
import ContentImport.Proofs.Import.Rollback
import ContentImport.Proofs.Import.Vocabularies
import ContentImport.Proofs.Mapping.ParentNames
import ContentImport.Proofs.Store.Refusal

/-!
References to tags. A field refers to a tag by the name of a class and the first vocabulary that the
class lies below, and the record of that vocabulary lists the same class under the same name. So a
run that writes vocabularies before nodes, and that does not overwrite, finds each tag that one of
its fields refers to.
-/

set_option autoImplicit false
set_option relaxedAutoImplicit false

namespace ContentImport

open ContentImport.Ontology
open ContentImport.Store

/-! ## Records -/

def TagRef.ListedIn (ref : TagRef) (vocabularies : List VocabularyRecord) : Prop :=
  ∃ v ∈ vocabularies, v.vocabularyId = ref.vocabularyId ∧ ∃ tag ∈ v.tags, tag.name = ref.name

private theorem Graph.displayName_ne_empty (g : Graph) (iri : Iri) : g.displayName iri ≠ "" := by
  unfold displayName
  cases label : (g.element? iri).bind Element.label? with
  | none => exact iri.localName_ne_empty
  | some text =>
    obtain ⟨e, -, labelled⟩ := Option.bind_eq_some_iff.mp label
    exact of_decide_eq_true (Option.filter_eq_some_iff.mp labelled).2

namespace Mapping.Source

variable {s : Source} {entity : Iri}

theorem tag_name_ne_empty {v : VocabularyRecord} (listed : v ∈ s.vocabularyRecords)
    {tag : TagRecord} (among : tag ∈ v.tags) : tag.name ≠ "" := by
  obtain ⟨c, -, rfl⟩ := List.mem_map.mp listed
  obtain ⟨iri, -, rfl⟩ := List.mem_map.mp among
  exact s.graph.displayName_ne_empty iri

private theorem listedIn_of_tagItem? {tag : Iri} {ref : TagRef}
    (item : s.tagItem? tag = some (.tag ref)) :
    ref.ListedIn s.vocabularyRecords := by
  obtain ⟨vocabulary, found, same⟩ := Option.map_eq_some_iff.mp item
  obtain rfl := FieldItem.tag.inj same
  unfold vocabularyForTag? at found
  have below : tag ∈ s.graph.allSubclasses vocabulary := by simpa using List.find?_some found
  exact ⟨s.vocabularyRecord vocabulary, List.mem_map_of_mem (List.mem_of_find?_eq_some found), rfl,
    s.tagRecord vocabulary.localName tag, List.mem_map_of_mem below, rfl⟩

private theorem listedIn_of_nodeField? {e : Element} {property : Iri} {axioms : AxiomIndex}
    {f : FieldRecord} (field : (s.nodeField? entity e property axioms).value = some f)
    {items : List FieldItem} (refers : f.value = .references items) {ref : TagRef}
    (listed : .tag ref ∈ items) : ref.ListedIn s.vocabularyRecords := by
  rcases nodeField?_cases field with ⟨texts, rfl⟩ | ⟨others, targets, -, rfl⟩
  · cases refers
  · obtain rfl := FieldValue.references.inj refers
    obtain ⟨target, kind, mapped⟩ := targets _ listed
    rcases targetItem?_cases mapped with ⟨node, -⟩ | ⟨uri, file, -⟩ | ⟨tagged, -⟩ | ⟨text, literal, -⟩
    · cases node
    · cases file
    · exact listedIn_of_tagItem? tagged
    · cases literal

private theorem listedIn_of_mem_nodeFields {e : Element} {f : FieldRecord}
    (member : f ∈ (s.nodeFields entity e).value) {items : List FieldItem}
    (refers : f.value = .references items) {ref : TagRef} (listed : .tag ref ∈ items) :
    ref.ListedIn s.vocabularyRecords := by
  have noNodes : ∀ classes : List Iri, .tag ref ∉ classes.map fun c => FieldItem.node c.text :=
    fun classes among => by simp at among
  obtain ⟨others, fields, origin⟩ := nodeFields_cases s entity e
  rw [fields] at member
  rcases List.mem_cons.mp member with rfl | other
  · cases refers
  rcases (origin f).mp other with ⟨-, rfl | ⟨-, rfl⟩⟩ | ⟨-, rfl⟩ | ⟨p, -, -, field⟩
  · obtain rfl := FieldValue.references.inj refers
    exact absurd listed (noNodes _)
  · obtain rfl := FieldValue.references.inj refers
    exact absurd listed (noNodes _)
  · obtain rfl := FieldValue.references.inj refers
    obtain ⟨tag, -, item⟩ := List.mem_filterMap.mp (Distinct.mem_ofList.mp listed)
    exact listedIn_of_tagItem? item
  · exact listedIn_of_nodeField? field refers listed

private theorem listedIn_of_mem_nodeRecords {n : NodeRecord} (among : n ∈ s.nodeRecords.value)
    {f : FieldRecord} (member : f ∈ n.fields) {items : List FieldItem}
    (refers : f.value = .references items) {ref : TagRef} (listed : .tag ref ∈ items) :
    ref.ListedIn s.vocabularyRecords := by
  rw [value_nodeRecords] at among
  obtain ⟨outcome, mapped, record⟩ := List.mem_filterMap.mp among
  obtain ⟨entity, -, rfl⟩ := List.mem_map.mp mapped
  rw [fields_of_nodeRecord? record] at member
  exact listedIn_of_mem_nodeFields member refers listed

end Mapping.Source

/-! ## Runs that do not overwrite -/

private theorem Store.WellFormed.createNode_ok_keeps {s t : Store} (wf : s.WellFormed)
    (keeps : s.overwrite = false) {n : NodeRecord} {created : CreatedNode}
    (accepted : s.createNode n = (.ok created, t)) :
    t.repository.nodes.map (·.1) = s.repository.nodes.map (·.1) ++ [created.id] := by
  obtain ⟨allowed, -⟩ := createNode_ok_eq accepted
  have absent : s.repository.nodeByUuid? n.uuid = none := by
    simpa [keeps] using allowed
  obtain ⟨-, -, values, nodes⟩ := wf.createNode_ok accepted
  rw [nodes, discard, absent, List.map_append]
  rfl

private theorem Progress.storeNodes_pending {p q : Progress}
    {entries : List (Noted (Option NodeRecord))}
    (stored : p.storeNodes entries = (none, q)) :
    q.pending = p.pending ++
      (p.store.accepted (entries.filterMap (·.value))).flatMap fun a => splitDeferred a.1 a.2 := by
  induction entries generalizing p with
  | nil =>
    obtain rfl := (Prod.mk.inj stored).2
    exact (List.append_nil _).symm
  | cons entry entries ih =>
    cases present : entry.value with
    | none =>
      rw [storeNodes_cons_none p present] at stored
      rw [List.filterMap_cons_none present]
      exact @ih (p.noting entry) stored
    | some n =>
      rw [storeNodes_cons_some p present] at stored
      rw [List.filterMap_cons_some present, Store.accepted]
      unfold storeNode at stored
      have same : (p.noting entry).store = p.store := rfl
      rw [same] at stored
      cases outcome : p.store.createNode n with
      | mk result t =>
        rw [outcome] at stored
        cases result with
        | ok created =>
          refine (@ih ⟨t, _, _⟩ stored).trans ?_
          rw [List.flatMap_cons, List.append_assoc]
          rfl
        | error e =>
          simp only at stored
          split at stored
          · cases stored
          · next nonfatal =>
            split at nonfatal
            · cases nonfatal
            · obtain ⟨-, rfl⟩ := Prod.mk.inj nonfatal
              exact ih stored

private theorem Progress.storeNodes_keeps {p q : Progress} (wf : p.store.WellFormed)
    (keeps : p.store.overwrite = false) {entries : List (Noted (Option NodeRecord))}
    (stored : p.storeNodes entries = (none, q)) :
    q.store.repository.nodes.map (·.1) = p.store.repository.nodes.map (·.1) ++
      (p.store.accepted (entries.filterMap (·.value))).map (·.2.id) := by
  induction entries generalizing p with
  | nil =>
    obtain rfl := (Prod.mk.inj stored).2
    exact (List.append_nil _).symm
  | cons entry entries ih =>
    cases present : entry.value with
    | none =>
      rw [storeNodes_cons_none p present] at stored
      rw [List.filterMap_cons_none present]
      exact @ih (p.noting entry) wf keeps stored
    | some n =>
      obtain ⟨next, store, rest⟩ := storeNodes_behind present stored
      have steps := wf.createNode_everything n
      rw [← store] at steps
      have later := ih (wf.edits steps) ((wf.grows steps).overwrite.trans keeps) rest
      rw [List.filterMap_cons_some present, Store.accepted]
      cases outcome : p.store.createNode n with
      | mk result t =>
        rw [outcome] at store
        rw [store] at later
        cases result with
        | ok created =>
          rw [later, wf.createNode_ok_keeps keeps outcome, List.map_cons, List.append_assoc]
          rfl
        | error e =>
          have kept : ¬ p.store.Loses n := fun loses =>
            Bool.false_ne_true (keeps.symm.trans loses.overwrites)
          obtain rfl := createNode_error_eq kept outcome
          exact later

/-- An entry of a reference field is the number of a stored tag, where the target is a tag. -/
def TagFound (r : Repository) : FieldItem → Option EntityId → Prop
  | .tag ref, entry => ∃ id tag, entry = some id ∧ (id, tag) ∈ r.tags ∧
      tag.vocabularyId = ref.vocabularyId ∧ tag.name = ref.name
  | _, _ => True

private theorem Store.WellFormed.tagId?_isSome_of_listedIn {s : Store} (wf : s.WellFormed)
    (keeps : s.overwrite = false) {vocabularies : List VocabularyRecord}
    (named : ∀ v ∈ vocabularies, ∀ tag ∈ v.tags, tag.name ≠ "") {ref : TagRef}
    (listed : ref.ListedIn vocabularies) :
    ((s.importVocabularies vocabularies).repository.tagId? ref.vocabularyId ref.name).isSome =
      true := by
  obtain ⟨v, among, vocabulary, tag, held, name⟩ := listed
  rw [Repository.tagId?_isSome_iff, wf.tagNames_importVocabularies_of_keeps keeps,
    Distinct.mem_addAll, List.mem_flatMap]
  refine .inr ⟨v, List.mem_filter.mpr ⟨among, decide_eq_true vocabulary⟩, ?_⟩
  rw [← name]
  exact List.mem_filter.mpr ⟨List.mem_map_of_mem held, by simpa using named v among tag held⟩

namespace ImportSource

variable {settings : ImportSettings} {source : ImportSource} {store : Store}

theorem get?_written (wf : store.WellFormed) {e : EntityId × StoredNode}
    (member : e ∈ (source.unresolved settings store).2.store.repository.nodes) :
    Table.get? (source.written settings store).repository.nodes e.1 =
      some { e.2 with fields := writtenFields (source.references settings store) e.1 e.2.fields } := by
  have nodes := (source.unresolved settings store).2.store.insertReferences_nodes
    (source.references settings store)
  have inserted := (wf.edits (source.unresolved_edits wf settings)).insertReferences
    (source.references settings store)
  have held := inserted.consistent.nodesAscending.get?_of_mem
    (nodes ▸ List.mem_map_of_mem member)
  exact held

/-- A field that waits is written for each node that a run accepts, with an entry for each target.
The last one of its name to wait is what the node keeps under the name. -/
theorem references_of_accepted (wf : store.WellFormed)
    (passed : (source.unresolved settings store).1 = none) {a : NodeRecord × CreatedNode}
    (accepted : a ∈ (source.tagged settings store).store.accepted (source.recordsFor settings))
    {before after : List FieldRecord} {f : FieldRecord} {targets : List FieldItem}
    (fields : a.1.fields = before ++ f :: after) (deferred : f.deferredTargets? = some targets)
    (kept : f.fieldName ∉ a.2.skippedFields) :
    let entries := targets.map (source.unresolved settings store).2.store.resolveTarget?
    ∃ kind, ⟨a.2.id, f.fieldName, kind, entries⟩ ∈ source.references settings store ∧
      ((∀ later ∈ after, later.fieldName = f.fieldName → later.deferredTargets? = none) →
        ∀ values, Table.get? (writtenFields (source.references settings store) a.2.id values)
          f.fieldName = some (referenceValue entries)) := by
  have tagged := wf.edits (source.tagged_edits settings store)
  have stored : (source.tagged settings store).storeNodes (source.entriesFor settings) =
      (none, (source.unresolved settings store).2) := Prod.ext passed rfl
  have pending := Progress.storeNodes_pending stored
  obtain ⟨earlier, kind, others, parts, behind⟩ := flatMap_splitDeferred_eq
    (tagged.accepted_ascending (source.recordsFor settings)).2 accepted fields deferred kept
  have split : (source.unresolved settings store).2.pending =
      earlier ++ ⟨a.2.id, f.fieldName, kind, targets⟩ :: others := pending.trans parts
  refine ⟨kind, List.mem_map_of_mem (split ▸ List.mem_append_right _ List.mem_cons_self), ?_⟩
  exact fun last values => Progress.get?_writtenFields_resolved split (behind last) values

private theorem written_of_keeps (wf : store.WellFormed) (keeps : store.overwrite = false)
    (passed : (source.unresolved settings store).1 = none) {a : NodeRecord × CreatedNode}
    (accepted : a ∈ (source.tagged settings store).store.accepted (source.recordsFor settings))
    {before after : List FieldRecord} {f : FieldRecord} {targets : List FieldItem}
    (fields : a.1.fields = before ++ f :: after) (deferred : f.deferredTargets? = some targets)
    (kept : f.fieldName ∉ a.2.skippedFields) :
    let entries := targets.map (source.unresolved settings store).2.store.resolveTarget?
    ∃ kind, ⟨a.2.id, f.fieldName, kind, entries⟩ ∈ source.references settings store ∧
      ((∀ later ∈ after, later.fieldName = f.fieldName → later.deferredTargets? = none) →
        ∃ node, Table.get? (source.written settings store).repository.nodes a.2.id = some node ∧
          Table.get? node.fields f.fieldName = some (referenceValue entries)) := by
  have tagged := source.tagged_edits settings store
  have stored : (source.tagged settings store).storeNodes (source.entriesFor settings) =
      (none, (source.unresolved settings store).2) := Prod.ext passed rfl
  have ids := Progress.storeNodes_keeps (wf.edits tagged)
    ((wf.grows tagged).overwrite.trans keeps) stored
  obtain ⟨kind, waiting, holds⟩ := references_of_accepted wf passed accepted fields deferred kept
  refine ⟨kind, waiting, fun last => ?_⟩
  have held : a.2.id ∈ (source.unresolved settings store).2.store.repository.nodes.map (·.1) :=
    ids ▸ List.mem_append_right _ (List.mem_map_of_mem accepted)
  obtain ⟨e, member, same⟩ := List.mem_map.mp held
  exact ⟨_, same ▸ get?_written wf member, same ▸ holds last e.2.fields⟩

private theorem tagFound_resolveTarget? (wf : store.WellFormed) (keeps : store.overwrite = false)
    (named : ∀ v ∈ source.vocabulariesFor settings, ∀ tag ∈ v.tags, tag.name ≠ "")
    {item : FieldItem}
    (listed : ∀ ref, item = .tag ref → ref.ListedIn (source.vocabulariesFor settings)) :
    TagFound (source.written settings store).repository item
      ((source.unresolved settings store).2.store.resolveTarget? item) := by
  cases item with
  | tag ref =>
    have tags := source.unresolved_tags settings store
    have found := wf.tagId?_isSome_of_listedIn keeps named (listed ref rfl)
    obtain ⟨id, found⟩ := Option.isSome_iff_exists.mp found
    obtain ⟨tag, stored, vocabulary, name⟩ := Repository.mem_of_tagId? found
    refine ⟨id, tag, ?_, ?_, vocabulary, name⟩
    · rw [Store.resolveTarget?, Repository.tagId?, tags]
      exact found
    · have kept : (source.written settings store).repository.tags =
          (source.unresolved settings store).2.store.repository.tags := insertReferences_tags _ _
      rwa [kept, tags]
  | _ => trivial

end ImportSource

namespace Mapping.Source

variable (s : Source)

theorem recordsFor_ontology {settings : ImportSettings} (nodes : settings.importNodes = true) :
    (ImportSource.ontology s).recordsFor settings = s.nodeRecords.value := by
  rw [ImportSource.recordsFor, ImportSource.entriesFor, if_pos nodes, value_nodeRecords]
  rfl

/-- Each tag that a field of a record refers to is a tag of the records of vocabularies. Where these
are written before the nodes and nothing is overwritten, a run that succeeds finds each such tag:
every field that waits and that the store takes is written with an entry for each target, which is
the number of a stored tag where the target is one. The last field of its name keeps these entries. -/
theorem tags_found :
    (∀ n ∈ s.nodeRecords.value, ∀ f ∈ n.fields, ∀ items, f.value = .references items →
      ∀ ref, .tag ref ∈ items → ref.ListedIn s.vocabularyRecords) ∧
    ∀ (settings : ImportSettings) (store : Store), settings.importVocabularies = true →
      settings.importNodes = true → Reachable store → store.overwrite = false →
      let source := ImportSource.ontology s
      (runSource settings source store).1.isOk = true →
      let final := (runSource settings source store).2.repository
      ∀ a ∈ (store.importVocabularies s.vocabularyRecords).accepted s.nodeRecords.value,
        ∀ before f after targets, a.1.fields = before ++ f :: after →
          f.fieldName ∉ a.2.skippedFields → f.deferredTargets? = some targets →
          ∃ kind entries,
            ⟨a.2.id, f.fieldName, kind, entries⟩ ∈ source.references settings store ∧
            List.Forall₂ (TagFound final) targets entries ∧
            ((∀ later ∈ after, later.fieldName = f.fieldName → later.deferredTargets? = none) →
              ∃ node, Table.get? final.nodes a.2.id = some node ∧
                Table.get? node.fields f.fieldName = some (referenceValue entries)) := by
  refine ⟨fun n among f member items refers ref listed =>
    listedIn_of_mem_nodeRecords among member refers listed, ?_⟩
  intro settings store vocabularies nodes reachable keeps source ran final a accepted before f after
    targets fields kept deferred
  have wf := reachable.sound.wellFormed
  have passed : (source.unresolved settings store).1 = none := by
    rwa [runSource_isOk_eq, Option.isNone_iff_eq_none] at ran
  have records : source.vocabulariesFor settings = s.vocabularyRecords := if_pos vocabularies
  have final_eq : final = (source.written settings store).repository := by
    simp only [final, ImportSource.runSource_of_passed passed]
  rw [final_eq]
  rw [← records, ← recordsFor_ontology s nodes] at accepted
  obtain ⟨kind, written, last⟩ :=
    ImportSource.written_of_keeps wf keeps passed accepted fields deferred kept
  refine ⟨kind, _, written, ?_, last⟩
  refine List.forall₂_map_right_iff.mpr (List.forall₂_same.mpr fun item target => ?_)
  refine ImportSource.tagFound_resolveTarget? wf keeps ?_ ?_
  · rw [records]
    exact fun v listed tag => tag_name_ne_empty listed
  · rintro ref rfl
    rw [records]
    rw [recordsFor_ontology s nodes] at accepted
    have member : f ∈ a.1.fields := fields ▸ List.mem_append_right _ List.mem_cons_self
    exact listedIn_of_mem_nodeRecords (mem_of_mem_accepted accepted) member
      (value_of_deferred deferred) target

end Mapping.Source

namespace TaggedSite

def red : Iri := ⟨"e:Red", by decide +kernel⟩

open LinkedSite in
def home : Element :=
  ⟨some LinkedSite.home, [individual, page], [⟨next, .resource red⟩]⟩

open LinkedSite CrossedPalette in
/-- A color with a label, and a page that refers to it. -/
def elements : List Element :=
  [below page [siteAnchors.node],
    ⟨some next, [objectProperty], [⟨rdfsSubPropertyOf, .resource siteAnchors.objectField⟩]⟩,
    below color [siteAnchors.vocabulary],
    ⟨some red, [],
      [⟨rdfsSubClassOf, .resource color⟩, ⟨rdfsLabel, .literal (.plain "Crimson")⟩]⟩,
    home]

def record : NodeRecord :=
  ⟨"home", "page", none, "e:home",
    [⟨"body", .body (.fullHtml none none), none⟩,
      ⟨"next", .references [.tag ⟨"Color", "Crimson"⟩], some .taxonomyTerm⟩]⟩

end TaggedSite

def taggedSite : Mapping.Source where
  graph := Graph.ofElements .inMemory siteAnchors [] TaggedSite.elements
  anchors := siteAnchors
  options := ⟨false, false⟩

open LinkedSite TaggedSite in
private theorem taggedSite_record : taggedSite.nodeRecord? LinkedSite.home = pure (some record) := by
  have bundle : taggedSite.bundleOf? LinkedSite.home = some "page" ∧
      taggedSite.graph.descendsFrom LinkedSite.home taggedSite.anchors.vocabulary = false := by
    simp only [Mapping.Source.bundleOf?, Graph.descendsFrom, Graph.isInstance, Graph.isBelow,
      Graph.allSuperclasses_eq_ascendWithin]
    decide +kernel
  have element : taggedSite.graph.element? LinkedSite.home = some TaggedSite.home := by
    decide +kernel
  have properties : taggedSite.graph.fieldProperties.filter
      (fun p => TaggedSite.home.hasValue p.iri) = [⟨next, .object⟩] := by
    decide +kernel
  have axioms : taggedSite.graph.axiomsOf LinkedSite.home = [] := by decide +kernel
  have item : taggedSite.targetItem? LinkedSite.home next red ⟨[]⟩ =
      pure (some (.tag ⟨"Color", "Crimson"⟩, some .taxonomyTerm)) := by
    have elsewhere : taggedSite.graph.descendsFrom red taggedSite.anchors.node = false ∧
        taggedSite.graph.descendsFrom red taggedSite.anchors.file = false := by
      simp only [Graph.descendsFrom, Graph.isInstance, Graph.isBelow,
        Graph.allSuperclasses_eq_ascendWithin]
      decide +kernel
    have tagged : taggedSite.tagItem? red = some (.tag ⟨"Color", "Crimson"⟩) := by
      simp only [Mapping.Source.tagItem?, Mapping.Source.vocabularyForTag?,
        Graph.allSubclasses_eq_descendWithin]
      decide +kernel
    simp only [Mapping.Source.targetItem?, elsewhere, Bool.false_eq_true, if_false, tagged]
  have field : taggedSite.nodeField? LinkedSite.home TaggedSite.home next ⟨[]⟩ =
      pure (some ⟨"next", .references [.tag ⟨"Color", "Crimson"⟩], some .taxonomyTerm⟩) := by
    have literals : ((TaggedSite.home.values next).filter (·.literal?.isSome)).isEmpty = true := by
      decide +kernel
    have resources : ((AxiomIndex.mk []).orderValues next
        (TaggedSite.home.values next)).filterMap Term.resource? = [red] := by
      decide +kernel
    unfold Mapping.Source.nodeField?
    simp only [literals, Bool.not_true, Bool.false_eq_true, if_false, resources, List.mapM_cons,
      List.mapM_nil, item]
    rfl
  simp only [Mapping.Source.nodeRecord?, bundle, Mapping.Source.nodeFields, element,
    Option.getD_some, properties, axioms, List.mapM_cons, List.mapM_nil, field]
  rfl

private theorem taggedSite_entities : taggedSite.nodeEntities = [LinkedSite.home] := by
  simp only [Mapping.Source.nodeEntities, Mapping.Source.individualEntities, Graph.isInstance,
    Graph.isBelow, Graph.allSuperclasses_eq_ascendWithin]
  decide +kernel

private theorem taggedSite_vocabularies : taggedSite.vocabularyRecords =
    [⟨"Color", "Color", [⟨"Color", "Crimson", []⟩]⟩] := by
  have classes : taggedSite.vocabularyClasses = [CrossedPalette.color] := by decide +kernel
  have below : taggedSite.graph.allSubclasses CrossedPalette.color = [TaggedSite.red] := by
    rw [Graph.allSubclasses_eq_descendWithin]
    decide +kernel
  rw [Mapping.Source.vocabularyRecords, classes, List.map_singleton,
    Mapping.Source.vocabularyRecord, below]
  decide +kernel

/-- The page holds the number of the color. -/
theorem Mapping.Source.tags_found_taggedSite :
    let final := (runSource .standard (.ontology taggedSite) (Store.empty false [])).2.repository
    ∃ node id tag, Table.get? final.nodes 2 = some node ∧
      Table.get? node.fields "next" = some (referenceValue [some id]) ∧
      (id, tag) ∈ final.tags ∧ tag.vocabularyId = "Color" ∧ tag.name = "Crimson" := by
  intro final
  have nodes : taggedSite.nodeRecords.value = [TaggedSite.record] := by
    rw [Mapping.Source.value_nodeRecords, taggedSite_entities, List.map_singleton,
      taggedSite_record]
    rfl
  have ran : (runSource .standard (.ontology taggedSite) (Store.empty false [])).1.isOk = true := by
    have entries : (ImportSource.ontology taggedSite).nodeEntries =
        [pure (some TaggedSite.record)] := by
      rw [ImportSource.nodeEntries, taggedSite_entities, List.map_singleton, taggedSite_record]
    simp only [runSource_isOk_eq, ImportSource.unresolved, ImportSource.tagged,
      ImportSource.vocabulariesFor, ImportSource.vocabularyRecords, ImportSource.entriesFor,
      taggedSite_vocabularies, entries]
    decide +kernel
  obtain ⟨-, found⟩ := tags_found taggedSite
  have written := found .standard (Store.empty false []) rfl rfl (.empty false []) rfl ran
    (TaggedSite.record, ⟨2, []⟩) (by
      rw [nodes, taggedSite_vocabularies]
      exact List.mem_cons_self)
    [⟨"body", .body (.fullHtml none none), none⟩] _ [] _ rfl List.not_mem_nil rfl
  obtain ⟨kind, entries, -, each, last⟩ := written
  obtain ⟨entry, rest, ⟨id, tag, rfl, stored, vocabulary, name⟩, none, rfl⟩ :=
    List.forall₂_cons_left_iff.mp each
  obtain rfl := List.forall₂_nil_left_iff.mp none
  obtain ⟨node, live, value⟩ := last (by simp)
  exact ⟨node, id, tag, live, value, stored, vocabulary, name⟩

end ContentImport
