import ContentImport.Proofs.Hierarchy.Walk
import ContentImport.Proofs.Import.References
import ContentImport.Proofs.Mapping.Mapped
import ContentImport.Proofs.Store.SetFields

/-!
Importing a dump. The records that a dump shows are written into a store as the records of the
ontology itself are, node by node and reference by reference; only fields that are unset stay away.
So a dump that can be read as a document leaves the same repository, up to those.
-/

set_option autoImplicit false
set_option relaxedAutoImplicit false

namespace ContentImport

open ContentImport.Store

/-! ## Nodes -/

/-- Two runs of which the second one writes what is read again. -/
structure RereadProgress (p q : Progress) : Prop where
  store : q.store = p.store.withSetFields
  pending : q.pending = p.pending.map DeferredReference.reread

namespace RereadProgress

variable {p q : Progress}

private theorem storeNode (reread : RereadProgress p q) {n : NodeRecord} (mapped : n.Mapped) :
    (q.storeNode n.reread).1 = (p.storeNode n).1 ∧
      RereadProgress (p.storeNode n).2 (q.storeNode n.reread).2 := by
  obtain ⟨stores, outcomes⟩ := p.store.createNode_reread mapped
  rw [← reread.store] at stores outcomes
  unfold Progress.storeNode
  cases first : p.store.createNode n with
  | mk result s =>
    cases second : q.store.createNode n.reread with
    | mk again t =>
      rw [first, second] at stores outcomes
      simp only at stores outcomes
      cases result with
      | error e =>
        cases again with
        | ok created => cases outcomes
        | error e' =>
          obtain rfl := Except.error.inj outcomes
          simp only
          split <;> exact ⟨rfl, stores, reread.pending⟩
      | ok created =>
        cases again with
        | error e' => cases outcomes
        | ok created' =>
          have split := Except.ok.inj outcomes
          refine ⟨rfl, stores, ?_⟩
          simp only [reread.pending, split, List.map_append]

private theorem storeNodes (reread : RereadProgress p q)
    {entries : List (Noted (Option NodeRecord))}
    (mapped : ∀ n ∈ entries.filterMap (·.value), n.Mapped) :
    let again := (entries.filterMap (·.value)).map fun n =>
      (pure (some n.reread) : Noted (Option NodeRecord))
    (q.storeNodes again).1 = (p.storeNodes entries).1 ∧
      RereadProgress (p.storeNodes entries).2 (q.storeNodes again).2 := by
  induction entries generalizing p q with
  | nil => exact ⟨rfl, reread⟩
  | cons entry entries ih =>
    have noted : RereadProgress (p.noting entry) q := ⟨reread.store, reread.pending⟩
    cases present : entry.value with
    | none =>
      rw [List.filterMap_cons_none present] at mapped ⊢
      rw [Progress.storeNodes_cons_none p present]
      exact ih noted mapped
    | some n =>
      rw [List.filterMap_cons_some present] at mapped ⊢
      obtain ⟨first, others⟩ := List.forall_mem_cons.mp mapped
      have noted : RereadProgress (p.noting entry) (q.noting (pure (some n.reread))) :=
        ⟨reread.store, reread.pending⟩
      obtain ⟨outcome, next⟩ := noted.storeNode first
      rw [Progress.storeNodes_cons_some p present]
      simp only [List.map_cons]
      rw [Progress.storeNodes_cons_some q rfl]
      cases stored : (p.noting entry).storeNode n with
      | mk failure p' =>
        cases again : (q.noting (pure (some n.reread))).storeNode n.reread with
        | mk failure' q' =>
          rw [stored, again] at outcome next
          simp only at outcome next
          subst outcome
          cases failure' with
          | some e => exact ⟨rfl, next⟩
          | none => exact ih next others

private theorem resolve (reread : RereadProgress p q) (wf : p.store.WellFormed)
    (apart : ∀ d ∈ p.pending, ∀ text, .literal text ∈ d.targets →
      p.store.createdNodeId? text = none) :
    q.resolve.2.store = p.resolve.2.store.withSetFields := by
  -- References are resolved alike, unless a literal is the uuid of a node that was created.
  have writes : q.pending.map q.store.resolveReference =
      p.pending.map p.store.resolveReference := by
    rw [reread.pending, reread.store, List.map_map]
    refine List.map_congr_left fun d waiting => ?_
    have targets : (d.targets.map FieldItem.reread).map p.store.withSetFields.resolveTarget? =
        d.targets.map p.store.resolveTarget? := by
      rw [List.map_map]
      refine List.map_congr_left fun item listed => ?_
      cases item with
      | literal text => exact apart d waiting text listed
      | _ => rfl
    rw [Function.comp_apply, resolveReference, DeferredReference.reread, targets]
    rfl
  rw [Progress.resolve, Progress.resolve, writes, reread.store]
  exact p.store.insertReferences_withSetFields wf _

end RereadProgress

/-! ## Runs -/

/-- No literal among references that wait is the uuid of a node. -/
def LiteralsApart (nodes : List NodeRecord) : Prop :=
  ∀ n ∈ nodes, ∀ f ∈ n.fields, ∀ m ∈ nodes, .literal m.uuid ∉ f.deferredTargets?.getD []

private theorem createdNodeId?_literal {s : Store} (wf : s.WellFormed) (settled : s.ledger = .empty)
    {warnings : Warnings} {entries : List (Noted (Option NodeRecord))} {p : Progress}
    (stored : (Progress.mk s [] warnings).storeNodes entries = (none, p))
    (apart : LiteralsApart (entries.filterMap (·.value))) {d : DeferredReference}
    (waiting : d ∈ p.pending) {text : String} (listed : .literal text ∈ d.targets) :
    p.store.createdNodeId? text = none := by
  have start := Accepting.start wf (wf.journal settled) wf.given.nodes warnings
  have accepting := start.storeNodes stored
  rw [List.nil_append] at accepting
  have owner := accepting.pending ▸ waiting
  obtain ⟨a, accepted, split⟩ := List.mem_flatMap.mp owner
  obtain ⟨-, f, held, -, deferred⟩ := mem_splitDeferred split
  by_contra found
  obtain ⟨id, created⟩ := Option.ne_none_iff_exists'.mp found
  obtain ⟨b, other, named, -, -⟩ := accepting.createdNodeId?_eq_some_iff.mp created
  refine apart a.1 (mem_of_mem_accepted accepted) f held b.1 (mem_of_mem_accepted other) ?_
  rw [deferred, named]
  exact listed

section

variable (settings : ImportSettings) (source : ImportSource)

/-- The document of what is read again of the records of a source. -/
def ImportSource.reread : ImportSource :=
  .document ⟨[], (source.recordsFor settings).map NodeRecord.reread⟩

private theorem ImportSource.entriesFor_reread :
    (source.reread settings).entriesFor settings = (source.recordsFor settings).map fun n =>
      (pure (some n.reread) : Noted (Option NodeRecord)) := by
  unfold recordsFor entriesFor
  split
  · next wanted =>
    have records : source.recordsFor settings = source.nodeEntries.filterMap (·.value) := by
      rw [recordsFor, entriesFor, if_pos wanted]
    simp only [ImportSource.reread, nodeEntries, List.map_map, records]
    rfl
  · rfl

private theorem ImportSource.tagged_reread (untagged : source.vocabulariesFor settings = [])
    (s : Store) :
    RereadProgress (source.tagged settings s)
      ((source.reread settings).tagged settings s.withSetFields) := by
  have vocabularies : (source.reread settings).vocabulariesFor settings = [] := by
    unfold vocabulariesFor
    split <;> rfl
  rw [tagged, tagged, untagged, vocabularies]
  exact ⟨rfl, rfl⟩

private theorem ImportSource.unresolved_reread (untagged : source.vocabulariesFor settings = [])
    (mapped : ∀ n ∈ source.recordsFor settings, n.Mapped) (s : Store) :
    ((source.reread settings).unresolved settings s.withSetFields).1 =
        (source.unresolved settings s).1 ∧
      RereadProgress (source.unresolved settings s).2
        ((source.reread settings).unresolved settings s.withSetFields).2 := by
  rw [unresolved, entriesFor_reread]
  exact (source.tagged_reread settings untagged s).storeNodes mapped

private theorem runSource_reread {s : Store} (wf : s.WellFormed) (settled : s.ledger = .empty)
    (untagged : source.vocabulariesFor settings = [])
    (mapped : ∀ n ∈ source.recordsFor settings, n.Mapped)
    (apart : LiteralsApart (source.recordsFor settings)) :
    (runSource settings (source.reread settings) s.withSetFields).2 =
      (runSource settings source s).2.withSetFields := by
  obtain ⟨outcome, reread⟩ := source.unresolved_reread settings untagged mapped s
  have steps := source.unresolved_edits wf settings
  rw [runSource_eq, runSource_eq]
  cases first : source.unresolved settings s with
  | mk failure p =>
    cases second : (source.reread settings).unresolved settings s.withSetFields with
    | mk failure' q =>
      rw [first, second] at outcome reread
      rw [first] at steps
      simp only at outcome
      subst outcome
      cases failure' with
      | some e =>
        have store : q.store = p.store.withSetFields := reread.store
        simp only [store]
        exact p.store.rollback_withSetFields
      | none =>
        -- Without vocabularies the nodes are stored from the start of the run, on an empty ledger,
        -- so every node that a reference can find was created from these records.
        have stored : Progress.storeNodes ⟨s, [], Warnings.empty.warnAll source.notices⟩
            (source.entriesFor settings) = (none, p) := by
          rw [← first, ImportSource.unresolved, ImportSource.tagged, untagged]
          rfl
        have resolved := reread.resolve (wf.edits steps) fun d waiting text listed =>
          createdNodeId?_literal wf settled stored apart waiting listed
        simp only [resolved]
        rfl

/-! ## Dumps -/

theorem ImportSource.dump_nodes :
    (source.dump settings).nodes = source.recordsFor settings := by
  have nodes : (source.dump settings).nodes =
      (if settings.importNodes then source.nodeRecords else pure []).value := rfl
  rw [nodes, ImportSource.recordsFor, ImportSource.entriesFor]
  split
  · simp only [ImportSource.nodeRecords, Noted.value_bind, Noted.value_mapM, Noted.value_pure,
      List.filterMap_map, id]
    rfl
  · rfl

end

private theorem ImportSource.mapped_of_mem_dump {settings : ImportSettings}
    {source : Mapping.Source}
    {n : NodeRecord} (member : n ∈ ((ImportSource.ontology source).dump settings).nodes) :
    n.Mapped := by
  rw [dump_nodes, recordsFor, entriesFor] at member
  split at member
  · obtain ⟨entry, among, record⟩ := List.mem_filterMap.mp member
    obtain ⟨entity, -, rfl⟩ := List.mem_map.mp among
    exact Mapping.Source.mapped_of_nodeRecord? record
  · cases member

/-- A dump of an ontology is read as a document when it has no vocabularies and the references of
every field are of its kind. Importing the document then leaves the repository that importing the
ontology leaves, without the fields that are unset, unless a literal is the uuid of a node. -/
theorem ImportSource.dump_reread (settings : ImportSettings) (source : Mapping.Source)
    {layout : Json.Layout} (blank : layout.Blank) :
    let dump := (ImportSource.ontology source).dump settings
    let read := Document.ofText (dump.toJson.toTextAt layout 0).toList
    ((∃ document, read = .ok document) ↔
      dump.vocabularies = [] ∧ ∀ n ∈ dump.nodes, ∀ f ∈ n.fields, f.isUniform = true) ∧
    ∀ document, read = .ok document → LiteralsApart dump.nodes → ∀ overwrite contentModel,
      (runSource settings (.document document)
          (Store.empty overwrite contentModel)).2.repository =
        (runSource settings (.ontology source)
          (Store.empty overwrite contentModel)).2.repository.withSetFields := by
  intro dump read
  have outcome : read.toOption =
      if dump.vocabularies.isEmpty && dump.nodes.all NodeRecord.isUniform then
        some ⟨[], dump.nodes.map NodeRecord.reread⟩
      else none :=
    RecordDump.toOption_ofText blank 0 fun n member => mapped_of_mem_dump member
  have readable : (dump.vocabularies.isEmpty && dump.nodes.all NodeRecord.isUniform) = true ↔
      dump.vocabularies = [] ∧ ∀ n ∈ dump.nodes, ∀ f ∈ n.fields, f.isUniform = true := by
    simp only [Bool.and_eq_true, List.isEmpty_iff, List.all_eq_true, NodeRecord.isUniform]
  rw [← readable]
  cases found : read with
  | error fault =>
    rw [found] at outcome
    refine ⟨?_, fun document same => nomatch same⟩
    split at outcome
    · cases outcome
    · next refused => exact iff_of_false (fun ⟨_, same⟩ => nomatch same) refused
  | ok document =>
    rw [found] at outcome
    split at outcome
    · next accepted =>
      refine ⟨iff_of_true ⟨document, rfl⟩ accepted, ?_⟩
      rintro _ ⟨⟩ apart overwrite contentModel
      obtain rfl := Option.some.inj outcome
      have untagged := (readable.mp accepted).1
      have nodes : dump.nodes = (ImportSource.ontology source).recordsFor settings :=
        dump_nodes settings _
      rw [nodes] at apart ⊢
      have store := runSource_reread settings (.ontology source)
        (WellFormed.empty overwrite contentModel) rfl untagged
        (fun n member => mapped_of_mem_dump (nodes ▸ member)) apart
      exact congrArg Store.repository store
    · cases outcome

/-! ## Two pages -/

def siteAnchors : Ontology.Anchors where
  node := ⟨"d:Node", by decide +kernel⟩
  vocabulary := ⟨"d:Vocabulary", by decide +kernel⟩
  file := ⟨"d:File", by decide +kernel⟩
  entity := ⟨"d:Entity", by decide +kernel⟩
  title := ⟨"d:title", by decide +kernel⟩
  pathAlias := ⟨"d:alias", by decide +kernel⟩
  content := ⟨"d:content", by decide +kernel⟩
  summary := ⟨"d:summary", by decide +kernel⟩
  refNum := ⟨"d:ref_num", by decide +kernel⟩
  uri := ⟨"d:uri", by decide +kernel⟩
  annotationField := ⟨"d:field", by decide +kernel⟩
  datatypeField := ⟨"d:literal_field", by decide +kernel⟩
  objectField := ⟨"d:reference_field", by decide +kernel⟩

namespace LinkedSite

def page : Iri := ⟨"e:Page", by decide +kernel⟩

def next : Iri := ⟨"e:next", by decide +kernel⟩

def home : Iri := ⟨"e:home", by decide +kernel⟩

def news : Iri := ⟨"e:news", by decide +kernel⟩

def individual : Iri := ⟨"http://www.w3.org/2002/07/owl#NamedIndividual", by decide +kernel⟩

def objectProperty : Iri := ⟨"http://www.w3.org/2002/07/owl#ObjectProperty", by decide +kernel⟩

/-- A class of pages, a property between them, and two pages of which one leads to the other. -/
def elements : List Ontology.Element :=
  [⟨some page, [], [⟨Ontology.rdfsSubClassOf, .resource siteAnchors.node⟩]⟩,
    ⟨some next, [objectProperty],
      [⟨Ontology.rdfsSubPropertyOf, .resource siteAnchors.objectField⟩]⟩,
    ⟨some home, [individual, page],
      [⟨siteAnchors.content, .literal (.plain "Welcome")⟩, ⟨next, .resource news⟩]⟩,
    ⟨some news, [individual, page], []⟩]

end LinkedSite

open LinkedSite in
def linkedSite : Mapping.Source where
  graph := Graph.ofElements .inMemory siteAnchors [] elements
  anchors := siteAnchors
  options := ⟨false, false⟩

private theorem linkedSite_entities :
    linkedSite.nodeEntities = [LinkedSite.home, LinkedSite.news] := by
  simp only [Mapping.Source.nodeEntities, Mapping.Source.individualEntities, Graph.isInstance,
    Graph.isBelow, Graph.allSuperclasses_eq_ascendWithin]
  decide +kernel

private theorem linkedSite_records :
    let nodes := [LinkedSite.home, LinkedSite.news].filterMap fun entity =>
      (linkedSite.nodeRecord? entity).value
    nodes.length = 2 ∧ ∀ n ∈ nodes, ∀ f ∈ n.fields, f.isUniform = true ∧
      ∀ m ∈ nodes, .literal m.uuid ∉ f.deferredTargets?.getD [] := by
  simp only [Mapping.Source.nodeRecord?, Mapping.Source.bundleOf?, Mapping.Source.nodeFields,
    Mapping.Source.nodeField?, Mapping.Source.targetItem?, Mapping.Source.parentField,
    Mapping.Source.fileUri?, Mapping.Source.filePath, Graph.descendsFrom, Graph.isInstance,
    Graph.isBelow, Graph.allSuperclasses_eq_ascendWithin]
  decide +kernel

theorem ImportSource.dump_reread_linkedSite :
    let dump := (ImportSource.ontology linkedSite).dump .standard
    dump.nodes.length = 2 ∧ LiteralsApart dump.nodes ∧
      ∃ document, Document.ofText dump.toJson.toLines.toList = .ok document ∧
        (runSource .standard (.document document) (Store.empty false [])).2.repository =
          (runSource .standard (.ontology linkedSite)
            (Store.empty false [])).2.repository.withSetFields := by
  intro dump
  have nodes : dump.nodes = [LinkedSite.home, LinkedSite.news].filterMap fun entity =>
      (linkedSite.nodeRecord? entity).value := by
    have records : dump.nodes =
        (linkedSite.nodeEntities.map linkedSite.nodeRecord?).filterMap (·.value) :=
      dump_nodes .standard _
    rw [records, linkedSite_entities, List.filterMap_map]
    rfl
  obtain ⟨two, fields⟩ := linkedSite_records
  rw [← nodes] at two fields
  have untagged : dump.vocabularies = [] := by decide +kernel
  have apart : LiteralsApart dump.nodes := fun n among f held m other =>
    (fields n among f held).2 m other
  obtain ⟨readable, same⟩ := dump_reread .standard linkedSite Json.Layout.indented_blank
  obtain ⟨document, read⟩ := readable.mpr
    ⟨untagged, fun n among f held => (fields n among f held).1⟩
  exact ⟨two, apart, document, read, same document read apart false []⟩

end ContentImport
