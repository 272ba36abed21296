import ContentImport.Proofs.Import.Dump
import ContentImport.Proofs.Ontology.Run

/-!
Writing the records of a dump. A run maps each node when it comes to it, between writes to the
store; a dump holds all of them from the start. Written one after the other, the records of the dump
do to a store what the run does, and the warnings of the run are those of the dump with messages of
the store among them.
-/

set_option autoImplicit false
set_option relaxedAutoImplicit false

namespace ContentImport

open ContentImport.Ontology

/-! ## Logs -/

/-- A log in which messages of the store stand among those of a source; each are in the order in
which they were raised. -/
structure Warnings.Mixed (log ofSource ofStore : Warnings) : Prop where
  withoutStore : log.messages.filter (!isOfStore ·) = ofSource.messages
  withoutSource : log.messages.filter isOfStore = ofStore.messages
  source : ∀ m ∈ ofSource.messages, SourceNotice m
  store : ∀ m ∈ ofStore.messages, StoreNotice m

namespace Warnings.Mixed

variable {log ofSource ofStore : Warnings} {messages : List String}

private theorem empty : Warnings.empty.Mixed .empty .empty :=
  ⟨rfl, rfl, nofun, nofun⟩

private theorem warnSource (mixed : log.Mixed ofSource ofStore)
    (notices : ∀ m ∈ messages, SourceNotice m) :
    (log.warnAll messages).Mixed (ofSource.warnAll messages) ofStore := by
  induction messages generalizing log ofSource with
  | nil => exact mixed
  | cons m messages ih =>
    obtain ⟨first, others⟩ := List.forall_mem_cons.mp notices
    refine ih ⟨?_, ?_, ?_, mixed.store⟩ others
    · simp only [warn, Distinct.filter_add, first.isOfStore, Bool.not_false, if_true,
        mixed.withoutStore]
    · simp only [warn, Distinct.filter_add, first.isOfStore, Bool.false_eq_true, if_false,
        mixed.withoutSource]
    · intro other said
      rcases Distinct.mem_add.mp said with before | rfl
      · exact mixed.source other before
      · exact first

private theorem warnStore (mixed : log.Mixed ofSource ofStore)
    (notices : ∀ m ∈ messages, StoreNotice m) :
    (log.warnAll messages).Mixed ofSource (ofStore.warnAll messages) := by
  induction messages generalizing log ofStore with
  | nil => exact mixed
  | cons m messages ih =>
    obtain ⟨first, others⟩ := List.forall_mem_cons.mp notices
    refine ih ⟨?_, ?_, mixed.source, ?_⟩ others
    · simp only [warn, Distinct.filter_add, first.isOfStore, Bool.not_true, Bool.false_eq_true,
        if_false, mixed.withoutStore]
    · simp only [warn, Distinct.filter_add, first.isOfStore, if_true, mixed.withoutSource]
    · intro other said
      rcases Distinct.mem_add.mp said with before | rfl
      · exact mixed.store other before
      · exact first

private theorem parts (mixed : log.Mixed ofSource ofStore) :
    log.messages.filter (· ∉ ofStore.messages) = ofSource.messages ∧
      log.messages.filter (· ∈ ofStore.messages) = ofStore.messages := by
  have among : ∀ m ∈ log.messages, m ∈ ofStore.messages ↔ isOfStore m = true := by
    intro m held
    rw [← mixed.withoutSource, List.mem_filter]
    exact and_iff_right held
  constructor
  · refine Eq.trans (List.filter_congr fun m held => ?_) mixed.withoutStore
    simp only [among m held, decide_not, Bool.decide_eq_true]
  · refine Eq.trans (List.filter_congr fun m held => ?_) mixed.withoutSource
    simp only [among m held, Bool.decide_eq_true]

end Warnings.Mixed

/-! ## Nodes -/

namespace Progress

/-- Store records one after the other, up to the first error that ends the run. -/
def storeRecords (p : Progress) : List NodeRecord → Option StoreError × Progress
  | [] => (none, p)
  | n :: rest =>
    match p.storeNode n with
    | (some e, p) => (some e, p)
    | (none, p) => p.storeRecords rest

/-- Progress that writes the records of a source without mapping it: the stores are the same, and the
warnings of the run have those of the source besides. -/
structure Replays (ofSource : Warnings) (run replay : Progress) : Prop where
  store : replay.store = run.store
  pending : replay.pending = run.pending
  warnings : run.warnings.Mixed ofSource replay.warnings

namespace Replays

variable {ofSource : Warnings} {run replay : Progress}

private theorem noting (replays : Replays ofSource run replay) {entry : Noted (Option NodeRecord)}
    (notices : ∀ m ∈ entry.messages, SourceNotice m) :
    Replays (ofSource.warnAll entry.messages) (run.noting entry) replay :=
  ⟨replays.store, replays.pending, replays.warnings.warnSource notices⟩

private theorem storeNode (replays : Replays ofSource run replay) (n : NodeRecord) :
    (replay.storeNode n).1 = (run.storeNode n).1 ∧
      Replays ofSource (run.storeNode n).2 (replay.storeNode n).2 := by
  obtain ⟨messages, notices, stored⟩ := run.storeNode_eq n
  have again : replay = { run with warnings := replay.warnings } := by
    rw [← replays.store, ← replays.pending]
  rw [again, stored replay.warnings, stored run.warnings]
  exact ⟨rfl, rfl, rfl, replays.warnings.warnStore notices⟩

private theorem storeNodes (replays : Replays ofSource run replay)
    {entries : List (Noted (Option NodeRecord))}
    (notices : ∀ entry ∈ entries, ∀ m ∈ entry.messages, SourceNotice m) :
    (replay.storeRecords (entries.filterMap (·.value))).1 = (run.storeNodes entries).1 ∧
      (replay.storeRecords (entries.filterMap (·.value))).2.store =
        (run.storeNodes entries).2.store ∧
      ((run.storeNodes entries).1 = none →
        Replays (ofSource.warnAll (entries.flatMap (·.messages))) (run.storeNodes entries).2
          (replay.storeRecords (entries.filterMap (·.value))).2) := by
  induction entries generalizing ofSource run replay with
  | nil => exact ⟨rfl, replays.store, fun _ => replays⟩
  | cons entry entries ih =>
    obtain ⟨first, others⟩ := List.forall_mem_cons.mp notices
    have noted := replays.noting first
    have all : ofSource.warnAll ((entry :: entries).flatMap (·.messages)) =
        (ofSource.warnAll entry.messages).warnAll (entries.flatMap (·.messages)) := by
      rw [List.flatMap_cons, Warnings.warnAll, List.foldl_append]
      rfl
    rw [all]
    cases present : entry.value with
    | none =>
      rw [List.filterMap_cons_none present, storeNodes_cons_none run present]
      exact ih noted others
    | some n =>
      obtain ⟨outcome, next⟩ := noted.storeNode n
      rw [List.filterMap_cons_some present, storeNodes_cons_some run present]
      simp only [storeRecords]
      cases stored : (run.noting entry).storeNode n with
      | mk failure run' =>
        cases again : replay.storeNode n with
        | mk failure' replay' =>
          rw [stored, again] at outcome next
          simp only at outcome next
          subst outcome
          cases failure' with
          | some e => exact ⟨rfl, next.store, nofun⟩
          | none => exact ih next others

end Replays
end Progress

/-! ## Sources -/

namespace ImportSource

private theorem sourceNotice_of_mem_nodeEntries (source : ImportSource) :
    ∀ entry ∈ source.nodeEntries, ∀ m ∈ entry.messages, SourceNotice m := by
  intro entry listed m raised
  cases source with
  | document d =>
    obtain ⟨n, -, rfl⟩ := List.mem_map.mp listed
    cases raised
  | ontology s =>
    obtain ⟨entity, -, rfl⟩ := List.mem_map.mp listed
    exact s.sourceNotice_of_mem_nodeRecord? raised

private theorem sourceNotice_of_mem_entriesFor (settings : ImportSettings) (source : ImportSource) :
    ∀ entry ∈ source.entriesFor settings, ∀ m ∈ entry.messages, SourceNotice m := by
  intro entry listed
  unfold entriesFor at listed
  split at listed
  · exact source.sourceNotice_of_mem_nodeEntries entry listed
  · cases listed

private theorem messages_nodeRecords (source : ImportSource) :
    source.nodeRecords.messages = source.nodeEntries.flatMap (·.messages) := by
  simp [nodeRecords]

private theorem sourceNotice_of_mem_notices {settings : ImportSettings} {path : String}
    {content : PathContent} {source : ImportSource}
    (opened : openSource settings path content = .ok source) :
    ∀ m ∈ source.notices, SourceNotice m := by
  intro m said
  obtain ⟨interpreted, -, opened⟩ := Attempt.bind_eq_ok.mp opened
  unfold ofContent at opened
  split at opened
  · obtain ⟨d, -, rfl⟩ := Attempt.map_eq_ok.mp opened
    cases said
  · obtain ⟨graph, read, same⟩ := Attempt.bind_eq_ok.mp opened
    obtain rfl := Except.ok.inj same
    obtain ⟨reading, whole, rfl⟩ := Attempt.map_eq_ok.mp read
    have notices : ∀ strategy anchors,
        (Graph.ofElements strategy anchors reading.notices reading.elements).notices =
          reading.notices := fun strategy _ => by cases strategy <;> rfl
    have whole := Attempt.mapError_eq_ok.mp whole
    unfold Reading.whole at whole
    simp only at whole
    split at whole
    · cases whole
    · next none =>
      obtain rfl := Except.ok.inj whole
      rw [ImportSource.notices, notices] at said
      obtain ⟨e, predicate, rfl⟩ := Reading.mem_notices none said
      exact .leftOut e predicate
  · cases opened

end ImportSource

/-! ## Runs -/

/-- Write the records of a dump into a store: import its vocabularies, store its nodes in order and
then write their references. -/
def RecordDump.write (d : RecordDump) (s : Store) : Option StoreError × Progress :=
  match (Progress.start (s.importVocabularies d.vocabularies)).storeRecords d.nodes with
  | (some e, p) => (some e, p)
  | (none, p) => (none, p.resolve.2)

private theorem ImportSource.dump_warnings (settings : ImportSettings) (source : ImportSource) :
    (source.dump settings).warnings =
      ((Warnings.empty.warnAll source.notices).warnAll
        ((source.entriesFor settings).flatMap (·.messages))).messages := by
  have messages : (source.dump settings).warnings =
      ((Warnings.empty.warnAll source.notices).warnAll
        (if settings.importNodes then source.nodeRecords else pure []).messages).messages := rfl
  rw [messages, entriesFor]
  split
  · rw [messages_nodeRecords]
  · rfl

private theorem ImportSource.unresolved_replayed {settings : ImportSettings} {path : String}
    {content : PathContent} {source : ImportSource}
    (opened : openSource settings path content = .ok source) (s : Store) :
    let d := source.dump settings
    let replayed := (Progress.start (s.importVocabularies d.vocabularies)).storeRecords d.nodes
    replayed.1 = (source.unresolved settings s).1 ∧
      replayed.2.store = (source.unresolved settings s).2.store ∧
      ((source.unresolved settings s).1 = none →
        Progress.Replays ((Warnings.empty.warnAll source.notices).warnAll
          ((source.entriesFor settings).flatMap (·.messages)))
          (source.unresolved settings s).2 replayed.2) := by
  intro d replayed
  have start : Progress.Replays (Warnings.empty.warnAll source.notices)
      (source.tagged settings s) (.start (s.importVocabularies d.vocabularies)) :=
    ⟨rfl, rfl, Warnings.Mixed.empty.warnSource (sourceNotice_of_mem_notices opened)⟩
  have records : (source.entriesFor settings).filterMap (·.value) = d.nodes :=
    (dump_nodes settings source).symm
  have stored := start.storeNodes (source.sourceNotice_of_mem_entriesFor settings)
  rwa [records] at stored

/-- Whenever a source can be dumped, a run does what writing the dump does: it fails with the same
error or succeeds, and leaves the same store. When it succeeds, its warnings without those of the
store are the warnings of the dump, and the others are what writing the dump says. -/
theorem runImport_writes_dump {settings : ImportSettings} {path : String} {content : PathContent}
    {dump : RecordDump} (dumped : dumpRecords settings path content = .ok dump) (s : Store) :
    match dump.write s with
    | (some e, p) => runImport settings path content s = (.error (.store e), p.store.rollback)
    | (none, p) => ∃ summary, runImport settings path content s = (.ok summary, p.store.commit) ∧
        (∀ m ∈ p.warnings.messages, StoreNotice m) ∧ (∀ m ∈ dump.warnings, ¬ StoreNotice m) ∧
        summary.warnings.filter (· ∉ p.warnings.messages) = dump.warnings ∧
        summary.warnings.filter (· ∈ p.warnings.messages) = p.warnings.messages := by
  obtain ⟨source, opened, rfl⟩ := Attempt.map_eq_ok.mp dumped
  have run : runImport settings path content s = runSource settings source s := by
    simp only [runImport, opened]
  obtain ⟨outcome, store, replays⟩ := ImportSource.unresolved_replayed opened s
  rw [run, runSource_eq, RecordDump.write]
  cases ran : source.unresolved settings s with
  | mk failure p =>
    cases written : (Progress.start
        (s.importVocabularies (source.dump settings).vocabularies)).storeRecords
          (source.dump settings).nodes with
    | mk failure' q =>
      rw [ran, written] at outcome store replays
      simp only at outcome store replays
      subst outcome
      cases failure' with
      | some e => simp only [store]
      | none =>
        obtain ⟨_, pending, mixed⟩ := replays rfl
        have resolved : q.resolve.2.store = p.resolve.2.store := by
          simp only [Progress.resolve, store, pending]
        obtain ⟨withoutStore, withoutSource⟩ := mixed.parts
        have warnings := source.dump_warnings settings
        refine ⟨p.resolve.2.summary source, by simp only [resolved], mixed.store, ?_, ?_,
          withoutSource⟩
        · intro m said ofStore
          rw [warnings] at said
          have small := ofStore.isOfStore
          rw [(mixed.source m said).isOfStore] at small
          cases small
        · rw [warnings]
          exact withoutStore

/-! ## A page with a remark -/

namespace RemarkedSite

open LinkedSite (page)

/-- A content type and a class below it, of which something is remarked that cannot be taken. -/
def bytes : List UInt8 :=
  ("<r:RDF xmlns:r='http://www.w3.org/1999/02/22-rdf-syntax-ns#'" ++
    " xmlns:s='http://www.w3.org/2000/01/rdf-schema#'>" ++
    "<r:Description r:about='e:Page'><s:subClassOf r:resource='d:Node'/></r:Description>" ++
    "<r:Description r:about='e:Home'><s:subClassOf r:resource='e:Page'/>" ++
    "<s:seeAlso><b/></s:seeAlso></r:Description></r:RDF>").toUTF8.toList

def home : Iri := ⟨"e:Home", by decide +kernel⟩

def elements : List Ontology.Element :=
  [⟨some page, [], [⟨rdfsSubClassOf, .resource siteAnchors.node⟩]⟩,
    ⟨some home, [], [⟨rdfsSubClassOf, .resource page⟩]⟩]

def remark : String :=
  "Statement 'seeAlso' of 'Home' has nested content and was skipped."

def settings : ImportSettings :=
  { ImportSettings.standard with
    anchorSpace := "d:"
    classesAsNodes := true
    onlyLeafClassesAsNodes := true }

def homeRecord : NodeRecord :=
  ⟨"Home", "page", none, "e:Home", [⟨"body", .body (.fullHtml none none), none⟩]⟩

end RemarkedSite

open RemarkedSite in
def remarkedSite : Mapping.Source where
  graph := Graph.ofElements .inMemory siteAnchors [remark] elements
  anchors := siteAnchors
  options := ⟨true, true⟩

section

open RemarkedSite
open LinkedSite (page)

private theorem remarkedSite_anchors : settings.anchors = .ok siteAnchors := by
  have found : settings.anchors.toOption = some siteAnchors := by decide +kernel
  cases outcome : settings.anchors with
  | error fault =>
    rw [outcome] at found
    cases found
  | ok anchors =>
    rw [outcome] at found
    rw [Option.some.inj found]

private theorem remarkedSite_opens {document : List UInt8}
    (taken : (Reading.ofBytes document).elements = elements)
    (said : (Reading.ofBytes document).notices = [remark])
    (unbroken : (Reading.ofBytes document).fault = none) (small : document.length ≤ 100000000) :
    openSource settings "site.owl" (.file document) = .ok (.ontology remarkedSite) := by
  have threshold : settings.thresholdBytes = .ok 100000000 := by decide +kernel
  have interpreted : settings.interpret = .ok ⟨100000000, siteAnchors⟩ := by
    rw [ImportSettings.interpret, threshold, remarkedSite_anchors]
    rfl
  have format : SourceFormat.ofPath? "site.owl" = some .ontology := by decide +kernel
  have strategy : AccessStrategy.forSize document.length 100000000 = .inMemory :=
    if_neg (Nat.not_lt.mpr small)
  have graph : openGraph .inMemory siteAnchors "site.owl" (.file document) =
      .ok remarkedSite.graph := by
    simp only [openGraph, readOntology, Reading.whole, unbroken, Except.mapError, Except.map,
      taken, said]
    rfl
  have whole : ImportSource.ofContent settings ⟨100000000, siteAnchors⟩ "site.owl"
      (.file document) = .ok (.ontology remarkedSite) := by
    simp only [ImportSource.ofContent, format, strategy, graph]
    rfl
  exact Attempt.bind_eq_ok.mpr ⟨_, Attempt.mapError_eq_ok.mpr interpreted, whole⟩

private theorem remarkedSite_entities : remarkedSite.nodeEntities = [home] := by
  have below : remarkedSite.graph.directSubclasses page = [home] := by decide +kernel
  have none : remarkedSite.graph.directSubclasses home = [] := by decide +kernel
  have linked : remarkedSite.graph.linked.filter (· ≠ page) = [siteAnchors.node, home] := by
    decide +kernel
  have leaves : remarkedSite.graph.leafSubclasses page = [home] := by
    rw [Graph.leafSubclasses, Graph.allSubclasses, Hierarchy.depthFirst, below, linked,
      Hierarchy.descend, if_pos (by decide +kernel), none, List.nil_append, Hierarchy.descend]
    decide +kernel
  have classes : remarkedSite.classEntities = [home] := by
    have anchored : remarkedSite.graph.directSubclasses remarkedSite.anchors.node = [page] := by
      decide +kernel
    rw [Mapping.Source.classEntities, anchored]
    simp only [List.flatMap_cons, leaves]
    rfl
  have individuals : remarkedSite.individualEntities = [] := by decide +kernel
  rw [Mapping.Source.nodeEntities, classes, individuals]
  rfl

private theorem remarkedSite_record :
    remarkedSite.nodeRecord? home = pure (some homeRecord) := by
  have anchored : remarkedSite.graph.directSubclasses remarkedSite.anchors.node = [page] := by
    decide +kernel
  have descends : remarkedSite.graph.descendsFrom home page = true := by
    simp only [Graph.descendsFrom, Graph.isInstance, Graph.isBelow,
      Graph.allSuperclasses_eq_ascendWithin]
    decide +kernel
  have bundle : remarkedSite.bundleOf? home = some "page" := by
    rw [Mapping.Source.bundleOf?, anchored, List.find?_cons_of_pos descends]
    decide +kernel
  have element : remarkedSite.graph.element? home =
      some ⟨some home, [], [⟨rdfsSubClassOf, .resource page⟩]⟩ := by
    decide +kernel
  have untagged : remarkedSite.graph.descendsFrom home remarkedSite.anchors.vocabulary = false := by
    simp only [Graph.descendsFrom, Graph.isInstance, Graph.isBelow,
      Graph.allSuperclasses_eq_ascendWithin]
    decide +kernel
  have properties : remarkedSite.graph.fieldProperties = [] := by decide +kernel
  simp only [Mapping.Source.nodeRecord?, bundle, Mapping.Source.nodeFields, element, untagged,
    properties]
  rfl

theorem runImport_writes_dump_remarkedSite :
    let skip := Progress.skippedFieldMessage "page" "body"
    ∃ dump p summary, dumpRecords settings "site.owl" (.file bytes) = .ok dump ∧
      dump.write (Store.empty false [("page", [])]) = (none, p) ∧
      runImport settings "site.owl" (.file bytes) (Store.empty false [("page", [])]) =
        (.ok summary, p.store.commit) ∧
      p.store.repository.nodes.length = 1 ∧
      summary.warnings.filter (· ∉ [skip]) = [remark] ∧
      summary.warnings.filter (· ∈ [skip]) = [skip] := by
  intro skip
  let dump := (ImportSource.ontology remarkedSite).dump settings
  have dumped : dumpRecords settings "site.owl" (.file bytes) = .ok dump := by
    have read : (Reading.ofBytes bytes).elements = elements ∧
        (Reading.ofBytes bytes).notices = [remark] ∧ (Reading.ofBytes bytes).fault = none := by
      decide +kernel
    obtain ⟨taken, said, unbroken⟩ := read
    exact Attempt.map_eq_ok.mpr
      ⟨_, remarkedSite_opens taken said unbroken (by decide +kernel), rfl⟩
  have nodes : dump.nodes = [homeRecord] := by
    have records : dump.nodes =
        (remarkedSite.nodeEntities.map remarkedSite.nodeRecord?).filterMap (·.value) :=
      ImportSource.dump_nodes settings _
    rw [records, remarkedSite_entities, List.map_singleton, remarkedSite_record]
    rfl
  have told : dump.warnings = [remark] := by
    have entries : (ImportSource.ontology remarkedSite).entriesFor settings =
        [pure (some homeRecord)] := by
      have wanted : settings.importNodes = true := rfl
      rw [ImportSource.entriesFor, if_pos wanted, ImportSource.nodeEntries, remarkedSite_entities,
        List.map_singleton, remarkedSite_record]
    rw [ImportSource.dump_warnings, entries]
    decide +kernel
  have untagged : dump.vocabularies = [] := by decide +kernel
  have written : (dump.write (Store.empty false [("page", [])])).1 = none ∧
      (dump.write (Store.empty false [("page", [])])).2.store.repository.nodes.length = 1 ∧
      (dump.write (Store.empty false [("page", [])])).2.warnings.messages = [skip] := by
    rw [RecordDump.write, nodes, untagged]
    decide +kernel
  have run := runImport_writes_dump dumped (Store.empty false [("page", [])])
  cases outcome : dump.write (Store.empty false [("page", [])]) with
  | mk failure p =>
    rw [outcome] at written run
    obtain ⟨rfl, stored, skipped⟩ := written
    obtain ⟨summary, ran, -, -, ofSource, ofStore⟩ := run
    rw [skipped, told] at ofSource
    rw [skipped] at ofStore
    exact ⟨dump, p, summary, dumped, outcome, ran, stored, ofSource, ofStore⟩

end

end ContentImport
